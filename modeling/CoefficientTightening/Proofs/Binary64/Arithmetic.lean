import CoefficientTightening.Proofs.Binary64.Rounding
import CoefficientTightening.Proofs.RoundedArithmetic
import CoefficientTightening.Scalar.Binary64

/-! Doubles are scalars that round. Sums, differences and products of doubles are computed exactly and
rounded once; a result beyond the largest double becomes an infinity, next to which no double lies.
What is proved of rounded arithmetic thus holds of doubles, with their NaNs, infinities and zeros of
both signs. -/
namespace CoefficientTightening.Binary64

open Extended (finite infinite nan)
open Float.Model (UnpackedFloat)
open Float.Model.UnpackedFloat (Sign pack unpack)

/-- The exact value of a double. -/
def denote (a : Float) : Extended := value a.toModel.unpack

theorem fits (a : Float) : Fits a.toModel.unpack := unpack_fits _

/-- What is left of a result once it has been packed into a double. -/
def stored (u : UnpackedFloat) : UnpackedFloat := unpack format (pack format u)

/-! ### Negation -/

theorem fits_neg {u : UnpackedFloat} (h : Fits u) : Fits u.neg := by
  cases u <;> exact h

theorem value_neg (u : UnpackedFloat) : value u.neg = -value u := by
  cases u with
  | infinity s => cases s <;> rfl
  | notANumber => rfl
  | zero s => exact congrArg finite neg_zero.symm
  | finite s m e hm => cases s <;> simp [UnpackedFloat.neg, value, Sign.apply]

theorem denote_neg (a : Float) : denote (-a) = -denote a := by
  show value (unpack format (pack format a.toModel.unpack.neg)) = _
  rw [unpack_pack (fits_neg (fits a)), value_neg]
  rfl

/-! ### Rounding -/

section Rounding

variable {m n : ℕ} {e f : ℤ} {x : ℚ}

/-- A number is a NaN, infinite, or a signed canonical magnitude. -/
theorem denote_cases (c : Float) : denote c = nan ∨ (∃ s, denote c = infinite s) ∨
    ∃ s : Sign, ∃ n f, IsCanonical n f ∧ f ≤ 971 ∧ denote c = finite (s.apply n * 2 ^ f) := by
  have hfits := fits c
  unfold denote
  cases h : c.toModel.unpack with rw [h] at hfits
  | infinity s => exact .inr (.inl ⟨_, rfl⟩)
  | notANumber => exact .inl rfl
  | zero s =>
    refine .inr (.inr ⟨.positive, 0, -1074, ⟨by norm_num, le_rfl, .inr rfl⟩, by norm_num, ?_⟩)
    simp [value, Sign.apply]
  | finite s m e hm => exact .inr (.inr ⟨s, m, e, hfits.1, hfits.2, rfl⟩)

theorem value_stored_ofParts (s : Sign) (h : IsCanonical n f) :
    value (stored (ofParts s n f)) =
      if f ≤ 971 then finite (s.apply n * 2 ^ f) else infinite (s == .negative) := by
  unfold stored ofParts
  by_cases hzero : n = 0
  · subst hzero
    obtain rfl := h.normal.resolve_left (by norm_num)
    rw [dif_pos rfl, if_pos (by norm_num), unpack_pack (u := .zero s) trivial]
    cases s <;> simp [value, Sign.apply]
  · rw [dif_neg hzero]
    split_ifs with hf
    · rw [unpack_pack (u := .finite s n f (Nat.pos_of_ne_zero hzero)) ⟨h, hf⟩]
      rfl
    · rw [unpack_pack_of_overflow s _ (not_le.mp hf)]
      rfl

/-- A positive result rounds: where its exponent is too large, only an infinity lies above it. -/
theorem roundsTo_positive (hcanonical : IsCanonical n f) (hfaithful : IsFaithful x (n * 2 ^ f))
    (hx : 0 < x) :
    RoundsTo denote (finite x) (if f ≤ 971 then finite (n * 2 ^ f) else infinite false) where
  special h := by cases h
  not_below c hc := by
    have hnonneg : (0 : ℚ) ≤ n * 2 ^ f := by positivity
    obtain h | ⟨t, h⟩ | ⟨t, n', f', hcanonical', hf', h⟩ := denote_cases c <;> rw [h] at hc ⊢
    · cases hc
    · cases t with
      | false => cases hc
      | true => split_ifs <;> rfl
    · split_ifs with hf
      · rw [Extended.finite_le] at hc ⊢
        cases t with
        | negative =>
          have hnonneg' : (0 : ℚ) ≤ n' * 2 ^ f' := by positivity
          simp only [Sign.apply, Int.cast_neg, Int.cast_natCast, neg_mul]
          linarith
        | positive => exact hfaithful.not_below hcanonical' hc
      · rfl
  not_above c hc := by
    obtain h | ⟨t, h⟩ | ⟨t, n', f', hcanonical', hf', h⟩ := denote_cases c <;> rw [h] at hc ⊢
    · cases hc
    · cases t with
      | false => split_ifs <;> rfl
      | true => cases hc
    · rw [Extended.finite_le] at hc
      cases t with
      | negative =>
        have hnonneg' : (0 : ℚ) ≤ n' * 2 ^ f' := by positivity
        simp only [Sign.apply, Int.cast_neg, Int.cast_natCast, neg_mul] at hc
        linarith
      | positive =>
        have hle := hfaithful.not_above hcanonical' hc
        have hf : f ≤ 971 := by
          by_contra hover
          exact absurd hle (not_le.mpr (hcanonical'.lt_of_exponent_lt hcanonical (by omega)))
        rw [if_pos hf, Extended.finite_le]
        exact hle

theorem roundsTo_ofParts (s : Sign) (hm : 0 < m) (hcanonical : IsCanonical n f)
    (hfaithful : IsFaithful (m * 2 ^ e) (n * 2 ^ f)) :
    RoundsTo denote (finite (s.apply m * 2 ^ e)) (value (stored (ofParts s n f))) := by
  have hpos := roundsTo_positive hcanonical hfaithful (scaled_pos hm e)
  rw [value_stored_ofParts s hcanonical]
  cases s with
  | positive => exact hpos
  | negative =>
    convert hpos.neg denote_neg using 1
    · simp [Sign.apply]
    · split_ifs <;> simp [Sign.apply]

theorem roundsTo_round (s : Sign) (hm : 0 < m) (e : ℤ) :
    RoundsTo denote (finite (s.apply m * 2 ^ e))
      (value (stored (UnpackedFloat.round format s m e))) := by
  obtain ⟨n, f, hcanonical, hfaithful, heq⟩ := exists_round_eq s hm e
  rw [heq]
  exact roundsTo_ofParts s hm hcanonical hfaithful

theorem roundsTo_normalize (M e : ℤ) :
    RoundsTo denote (finite (M * 2 ^ e))
      (value (stored (UnpackedFloat.normalize format M e .positive))) := by
  unfold UnpackedFloat.normalize
  rcases lt_trichotomy M 0 with hM | rfl | hM
  · have h := roundsTo_round .negative (m := (-M).toNat) (by omega) e
    rw [show Sign.apply .negative ((-M).toNat : ℤ) = M by simp only [Sign.apply]; omega] at h
    rw [compare_lt_iff_lt.mpr hM]
    exact h
  · rw [compare_eq_iff_eq.mpr rfl]
    simp only [stored]
    rw [unpack_pack (u := .zero .positive) trivial, Int.cast_zero, zero_mul]
    exact .refl _ _
  · have h := roundsTo_round .positive (m := M.toNat) (by omega) e
    rw [show Sign.apply .positive (M.toNat : ℤ) = M by simp only [Sign.apply]; omega] at h
    rw [compare_gt_iff_gt.mpr hM]
    exact h

end Rounding

/-! ### Operations -/

section Operations

variable {u v : UnpackedFloat}

theorem roundsTo_of_fits {exact : Extended} (hu : Fits u) (h : value u = exact) :
    RoundsTo denote exact (value (stored u)) := by
  rw [stored, unpack_pack hu, h]
  exact .refl _ _

/-- Lowering the exponent shifts the mantissa and keeps the number. -/
theorem apply_shiftLeft (s : Sign) (m : ℕ) {e t : ℤ} (h : t ≤ e) :
    (s.apply (m <<< (e - t).toNat : ℕ) : ℚ) * 2 ^ t = s.apply m * 2 ^ e := by
  obtain ⟨d, rfl⟩ := Int.le.dest h
  rw [show (t + d - t).toNat = d by omega, Nat.shiftLeft_eq, zpow_add₀ (by norm_num), zpow_natCast]
  cases s <;> simp only [Sign.apply] <;> push_cast <;> ring

theorem roundsTo_add_finite (s t : Sign) {m₁ m₂ : ℕ} {e₁ e₂ : ℤ} (hm₁ : 0 < m₁) (hm₂ : 0 < m₂) :
    RoundsTo denote (finite (s.apply m₁ * 2 ^ e₁) + finite (t.apply m₂ * 2 ^ e₂))
      (value (stored (UnpackedFloat.add format (.finite s m₁ e₁ hm₁) (.finite t m₂ e₂ hm₂)))) := by
  have h := roundsTo_normalize (s.apply (m₁ <<< (e₁ - min e₁ e₂).toNat : ℕ) +
    t.apply (m₂ <<< (e₂ - min e₁ e₂).toNat : ℕ)) (min e₁ e₂)
  rw [Int.cast_add, add_mul, apply_shiftLeft s m₁ (min_le_left _ _),
    apply_shiftLeft t m₂ (min_le_right _ _)] at h
  exact h

theorem roundsTo_add (hu : Fits u) (hv : Fits v) :
    RoundsTo denote (value u + value v) (value (stored (UnpackedFloat.add format u v))) := by
  rcases u with s | _ | s | ⟨s, m₁, e₁, hm₁⟩ <;> rcases v with t | _ | t | ⟨t, m₂, e₂, hm₂⟩
  case finite.finite => exact roundsTo_add_finite s t hm₁ hm₂
  case finite.zero => exact roundsTo_of_fits hu (Extended.add_finite_zero _).symm
  case zero.finite => exact roundsTo_of_fits hv (Extended.finite_zero_add _).symm
  case zero.zero =>
    cases s <;> cases t <;> exact roundsTo_of_fits trivial (Extended.add_finite_zero _).symm
  all_goals
    (try cases s) <;> (try cases t) <;> exact roundsTo_of_fits trivial (by rfl)

theorem apply_neg (s : Sign) (a : ℤ) : (-s).apply a = -s.apply a := by
  cases s
  · exact (Int.neg_neg a).symm
  · rfl

theorem apply_mul (s t : Sign) (a b : ℤ) : (s * t).apply (a * b) = s.apply a * t.apply b := by
  cases s <;> cases t
  · exact (neg_mul_neg a b).symm
  · exact (neg_mul a b).symm
  · exact (mul_neg a b).symm
  · rfl

/-- Subtracting is adding the negated number. -/
theorem sub_eq_add_neg (u v : UnpackedFloat) :
    UnpackedFloat.sub format u v = UnpackedFloat.add format u v.neg := by
  rcases u with s | _ | s | ⟨s, m₁, e₁, hm₁⟩ <;> rcases v with t | _ | t | ⟨t, m₂, e₂, hm₂⟩
  case finite.finite =>
    simp only [UnpackedFloat.sub, UnpackedFloat.add, UnpackedFloat.neg, apply_neg,
      Int.sub_eq_add_neg]
  all_goals (try cases s) <;> (try cases t) <;> rfl

theorem roundsTo_sub (hu : Fits u) (hv : Fits v) :
    RoundsTo denote (value u - value v) (value (stored (UnpackedFloat.sub format u v))) := by
  rw [Extended.sub_eq, ← value_neg, sub_eq_add_neg]
  exact roundsTo_add hu (fits_neg hv)

/-- The product of two mantissas has 53 bits, or both exponents are the least one. -/
theorem roundsTo_mul_finite (s t : Sign) {m₁ m₂ : ℕ} {e₁ e₂ : ℤ} (hm₁ : 0 < m₁) (hm₂ : 0 < m₂)
    (h₁ : IsCanonical m₁ e₁) (h₂ : IsCanonical m₂ e₂) :
    RoundsTo denote (finite (s.apply m₁ * 2 ^ e₁) * finite (t.apply m₂ * 2 ^ e₂))
      (value (stored (UnpackedFloat.mul format (.finite s m₁ e₁ hm₁) (.finite t m₂ e₂ hm₂)))) := by
  have hbits : 52 ≤ (m₁ * m₂).log2 ∨ e₁ + e₂ ≤ -1074 := by
    have long (h : 2 ^ 52 ≤ m₁ * m₂) : 52 ≤ (m₁ * m₂).log2 := by
      by_contra hlt
      exact absurd h (not_le.mpr ((Nat.log2_lt (by positivity)).mp (not_le.mp hlt)))
    rcases h₁.normal with h | h
    · exact .inl (long (h.trans (Nat.le_mul_of_pos_right m₁ hm₂)))
    rcases h₂.normal with h' | h'
    · exact .inl (long (h'.trans (Nat.le_mul_of_pos_left m₂ hm₁)))
    · exact .inr (by omega)
  obtain ⟨n, f, hcanonical, hfaithful, heq⟩ :=
    exists_roundWithAccuracy_eq (s * t) (Nat.mul_pos hm₁ hm₂) hbits
  have h := roundsTo_ofParts (s * t) (Nat.mul_pos hm₁ hm₂) hcanonical hfaithful
  have hexact : finite (s.apply m₁ * 2 ^ e₁) * finite (t.apply m₂ * 2 ^ e₂) =
      finite ((s * t).apply (m₁ * m₂ : ℕ) * 2 ^ (e₁ + e₂)) := by
    rw [Extended.finite_mul, zpow_add₀ (by norm_num), Nat.cast_mul, apply_mul, Int.cast_mul]
    ring_nf
  rw [hexact]
  rw [← heq] at h
  exact h

/-- The sign of a number is that of its value. -/
theorem negative?_value (s : Sign) {m : ℕ} (hm : 0 < m) (e : ℤ) :
    (finite (s.apply m * 2 ^ e)).negative? = some (s == .negative) := by
  have hpos := scaled_pos hm e
  cases s
  · simp only [Sign.apply, Int.cast_neg, Int.cast_natCast, neg_mul]
    rw [Extended.negative?, if_pos (by linarith)]
    rfl
  · simp only [Sign.apply, Int.cast_natCast]
    rw [Extended.negative?, if_neg (by linarith), if_pos hpos]
    rfl

theorem roundsTo_mul (hu : Fits u) (hv : Fits v) :
    RoundsTo denote (value u * value v) (value (stored (UnpackedFloat.mul format u v))) := by
  rcases u with s | _ | s | ⟨s, m₁, e₁, hm₁⟩ <;> rcases v with t | _ | t | ⟨t, m₂, e₂, hm₂⟩
  case finite.finite => exact roundsTo_mul_finite s t hm₁ hm₂ hu.1 hv.1
  case finite.zero => exact roundsTo_of_fits trivial (congrArg finite (mul_zero _).symm)
  case zero.finite => exact roundsTo_of_fits trivial (congrArg finite (zero_mul _).symm)
  case zero.zero => exact roundsTo_of_fits trivial (congrArg finite (mul_zero _).symm)
  case finite.infinity =>
    refine roundsTo_of_fits trivial ?_
    show _ = Extended.mul _ _
    simp only [value, Extended.mul, negative?_value s hm₁ e₁]
    cases s <;> cases t <;> rfl
  case infinity.finite =>
    refine roundsTo_of_fits trivial ?_
    show _ = Extended.mul _ _
    simp only [value, Extended.mul, negative?_value t hm₂ e₂]
    cases s <;> cases t <;> rfl
  all_goals
    (try cases s) <;> (try cases t) <;> exact roundsTo_of_fits trivial (by rfl)

end Operations

/-! ### Comparisons -/

section Comparisons

variable (a b : Float)

theorem compare_unpack :
    a.toModel.unpack.compare b.toModel.unpack = compare? (denote a) (denote b) :=
  compare_eq_compare? (fits a) (fits b)

theorem lt_iff : a < b ↔ denote a < denote b := by
  rw [← compare?_eq_lt_iff, ← compare_unpack, ← beq_iff_eq]
  exact decide_eq_true_iff

theorem le_iff : a ≤ b ↔ denote a ≤ denote b := by
  rw [← any_isLE_compare?_iff, ← compare_unpack]
  exact decide_eq_true_iff

theorem beq_eq : (a == b) = (denote a == denote b) := by
  rw [Bool.eq_iff_iff, ← compare?_eq_eq_iff, ← compare_unpack]
  exact beq_iff_eq (α := Option Ordering)

end Comparisons

/-- Doubles round as the format prescribes. -/
instance : RoundedScalar Float where
  denote := denote
  denote_lt := lt_iff
  denote_le := le_iff
  denote_beq := beq_eq
  isFinite_denote a := by
    show Scalar.isFinite (value a.toModel.unpack) = a.toModel.unpack.isFinite
    cases a.toModel.unpack <;> rfl
  denote_zero := rfl
  denote_neg := denote_neg
  denote_add a b := roundsTo_add (fits a) (fits b)
  denote_sub a b := roundsTo_sub (fits a) (fits b)
  denote_mul a b := roundsTo_mul (fits a) (fits b)

end CoefficientTightening.Binary64
