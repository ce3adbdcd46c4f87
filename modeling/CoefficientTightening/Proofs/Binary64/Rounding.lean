import CoefficientTightening.Proofs.Binary64.Packing

/-! Rounding of an exact magnitude. The exponent is raised until 53 bits of the mantissa are left, or
as far as the least exponent; the mantissa is then the whole number below or above the exact one, and
the exact one itself if that is whole. A number with at least this exponent is a multiple of the last
place, and one with a smaller exponent is smaller altogether, so no number lies strictly between the
exact magnitude and the rounded one. Which of its two neighbours a magnitude goes to does not matter
for that. -/
namespace CoefficientTightening.Binary64

open Float.Model (UnpackedFloat)
open Float.Model.UnpackedFloat (Sign ExtendedMantissa)

/-! ### Shifting a mantissa -/

section Shift

/-- The mantissa that a number gets when its exponent is raised by `k`. -/
def rounded (m k : ℕ) : ℕ :=
  (ExtendedMantissa.ofMantissaAndAccuracy m .exact >>> k).roundedMantissa

theorem shiftRight_succ (x : ExtendedMantissa) (k : ℕ) :
    x >>> (k + 1) = (x >>> k).shiftRightOne := rfl

theorem mantissa_shiftRight (x : ExtendedMantissa) (k : ℕ) :
    (x >>> k).mantissa = x.mantissa / 2 ^ k := by
  induction k with
  | zero => exact (Nat.div_one _).symm
  | succ k ih =>
    rw [shiftRight_succ, pow_succ, ← Nat.div_div_eq_div_mul, ← ih]
    rfl

/-- Nothing is lost when only zeros are shifted out. -/
theorem shiftRight_of_dvd {m k : ℕ} (h : 2 ^ k ∣ m) :
    ExtendedMantissa.ofMantissaAndAccuracy m .exact >>> k = ⟨m / 2 ^ k, false, false⟩ := by
  induction k with
  | zero =>
    rw [pow_zero, Nat.div_one]
    rfl
  | succ k ih =>
    obtain ⟨c, rfl⟩ := h
    have hk : 2 ^ (k + 1) * c / 2 ^ k = 2 * c := by
      rw [pow_succ, mul_assoc, Nat.mul_div_cancel_left _ (by positivity)]
    rw [shiftRight_succ, ih ⟨2 * c, by ring⟩, hk, Nat.mul_div_cancel_left _ (by positivity)]
    simp [ExtendedMantissa.shiftRightOne]

theorem roundedMantissa_bounds (x : ExtendedMantissa) :
    x.mantissa ≤ x.roundedMantissa ∧ x.roundedMantissa ≤ x.mantissa + 1 := by
  rcases x with ⟨m, round, sticky⟩
  cases round <;> cases sticky <;>
    simp only [ExtendedMantissa.roundedMantissa, ExtendedMantissa.accuracy,
      UnpackedFloat.Accuracy.roundToNearestEven] <;> omega

variable {m k n : ℕ}

theorem le_rounded (h : n * 2 ^ k ≤ m) : n ≤ rounded m k := by
  refine le_trans ?_ (roundedMantissa_bounds _).1
  rw [mantissa_shiftRight]
  exact (Nat.le_div_iff_mul_le (by positivity)).mpr h

theorem rounded_le (h : m ≤ n * 2 ^ k) : rounded m k ≤ n := by
  by_cases hdvd : 2 ^ k ∣ m
  · rw [rounded, shiftRight_of_dvd hdvd]
    exact Nat.div_le_of_le_mul (by rwa [mul_comm])
  · have hlt : m < n * 2 ^ k := lt_of_le_of_ne h fun heq => hdvd ⟨n, by rw [heq, mul_comm]⟩
    refine (roundedMantissa_bounds _).2.trans ?_
    rw [mantissa_shiftRight]
    exact (Nat.div_lt_iff_lt_mul (by positivity)).mpr hlt

end Shift

/-! ### Rounding a magnitude -/

/-- No number lies strictly between the exact magnitude and the rounded one. -/
structure IsFaithful (exact rounded : ℚ) : Prop where
  not_below : ∀ {n : ℕ} {f : ℤ}, IsCanonical n f → n * 2 ^ f ≤ exact → n * 2 ^ f ≤ rounded
  not_above : ∀ {n : ℕ} {f : ℤ}, IsCanonical n f → exact ≤ n * 2 ^ f → rounded ≤ n * 2 ^ f

section Magnitude

variable {m k : ℕ} {e : ℤ}

theorem scaled_le_iff (n m k : ℕ) (e : ℤ) :
    (n : ℚ) * 2 ^ (e + k) ≤ m * 2 ^ e ↔ n * 2 ^ k ≤ m := by
  rw [zpow_add₀ (by norm_num), zpow_natCast, mul_comm ((2 : ℚ) ^ e), ← mul_assoc,
    mul_le_mul_iff_left₀ (two_zpow_pos e)]
  exact_mod_cast Iff.rfl

theorem le_scaled_iff (n m k : ℕ) (e : ℤ) :
    (m : ℚ) * 2 ^ e ≤ n * 2 ^ (e + k) ↔ m ≤ n * 2 ^ k := by
  rw [zpow_add₀ (by norm_num), zpow_natCast, mul_comm ((2 : ℚ) ^ e), ← mul_assoc,
    mul_le_mul_iff_left₀ (two_zpow_pos e)]
  exact_mod_cast Iff.rfl

theorem scaled_le_scaled (t : ℤ) {n m : ℕ} (h : n ≤ m) : (n : ℚ) * 2 ^ t ≤ m * 2 ^ t :=
  mul_le_mul_of_nonneg_right (by exact_mod_cast h) (two_zpow_pos t).le

/-- A number whose exponent is at least `t` is a whole multiple of `2 ^ t`. -/
theorem exists_scaled_eq (n : ℕ) {f t : ℤ} (h : t ≤ f) :
    ∃ N : ℕ, (n : ℚ) * 2 ^ f = N * 2 ^ t := by
  obtain ⟨d, rfl⟩ := Int.le.dest h
  refine ⟨n * 2 ^ d, ?_⟩
  rw [zpow_add₀ (by norm_num), zpow_natCast]
  push_cast
  ring

/-- Raising the exponent is faithful if 53 bits are left or the exponent becomes the least one. -/
theorem isFaithful_rounded (h : 2 ^ 52 * 2 ^ k ≤ m ∨ e + k = -1074) :
    IsFaithful (m * 2 ^ e) (rounded m k * 2 ^ (e + k)) where
  not_below {n f} hn hle := by
    by_cases hf : e + k ≤ f
    · -- the number is a whole multiple of the last place that is left
      obtain ⟨N, hN⟩ := exists_scaled_eq n hf
      rw [hN] at hle ⊢
      exact scaled_le_scaled _ (le_rounded ((scaled_le_iff N m k e).mp hle))
    · -- the number has a smaller exponent, and the magnitude has 53 bits
      have hbits : 2 ^ 52 * 2 ^ k ≤ m := h.resolve_right fun heq => hf (heq ▸ hn.le)
      refine (hn.scaled_lt (lt_of_not_ge hf)).le.trans ?_
      exact_mod_cast scaled_le_scaled (e + k) (le_rounded hbits)
  not_above {n f} hn hle := by
    by_cases hf : e + k ≤ f
    · obtain ⟨N, hN⟩ := exists_scaled_eq n hf
      rw [hN] at hle ⊢
      exact scaled_le_scaled _ (rounded_le ((le_scaled_iff N m k e).mp hle))
    · have hbits : 2 ^ 52 * 2 ^ k ≤ m := h.resolve_right fun heq => hf (heq ▸ hn.le)
      have hlt := hn.scaled_lt (lt_of_not_ge hf)
      have hle' := (scaled_le_iff (2 ^ 52) m k e).mpr hbits
      push_cast at hle'
      exact absurd hle (not_le.mpr (hlt.trans_le hle'))

theorem targetExponent_eq (m : ℕ) (e : ℤ) :
    format.targetExponent (Float.Model.totalExponent m e) = max (m.log2 + e - 52) (-1074) := by
  have htotal : Float.Model.totalExponent m e = m.log2 + e + 1 := by
    simp only [Float.Model.totalExponent]
    omega
  rw [htotal, Float.Model.Format.targetExponent, show m.log2 + e - 52 = m.log2 + e + 1 - 53 by ring]
  rfl

theorem shiftToTargetExponent_eq (hk : (max (m.log2 + e - 52) (-1074) - e).toNat = k) :
    UnpackedFloat.shiftToTargetExponent format m e .exact =
      (ExtendedMantissa.ofMantissaAndAccuracy m .exact >>> k, e + k) := by
  rw [UnpackedFloat.shiftToTargetExponent, targetExponent_eq, ← hk]
  rfl

/-- A finite number, or a zero where nothing is left of the mantissa. -/
def ofParts (s : Sign) (m : ℕ) (e : ℤ) : UnpackedFloat :=
  if h : m = 0 then .zero s else .finite s m e (Nat.pos_of_ne_zero h)

theorem rounded_le_carry (ht : max (m.log2 + e - 52) (-1074) = e + k) : rounded m k ≤ 2 ^ 53 := by
  refine rounded_le ?_
  rw [← pow_add]
  exact (Nat.lt_log2_self.trans_le (Nat.pow_le_pow_right (by norm_num) (by omega))).le

/-- The second shift only carries: it is none unless all 53 bits have been rounded up. -/
theorem roundWithAccuracy_eq (s : Sign) (ht : max (m.log2 + e - 52) (-1074) = e + k) :
    UnpackedFloat.roundWithAccuracy format s m e .exact =
      if rounded m k < 2 ^ 53 then ofParts s (rounded m k) (e + k)
      else ofParts s (2 ^ 52) (e + k + 1) := by
  have hcarry : (match UnpackedFloat.shiftToTargetExponent format (rounded m k) (e + k) .exact with
      | (x, f) => ofParts s x.mantissa f) =
        if rounded m k < 2 ^ 53 then ofParts s (rounded m k) (e + k)
        else ofParts s (2 ^ 52) (e + k + 1) := by
    split_ifs with hlt
    · have hlog : (rounded m k).log2 < 53 := by
        rcases eq_or_ne (rounded m k) 0 with hzero | hzero
        · rw [hzero]
          decide
        · exact (Nat.log2_lt hzero).mpr hlt
      rw [shiftToTargetExponent_eq (k := 0) (by omega), Nat.cast_zero, add_zero]
      rfl
    · obtain heq : rounded m k = 2 ^ 53 := le_antisymm (rounded_le_carry ht) (not_lt.mp hlt)
      rw [heq, shiftToTargetExponent_eq (k := 1) (by rw [Nat.log2_two_pow]; omega)]
      rfl
  rw [UnpackedFloat.roundWithAccuracy, shiftToTargetExponent_eq (k := k) (by omega)]
  exact hcarry

/-- A shift that keeps 53 bits, or reaches the least exponent, leaves a canonical number. -/
theorem exists_roundWithAccuracy_eq (s : Sign) (hm : 0 < m) (h : 52 ≤ m.log2 ∨ e ≤ -1074) :
    ∃ n f, IsCanonical n f ∧ IsFaithful (m * 2 ^ e) (n * 2 ^ f) ∧
      UnpackedFloat.roundWithAccuracy format s m e .exact = ofParts s n f := by
  obtain ⟨k, hk⟩ := Int.le.dest (show e ≤ max (m.log2 + e - 52) (-1074) by omega)
  have hbits : 2 ^ 52 * 2 ^ k ≤ m ∨ e + k = -1074 := by
    refine or_iff_not_imp_right.mpr fun hleast => ?_
    rw [← pow_add, show 52 + k = m.log2 by omega]
    exact Nat.log2_self_le hm.ne'
  have hfaithful := isFaithful_rounded hbits
  rw [roundWithAccuracy_eq s hk.symm]
  split_ifs with hlt
  · exact ⟨_, _, ⟨hlt, by omega, hbits.imp_left le_rounded⟩, hfaithful, rfl⟩
  · obtain heq : rounded m k = 2 ^ 53 := le_antisymm (rounded_le_carry hk.symm) (not_lt.mp hlt)
    refine ⟨2 ^ 52, e + k + 1, ⟨by norm_num, by omega, .inl le_rfl⟩, ?_, rfl⟩
    rw [heq] at hfaithful
    convert hfaithful using 1
    rw [zpow_add_one₀ (by norm_num)]
    push_cast
    ring

theorem log2_shiftLeft (hm : 0 < m) (d : ℕ) : (m <<< d).log2 = m.log2 + d := by
  rw [Nat.shiftLeft_eq, Nat.log2_eq_iff (by positivity)]
  constructor
  · rw [pow_add]
    exact Nat.mul_le_mul_right _ (Nat.log2_self_le hm.ne')
  · rw [add_right_comm, pow_add]
    exact Nat.mul_lt_mul_of_pos_right Nat.lt_log2_self (by positivity)

/-- The exponent is lowered first where the mantissa has fewer than 53 bits. -/
theorem exists_round_eq (s : Sign) (hm : 0 < m) (e : ℤ) :
    ∃ n f, IsCanonical n f ∧ IsFaithful (m * 2 ^ e) (n * 2 ^ f) ∧
      UnpackedFloat.round format s m e = ofParts s n f := by
  have hround : UnpackedFloat.round format s m e =
      let d := (e - max (m.log2 + e - 52) (-1074)).toNat
      UnpackedFloat.roundWithAccuracy format s (m <<< d) (e - d) .exact := by
    rw [UnpackedFloat.round, targetExponent_eq]
    rfl
  generalize hd : (e - max (m.log2 + e - 52) (-1074)).toNat = d at hround
  have hvalue : ((m <<< d : ℕ) : ℚ) * 2 ^ (e - d) = m * 2 ^ e := by
    rw [Nat.shiftLeft_eq, zpow_sub₀ (by norm_num), zpow_natCast]
    push_cast
    field_simp
  have hlog := log2_shiftLeft hm d
  obtain ⟨n, f, hcanonical, hfaithful, heq⟩ := exists_roundWithAccuracy_eq s
    (m := m <<< d) (e := e - d) (by rw [Nat.shiftLeft_eq]; positivity) (by omega)
  exact ⟨n, f, hcanonical, hvalue ▸ hfaithful, hround.trans heq⟩

end Magnitude

end CoefficientTightening.Binary64
