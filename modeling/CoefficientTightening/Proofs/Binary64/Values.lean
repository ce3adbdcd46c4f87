import CoefficientTightening.Proofs.ExactArithmetic
import Mathlib

/-! Doubles as exact values. A double that is finite and not zero is a whole mantissa times a power of
two. Its mantissa has 53 bits, or fewer where the exponent is the least one, so that of two doubles of
one sign the one with the larger exponent is the larger one, and comparing exponents and then
mantissas compares the values. -/
namespace CoefficientTightening.Binary64

open Extended (finite infinite nan)
open Float.Model (UnpackedFloat)
open Float.Model.UnpackedFloat (Sign)

abbrev format : Float.Model.Format := Float.Model.Format.binary64

/-- The exact value of an unpacked double; both zeros have the same one. -/
def value : UnpackedFloat → Extended
  | .notANumber => nan
  | .infinity s => infinite (s == .negative)
  | .zero _ => finite 0
  | .finite s m e _ => finite (s.apply m * 2 ^ e)

/-- Mantissas and exponents as they stand for a number, of any size. -/
structure IsCanonical (m : ℕ) (e : ℤ) : Prop where
  lt : m < 2 ^ 53
  le : -1074 ≤ e
  normal : 2 ^ 52 ≤ m ∨ e = -1074

/-- A number with a canonical mantissa and an exponent that is not too large. -/
def Fits : UnpackedFloat → Prop
  | .finite _ m e _ => IsCanonical m e ∧ e ≤ 971
  | _ => True

/-! ### Order -/

section Order

variable {m m₁ m₂ : ℕ} {e e₁ e₂ : ℤ}

theorem two_zpow_pos (e : ℤ) : (0 : ℚ) < 2 ^ e := zpow_pos (by norm_num) e

theorem scaled_pos (hm : 0 < m) (e : ℤ) : (0 : ℚ) < m * 2 ^ e :=
  mul_pos (by exact_mod_cast hm) (two_zpow_pos e)

/-- Mantissas of 53 bits reach less than twice as far as the least one of the next exponent. -/
theorem IsCanonical.scaled_lt (h : IsCanonical m e) {t : ℤ} (ht : e < t) :
    (m : ℚ) * 2 ^ e < 2 ^ 52 * 2 ^ t :=
  calc (m : ℚ) * 2 ^ e < 2 ^ 53 * 2 ^ e :=
        mul_lt_mul_of_pos_right (by exact_mod_cast h.lt) (two_zpow_pos e)
    _ = 2 ^ 52 * 2 ^ (e + 1) := by rw [zpow_add_one₀ (by norm_num)]; ring
    _ ≤ 2 ^ 52 * 2 ^ t :=
        mul_le_mul_of_nonneg_left (zpow_le_zpow_right₀ (by norm_num) (by omega)) (by norm_num)

theorem IsCanonical.lt_of_exponent_lt (h₁ : IsCanonical m₁ e₁) (h₂ : IsCanonical m₂ e₂)
    (he : e₁ < e₂) : (m₁ : ℚ) * 2 ^ e₁ < m₂ * 2 ^ e₂ := by
  have hnormal : 2 ^ 52 ≤ m₂ := h₂.normal.resolve_right fun h => by
    have := h₁.le
    omega
  refine (h₁.scaled_lt he).trans_le (mul_le_mul_of_nonneg_right ?_ (two_zpow_pos e₂).le)
  exact_mod_cast hnormal

/-- Exponents first, then mantissas. -/
theorem IsCanonical.compare_eq (h₁ : IsCanonical m₁ e₁) (h₂ : IsCanonical m₂ e₂) :
    (compare e₁ e₂).then (compare m₁ m₂) = compare ((m₁ : ℚ) * 2 ^ e₁) (m₂ * 2 ^ e₂) := by
  rcases lt_trichotomy e₁ e₂ with he | rfl | he
  · rw [compare_lt_iff_lt.mpr he, compare_lt_iff_lt.mpr (h₁.lt_of_exponent_lt h₂ he)]
    rfl
  · rw [compare_eq_iff_eq.mpr rfl, Ordering.eq_then]
    rcases lt_trichotomy m₁ m₂ with hm | rfl | hm
    · rw [compare_lt_iff_lt.mpr hm, compare_lt_iff_lt.mpr]
      exact mul_lt_mul_of_pos_right (by exact_mod_cast hm) (two_zpow_pos e₁)
    · rw [compare_eq_iff_eq.mpr rfl, compare_eq_iff_eq.mpr rfl]
    · rw [compare_gt_iff_gt.mpr hm, compare_gt_iff_gt.mpr]
      exact mul_lt_mul_of_pos_right (by exact_mod_cast hm) (two_zpow_pos e₁)
  · rw [compare_gt_iff_gt.mpr he, compare_gt_iff_gt.mpr (h₂.lt_of_exponent_lt h₁ he)]
    rfl

/-- How two exact values compare; a NaN compares with nothing. -/
def compare? : Extended → Extended → Option Ordering
  | finite p, finite q => some (compare p q)
  | infinite s, infinite t => some (compare t s)
  | infinite s, finite _ => some (if s then .lt else .gt)
  | finite _, infinite s => some (if s then .gt else .lt)
  | _, _ => none

theorem compare?_eq_lt_iff {a b : Extended} : compare? a b = some .lt ↔ a < b := by
  show _ ↔ Extended.lt a b = true
  rcases a with p | s | _ <;> rcases b with q | t | _ <;>
    (try cases s) <;> (try cases t) <;> simp [compare?, Extended.lt, compare_lt_iff_lt]

theorem compare?_eq_eq_iff {a b : Extended} : compare? a b = some .eq ↔ (a == b) = true := by
  show _ ↔ Extended.eqv a b = true
  rcases a with p | s | _ <;> rcases b with q | t | _ <;>
    (try cases s) <;> (try cases t) <;> simp [compare?, Extended.eqv]

theorem any_isLE_compare?_iff {a b : Extended} :
    (compare? a b).any (·.isLE) = true ↔ a ≤ b := by
  show _ ↔ (Extended.lt a b || Extended.eqv a b) = true
  rw [Bool.or_eq_true, ← show _ ↔ Extended.lt a b = true from compare?_eq_lt_iff,
    ← show _ ↔ Extended.eqv a b = true from compare?_eq_eq_iff]
  cases compare? a b with
  | none => simp
  | some o => cases o <;> simp

theorem compare_neg (p q : ℚ) : compare (-p) (-q) = (compare p q).swap := by
  rcases lt_trichotomy p q with h | rfl | h
  · rw [compare_lt_iff_lt.mpr h, compare_gt_iff_gt.mpr (neg_lt_neg h)]
    rfl
  · rw [compare_eq_iff_eq.mpr rfl, compare_eq_iff_eq.mpr rfl]
    rfl
  · rw [compare_gt_iff_gt.mpr h, compare_lt_iff_lt.mpr (neg_lt_neg h)]
    rfl

/-- Among finite numbers the sign comes first; negative ones are compared backwards. -/
theorem compare_finite (h₁ : IsCanonical m₁ e₁) (h₂ : IsCanonical m₂ e₂) (hm₁ : 0 < m₁)
    (hm₂ : 0 < m₂) (s t : Sign) :
    (UnpackedFloat.finite s m₁ e₁ hm₁).compare (.finite t m₂ e₂ hm₂) =
      some (compare ((s.apply m₁ : ℚ) * 2 ^ e₁) (t.apply m₂ * 2 ^ e₂)) := by
  have hpos₁ := scaled_pos hm₁ e₁
  have hpos₂ := scaled_pos hm₂ e₂
  cases s <;> cases t <;>
    simp only [UnpackedFloat.compare, Sign.apply, Int.cast_neg, Int.cast_natCast, neg_mul,
      compare_neg, h₁.compare_eq h₂]
  case negative.positive => rw [compare_lt_iff_lt.mpr (by linarith)]
  case positive.negative => rw [compare_gt_iff_gt.mpr (by linarith)]

/-- Unpacked doubles compare as their values do. -/
theorem compare_eq_compare? {u v : UnpackedFloat} (hu : Fits u) (hv : Fits v) :
    u.compare v = compare? (value u) (value v) := by
  rcases u with s | _ | s | ⟨s, m₁, e₁, hm₁⟩ <;> rcases v with t | _ | t | ⟨t, m₂, e₂, hm₂⟩
  case finite.finite => exact compare_finite hu.1 hv.1 hm₁ hm₂ s t
  case zero.finite =>
    have hpos := scaled_pos hm₂ e₂
    cases t <;> simp only [UnpackedFloat.compare, value, compare?, Sign.apply, Int.cast_neg,
      Int.cast_natCast, neg_mul]
    · rw [compare_gt_iff_gt.mpr (by linarith)]
    · rw [compare_lt_iff_lt.mpr hpos]
  case finite.zero =>
    have hpos := scaled_pos hm₁ e₁
    cases s <;> simp only [UnpackedFloat.compare, value, compare?, Sign.apply, Int.cast_neg,
      Int.cast_natCast, neg_mul]
    · rw [compare_lt_iff_lt.mpr (by linarith)]
    · rw [compare_gt_iff_gt.mpr hpos]
  case zero.zero => exact congrArg some (compare_eq_iff_eq.mpr rfl).symm
  all_goals (try cases s) <;> (try cases t) <;> rfl

end Order

end CoefficientTightening.Binary64
