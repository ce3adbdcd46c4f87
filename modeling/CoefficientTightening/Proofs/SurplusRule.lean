import CoefficientTightening.Proofs.ExactArithmetic
import CoefficientTightening.Shrink
import Mathlib.Algebra.Order.Ring.Abs
import Mathlib.Tactic.Linarith
import Mathlib.Tactic.Ring

/-! The tightening rule in terms of the surplus of a row, the amount by which its most extreme
activity oversteps its bound. With the activity of the other columns taken as the row's activity
less the term of the column itself, the excess that the rule computes is the size of the
coefficient less the surplus. So the rule cuts the coefficient down to the surplus in size, and
moves the bound by the cut times the column bound in use, which leaves the surplus as it was. -/
namespace CoefficientTightening

open Extended (finite infinite nan)

section Definitions

variable {α : Type} [Scalar α]

/-- How far an activity oversteps a bound on the given side. -/
def surplus (side : Side) (bound total : α) : α :=
  match side with
  | .upper => total - bound
  | .lower => bound - total

/-- A coefficient cut down to a threshold in size; it keeps its sign. -/
def clip (threshold coef : α) : α :=
  if 0 < coef then (if threshold < coef then threshold else coef)
  else if coef < 0 then (if threshold < -coef then -threshold else coef)
  else coef

end Definitions

/-- Cutting a rational down to a threshold that is not negative. -/
def clamp (s a : ℚ) : ℚ := max (-s) (min a s)

section Clamp

variable {s a : ℚ}

theorem clamp_of_abs_le (h : |a| ≤ s) : clamp s a = a := by
  obtain ⟨h₁, h₂⟩ := abs_le.mp h
  rw [clamp, min_eq_left h₂, max_eq_right h₁]

theorem clamp_of_lt_of_pos (hs : 0 ≤ s) (h : s < a) : clamp s a = s := by
  rw [clamp, min_eq_right h.le, max_eq_right (by linarith)]

theorem clamp_of_lt_neg (hs : 0 ≤ s) (h : s < -a) : clamp s a = -s := by
  rw [clamp, min_eq_left (by linarith), max_eq_left (by linarith)]

theorem clip_finite (hs : 0 ≤ s) (a : ℚ) : clip (finite s) (finite a) = finite (clamp s a) := by
  simp only [clip, Extended.zero_eq, Extended.finite_lt, Extended.neg_finite]
  split_ifs with hpos hcut hneg hcut
  · rw [clamp_of_lt_of_pos hs hcut]
  · rw [clamp_of_abs_le (by rw [abs_of_pos hpos]; linarith)]
  · rw [clamp_of_lt_neg hs hcut]
  · rw [clamp_of_abs_le (by rw [abs_of_neg hneg]; linarith)]
  · rw [clamp_of_abs_le (by rw [le_antisymm (not_lt.mp hpos) (not_lt.mp hneg)]; simpa using hs)]

theorem abs_clamp (hs : 0 ≤ s) (a : ℚ) : |clamp s a| = min |a| s := by
  rcases le_or_gt |a| s with h | h
  · rw [clamp_of_abs_le h, min_eq_left h]
  · rw [min_eq_right h.le]
    rcases lt_abs.mp h with h | h
    · rw [clamp_of_lt_of_pos hs h, abs_of_nonneg hs]
    · rw [clamp_of_lt_neg hs h, abs_neg, abs_of_nonneg hs]

theorem clamp_clamp (hs : 0 ≤ s) (a : ℚ) : clamp s (clamp s a) = clamp s a := by
  apply clamp_of_abs_le
  rw [abs_clamp hs]
  exact min_le_right _ _

end Clamp

/-! ### Orientation -/

namespace Side

/-- The direction in which a side is extreme. -/
def orientation : Side → ℚ
  | lower => -1
  | upper => 1

theorem orientation_mul_self (side : Side) : side.orientation * side.orientation = 1 := by
  cases side <;> norm_num [orientation]

theorem abs_orientation (side : Side) : |side.orientation| = 1 := by
  cases side <;> norm_num [orientation]

/-- A value that does not point away from a side is its own size there. -/
theorem orientation_mul_eq_abs (side : Side) {q : ℚ} (h : 0 ≤ side.orientation * q) :
    side.orientation * q = |q| := by
  rw [← abs_of_nonneg h, abs_mul, side.abs_orientation, one_mul]

variable {a : ℚ}

theorem facing_of_pos (side : Side) (h : 0 < a) : side.facing (finite a) = side := by
  simp [facing, h]

theorem facing_of_neg (side : Side) (h : a < 0) : side.facing (finite a) = side.opposite := by
  simp [facing, h.le]

/-- A cut keeps the sign, as long as anything is left. -/
theorem facing_clamp {s : ℚ} (side : Side) (hs : 0 ≤ s) (h : clamp s a ≠ 0) :
    side.facing (finite (clamp s a)) = side.facing (finite a) := by
  rcases le_or_gt |a| s with hle | hlt
  · rw [clamp_of_abs_le hle]
  · rcases lt_abs.mp hlt with hpos | hneg
    · rw [clamp_of_lt_of_pos hs hpos] at h ⊢
      rw [facing_of_pos side (lt_of_le_of_ne hs h.symm), facing_of_pos side (by linarith)]
    · rw [clamp_of_lt_neg hs hneg] at h ⊢
      have hs' : s ≠ 0 := fun hz => h (by rw [hz, neg_zero])
      rw [facing_of_neg side (neg_lt_zero.mpr (lt_of_le_of_ne hs hs'.symm)),
        facing_of_neg side (by linarith)]

/-- A term grows towards the side that its coefficient faces. -/
theorem mul_orientation_facing (side : Side) (ha : a ≠ 0) :
    a * (side.facing (finite a)).orientation = side.orientation * |a| := by
  rcases lt_or_gt_of_ne ha with h | h
  · rw [facing_of_neg side h, abs_of_neg h]
    cases side <;> simp [opposite, orientation]
  · rw [facing_of_pos side h, abs_of_pos h]
    ring

end Side

theorem surplus_finite (side : Side) (b T : ℚ) :
    surplus side (finite b) (finite T) = finite (side.orientation * (T - b)) := by
  cases side <;> simp [surplus, Side.orientation]

theorem excess_finite (side : Side) (a b next others : ℚ) :
    excess side (finite a) (finite b) (finite next) (finite others) =
      finite (side.orientation * (b - others - a * next)) := by
  cases side
  · simp only [excess, Side.orientation, Extended.neg_finite, Extended.finite_add,
      Extended.finite_mul]
    ring_nf
  · simp [excess, Side.orientation]

theorem inward_finite {range : Interval Extended} {side : Side} {t : ℚ}
    (h : range.bound side = finite t) : range.inward side = finite (t - side.orientation) := by
  cases side <;> simp_all [Interval.bound, Interval.inward, Side.orientation]

/-! ### The rule where everything is finite -/

section Finite

variable {side : Side} {a b T t s : ℚ} {range : Interval Extended}

/-- At the column bound in use, the excess is the size of the coefficient less the surplus. -/
theorem excess_eq (ha : a ≠ 0) (ht : range.bound (side.facing (finite a)) = finite t)
    (hs : surplus side (finite b) (finite T) = finite s) :
    excess side (finite a) (finite b) (range.inward (side.facing (finite a)))
      (finite T - finite a * finite t) = finite (|a| - s) := by
  rw [surplus_finite, Extended.finite.injEq] at hs
  have hface := side.mul_orientation_facing ha
  have hunit := side.orientation_mul_self
  rw [inward_finite ht, Extended.finite_mul, Extended.finite_sub, excess_finite,
    Extended.finite.injEq]
  calc side.orientation * (b - (T - a * t) - a * (t - (side.facing (finite a)).orientation))
      = side.orientation * (a * (side.facing (finite a)).orientation) -
          side.orientation * (T - b) := by ring
    _ = side.orientation * side.orientation * |a| - s := by rw [hface, hs]; ring
    _ = |a| - s := by rw [hunit, one_mul]

/-- The rule on finite numbers, given its excess. -/
theorem shrink_finite {d : ℚ} {others : Extended}
    (ht : range.bound (side.facing (finite a)) = finite t)
    (hd : excess side (finite a) (finite b) (range.inward (side.facing (finite a))) others =
      finite d) :
    shrink side (finite a) (finite b) range others =
      if 0 < a then if d ≤ a ∧ 0 < d then (finite (a - d), finite (b - d * t))
        else (finite a, finite b)
      else if a < 0 then if d ≤ -a ∧ 0 < d then (finite (a + d), finite (b + d * t))
        else (finite a, finite b)
      else (finite a, finite b) := by
  simp only [shrink, hd, ht, Extended.zero_eq, Extended.finite_lt, Extended.neg_finite,
    Extended.finite_le, Extended.finite_sub, Extended.finite_add, Extended.finite_mul]

/-- A surplus that is not negative: the coefficient is cut down to it in size. -/
theorem shrink_of_nonneg (ha : a ≠ 0) (ht : range.bound (side.facing (finite a)) = finite t)
    (hs : surplus side (finite b) (finite T) = finite s) (h0 : 0 ≤ s) :
    shrink side (finite a) (finite b) range (finite T - finite a * finite t) =
      (finite (clamp s a), finite (b - (a - clamp s a) * t)) := by
  rw [shrink_finite ht (excess_eq ha ht hs)]
  rcases lt_or_gt_of_ne ha with hneg | hpos
  · rw [if_neg hneg.not_gt, if_pos hneg, abs_of_neg hneg]
    split_ifs with hguard
    · rw [clamp_of_lt_neg h0 (by linarith)]
      rw [Prod.mk.injEq, Extended.finite.injEq, Extended.finite.injEq]
      constructor <;> ring
    · have hle : -a ≤ s := by
        by_contra hlt
        exact hguard ⟨by linarith, by linarith⟩
      rw [clamp_of_abs_le (by rwa [abs_of_neg hneg]), sub_self, zero_mul, sub_zero]
  · rw [if_pos hpos, abs_of_pos hpos]
    split_ifs with hguard
    · rw [clamp_of_lt_of_pos h0 (by linarith)]
      rw [Prod.mk.injEq, Extended.finite.injEq, Extended.finite.injEq]
      constructor <;> ring
    · have hle : a ≤ s := by
        by_contra hlt
        exact hguard ⟨by linarith, by linarith⟩
      rw [clamp_of_abs_le (by rwa [abs_of_pos hpos]), sub_self, zero_mul, sub_zero]

/-- A negative surplus: the row cannot be violated, and nothing is cut. -/
theorem shrink_of_neg (ha : a ≠ 0) (ht : range.bound (side.facing (finite a)) = finite t)
    (hs : surplus side (finite b) (finite T) = finite s) (h0 : s < 0) :
    shrink side (finite a) (finite b) range (finite T - finite a * finite t) =
      (finite a, finite b) := by
  rw [shrink_finite ht (excess_eq ha ht hs)]
  split_ifs with hpos hguard hneg hguard
  · rw [abs_of_pos hpos] at hguard
    linarith [hguard.1]
  · rfl
  · rw [abs_of_neg hneg] at hguard
    linarith [hguard.1]
  · rfl
  · rfl

/-- The cut leaves the surplus as it was. -/
theorem surplus_step (hs : surplus side (finite b) (finite T) = finite s) (d : ℚ) :
    surplus side (finite (b - d)) (finite (T - d)) = finite s := by
  rw [surplus_finite] at hs ⊢
  rw [← hs]
  ring_nf

end Finite

/-! ### The rule at special values -/

section Special

variable {side : Side} {coef bound : Extended} {range : Interval Extended}

theorem shrink_nan (side : Side) (coef bound : Extended) (range : Interval Extended) :
    shrink side coef bound range nan = (coef, bound) := by
  have hd : ∀ next, excess side coef bound next nan = nan := by
    intro next
    cases side <;> simp [excess, Extended.sub_eq]
  simp only [shrink, hd, Extended.not_lt_nan, and_false, if_false, ite_self]

/-- Comparisons alone reject an excess that is not finite. -/
theorem shrink_of_excess {a : ℚ} {others : Extended}
    (hd : Scalar.isFinite (excess side (finite a) bound (range.inward (side.facing (finite a)))
      others) = false) :
    shrink side (finite a) bound range others = (finite a, bound) := by
  have hguard : ∀ q : ℚ, ¬ (excess side (finite a) bound
      (range.inward (side.facing (finite a))) others ≤ finite q ∧
      0 < excess side (finite a) bound (range.inward (side.facing (finite a))) others) := by
    intro q ⟨hle, hlt⟩
    generalize excess side (finite a) bound (range.inward (side.facing (finite a))) others = d
      at hd hle hlt
    rcases d with r | s | _
    · cases hd
    · cases s
      · cases hle
      · cases hlt
    · cases hlt
  simp only [shrink, Extended.neg_finite, hguard, if_false, ite_self]

/-- A finite excess comes from a finite bound and a finite activity of the other columns. -/
theorem finite_of_excess {next others : Extended} {d : ℚ}
    (h : excess side coef bound next others = finite d) :
    (∃ b, bound = finite b) ∧ ∃ q, others = finite q := by
  cases side
  · obtain ⟨⟨e, he⟩, -⟩ := Extended.finite_of_add h
    obtain ⟨⟨b, hb⟩, hothers⟩ := Extended.finite_of_add he
    exact ⟨⟨-b, by rw [← Extended.neg_finite, ← hb, Extended.neg_neg]⟩, hothers⟩
  · obtain ⟨⟨e, he⟩, -⟩ := Extended.finite_of_sub h
    exact Extended.finite_of_sub he

/-- Without a finite surplus that is not negative the rule changes nothing. A term that is not
finite cannot be taken off the activity, which leaves a NaN for the other columns. -/
theorem shrink_eq_self {total : Extended} (hnan : coef ≠ nan) (hzero : coef ≠ finite 0)
    (hterm : Scalar.isFinite (coef * range.bound (side.facing coef)) = false →
      total - coef * range.bound (side.facing coef) = nan)
    (hs : ∀ s, surplus side bound total = finite s → s < 0) :
    shrink side coef bound range (total - coef * range.bound (side.facing coef)) =
      (coef, bound) := by
  cases hfin : Scalar.isFinite (coef * range.bound (side.facing coef)) with
  | false => rw [hterm hfin, shrink_nan]
  | true =>
    obtain ⟨q, hq⟩ := Extended.isFinite_iff.mp hfin
    obtain ⟨⟨a, rfl⟩, t, ht⟩ := Extended.finite_of_mul hq
    have ha : a ≠ 0 := fun h => hzero (by rw [h])
    rw [ht]
    cases hd : Scalar.isFinite (excess side (finite a) bound
        (range.inward (side.facing (finite a))) (total - finite a * finite t)) with
    | false => exact shrink_of_excess hd
    | true =>
      obtain ⟨d, hd⟩ := Extended.isFinite_iff.mp hd
      obtain ⟨⟨b, rfl⟩, o, ho⟩ := finite_of_excess hd
      obtain ⟨⟨T, rfl⟩, -⟩ := Extended.finite_of_sub ho
      exact shrink_of_neg ha ht (surplus_finite side b T) (hs _ (surplus_finite side b T))

end Special

end CoefficientTightening
