import CoefficientTightening.Proofs.ExtremeValues
import CoefficientTightening.Proofs.Recomputation
import Mathlib.Order.Interval.Set.UnorderedInterval
import Mathlib.Tactic.LinearCombination

/-! The rule for one coefficient on its own, in exact arithmetic. Of the other columns nothing is known
but a bound for their activity, which need not be tight and need not come from column bounds at all. At
the column bound in use the row says the same before and after a cut. One unit further in, whatever the
others do within their bound, the row holds before and after: the excess was positive, and what is left
of the coefficient is the surplus. The bound of the row moves towards the activity of the others and not
past it, since the column bound is a whole number. -/
namespace CoefficientTightening

open Extended (finite infinite nan)

variable {side : Side} {a b act t s x y : ℚ} {range : Interval Extended}

/-- The size of the coefficient `a` exceeds the surplus `s` of a row with bound `b`, in which the column
is at its bound `t` and the others contribute `act`. -/
structure ExceedsSurplus (side : Side) (a b act t s : ℚ) : Prop where
  surplus_eq : side.orientation * (act + a * t - b) = s
  nonneg : 0 ≤ s
  exceeded : s < |a|

/-- The bound of the row after the coefficient was cut down to the surplus. -/
def movedBound (a b t s : ℚ) : ℚ := b - (a - clamp s a) * t

theorem shrink_zero (side : Side) (bound : Extended) (range : Interval Extended)
    (others : Extended) : shrink side (finite 0) bound range others = (finite 0, bound) := by
  simp [shrink]

/-- The rule with a column bound, given what the others contribute. -/
theorem shrink_at_bound (ha : a ≠ 0) (ht : range.bound (side.facing (finite a)) = finite t)
    (hs : side.orientation * (act + a * t - b) = s) :
    shrink side (finite a) (finite b) range (finite act) =
      if 0 ≤ s then (finite (clamp s a), finite (movedBound a b t s))
      else (finite a, finite b) := by
  have hact : finite act = finite (act + a * t) - finite a * finite t := by simp
  have hsurplus : surplus side (finite b) (finite (act + a * t)) = finite s := by
    rw [surplus_finite, hs]
  rw [hact]
  split_ifs with h0
  · exact shrink_of_nonneg ha ht hsurplus h0
  · exact shrink_of_neg ha ht hsurplus (not_le.mp h0)

/-- The rule changes nothing if no surplus is exceeded, and otherwise cuts the coefficient down to the
surplus. -/
theorem shrink_eq_self_or_cut (side : Side) (a b act : ℚ) (range : Interval Extended) :
    (shrink side (finite a) (finite b) range (finite act) = (finite a, finite b) ∧
      ∀ t s, range.bound (side.facing (finite a)) = finite t → ¬ ExceedsSurplus side a b act t s) ∨
    ∃ t s, range.bound (side.facing (finite a)) = finite t ∧ ExceedsSurplus side a b act t s ∧
      shrink side (finite a) (finite b) range (finite act) =
        (finite (clamp s a), finite (movedBound a b t s)) := by
  by_cases ha : a = 0
  · subst ha
    refine .inl ⟨shrink_zero _ _ _ _, fun t s _ h => ?_⟩
    exact absurd h.exceeded (by rw [abs_zero]; exact h.nonneg.not_gt)
  cases hfin : Scalar.isFinite (range.bound (side.facing (finite a))) with
  | false =>
    refine .inl ⟨shrink_of_special_bound hfin, fun t s ht _ => ?_⟩
    rw [ht] at hfin
    cases hfin
  | true =>
    obtain ⟨t, ht⟩ := Extended.isFinite_iff.mp hfin
    obtain ⟨s, hs⟩ : ∃ s, side.orientation * (act + a * t - b) = s := ⟨_, rfl⟩
    have hrule := shrink_at_bound ha ht hs
    by_cases hexceeds : ExceedsSurplus side a b act t s
    · exact .inr ⟨t, s, ht, hexceeds, by rw [hrule, if_pos hexceeds.nonneg]⟩
    · refine .inl ⟨?_, fun t' s' ht' h => ?_⟩
      · rw [hrule]
        split_ifs with h0
        · have hle : |a| ≤ s := not_lt.mp fun hlt => hexceeds ⟨hs, h0, hlt⟩
          rw [movedBound, clamp_of_abs_le hle, sub_self, zero_mul, sub_zero]
        · rfl
      · obtain rfl : t = t' := Extended.finite.inj (ht.symm.trans ht')
        obtain rfl : s = s' := hs.symm.trans h.surplus_eq
        exact hexceeds h

/-! ### A row with a surplus -/

section Surplus

variable {face : Side} {k : ℚ}

/-- A term of size `k` takes off the surplus what its column is away from the bound that it faces. -/
theorem orientation_mul_value_sub (hk : a * face.orientation = side.orientation * k)
    (hs : side.orientation * (act + a * t - b) = s) (hgap : face.orientation * (t - x) = |x - t|) :
    side.orientation * (a * x + y - b) = s + side.orientation * (y - act) - k * |x - t| := by
  have hface := face.orientation_mul_self
  have hside := side.orientation_mul_self
  linear_combination hs + side.orientation * a * (t - x) * hface -
    side.orientation * face.orientation * (t - x) * hk -
    side.orientation * side.orientation * k * hgap - k * |x - t| * hside

theorem bound_sub_eq (hk : a * face.orientation = side.orientation * k)
    (hs : side.orientation * (act + a * t - b) = s) :
    b - act = side.orientation * (k * (face.orientation * t) - s) := by
  have hface := face.orientation_mul_self
  have hside := side.orientation_mul_self
  linear_combination -side.orientation * hs + (act + a * t - b) * hside - a * t * hface +
    face.orientation * t * hk

end Surplus

namespace ExceedsSurplus

/-! ### The cut coefficient -/

theorem abs_clamp (h : ExceedsSurplus side a b act t s) : |clamp s a| = s := by
  rw [CoefficientTightening.abs_clamp h.nonneg, min_eq_right h.exceeded.le]

theorem ne_zero (h : ExceedsSurplus side a b act t s) : a ≠ 0 := by
  rintro rfl
  exact absurd h.exceeded (by rw [abs_zero]; exact h.nonneg.not_gt)

theorem clamp_mem_uIcc (h : ExceedsSurplus side a b act t s) : clamp s a ∈ Set.uIcc 0 a := by
  rw [Set.mem_uIcc]
  rcases lt_abs.mp h.exceeded with hpos | hneg
  · rw [clamp_of_lt_of_pos h.nonneg hpos]
    exact .inl ⟨h.nonneg, hpos.le⟩
  · rw [clamp_of_lt_neg h.nonneg hneg]
    exact .inr ⟨by linarith, neg_nonpos.mpr h.nonneg⟩

/-- What is left of the coefficient points the way the coefficient did. -/
theorem clamp_mul_orientation (h : ExceedsSurplus side a b act t s) :
    clamp s a * (side.facing (finite a)).orientation = side.orientation * s := by
  by_cases hz : clamp s a = 0
  · have hs : s = 0 := by rw [← h.abs_clamp, hz, abs_zero]
    rw [hz, hs, zero_mul, mul_zero]
  · rw [← side.facing_clamp h.nonneg hz, side.mul_orientation_facing hz, h.abs_clamp]

/-- The bound of the row moves by what the term loses at the column bound. -/
theorem surplus_after (h : ExceedsSurplus side a b act t s) :
    side.orientation * (act + clamp s a * t - movedBound a b t s) = s := by
  rw [← h.surplus_eq, movedBound]
  ring

/-! ### Points -/

/-- A whole point is at the column bound, where the row says the same before and after, or at least one
unit away, where it holds before and after. -/
theorem holds_iff (h : ExceedsSurplus side a b act t s)
    (ht : range.bound (side.facing (finite a)) = finite t) (htw : IsWhole t) (hxw : IsWhole x)
    (hx : range.Contains (finite x)) (hy : side.Bounds act y) :
    side.Bounds b (a * x + y) ↔ side.Bounds (movedBound a b t s) (clamp s a * x + y) := by
  have hgap := hx.orientation_mul_sub ht
  rw [Side.bounds_iff] at hy ⊢
  rw [Side.bounds_iff,
    orientation_mul_value_sub (side.mul_orientation_facing h.ne_zero) h.surplus_eq hgap,
    orientation_mul_value_sub h.clamp_mul_orientation h.surplus_after hgap]
  by_cases hat : x = t
  · rw [hat, sub_self, abs_zero, mul_zero, mul_zero]
  · have hunit : 1 ≤ |x - t| := not_lt.mp fun hlt => hat (hxw.eq_of_abs_sub_lt htw hlt)
    have hafter : s ≤ s * |x - t| := le_mul_of_one_le_right h.nonneg hunit
    have hbefore : s * |x - t| ≤ |a| * |x - t| :=
      mul_le_mul_of_nonneg_right h.exceeded.le (abs_nonneg _)
    exact iff_of_true (by linarith) (by linarith)

/-! ### The moved bound -/

/-- A whole column bound is at zero or on its far side, or at least one unit out; the bound of the row
then comes closer to the activity of the others from one side. -/
theorem movedBound_mem_uIcc (h : ExceedsSurplus side a b act t s) (htw : IsWhole t) :
    movedBound a b t s ∈ Set.uIcc b act := by
  have hbefore := bound_sub_eq (side.mul_orientation_facing h.ne_zero) h.surplus_eq
  have hafter := bound_sub_eq h.clamp_mul_orientation h.surplus_after
  have hcases := ((isWhole_orientation (side.facing (finite a))).mul htw).nonpos_or_one_le
  generalize (side.facing (finite a)).orientation * t = r at hbefore hafter hcases
  rw [Set.mem_uIcc]
  rcases hcases with hr | hr
  · have hle : |a| * r ≤ s * r := mul_le_mul_of_nonpos_right h.exceeded.le hr
    have hneg : s * r ≤ 0 := mul_nonpos_of_nonneg_of_nonpos h.nonneg hr
    have hs := h.nonneg
    cases side <;> simp only [Side.orientation] at hbefore hafter
    · exact .inr ⟨by linarith, by linarith⟩
    · exact .inl ⟨by linarith, by linarith⟩
  · have hle : s * r ≤ |a| * r := mul_le_mul_of_nonneg_right h.exceeded.le (by linarith)
    have hpos : s ≤ s * r := le_mul_of_one_le_right h.nonneg hr
    cases side <;> simp only [Side.orientation] at hbefore hafter
    · exact .inl ⟨by linarith, by linarith⟩
    · exact .inr ⟨by linarith, by linarith⟩

/-! ### The rule again -/

/-- The surplus is the same after the cut, and what is left of the coefficient does not exceed it. -/
theorem shrink_again (h : ExceedsSurplus side a b act t s)
    (ht : range.bound (side.facing (finite a)) = finite t) :
    shrink side (finite (clamp s a)) (finite (movedBound a b t s)) range (finite act) =
      (finite (clamp s a), finite (movedBound a b t s)) := by
  by_cases hz : clamp s a = 0
  · rw [hz, shrink_zero]
  · have ht' : range.bound (side.facing (finite (clamp s a))) = finite t := by
      rw [side.facing_clamp h.nonneg hz, ht]
    rw [shrink_at_bound hz ht' h.surplus_after, if_pos h.nonneg, movedBound, clamp_clamp h.nonneg,
      sub_self, zero_mul, sub_zero]

end ExceedsSurplus

/-- The rule for a column whose bounds are whole numbers or infinite, with any bound `act` for what the
other columns contribute. It returns rationals, with which the row holds at the same whole points of
the range as before. The coefficient comes closer to zero and keeps its sign; if it changes, the bound
of the row comes to lie between what it was and `act`. A second application changes nothing. And the
rule leaves no coefficient larger than what the row oversteps its bound by at the column bound in use,
if it reaches it there at all. -/
theorem shrink_keeps_points (side : Side) (a b act : ℚ) {range : Interval Extended}
    (hwhole : ∀ side, (range.bound side).IsWholeOrInfinite) :
    ∃ a' b', shrink side (finite a) (finite b) range (finite act) = (finite a', finite b') ∧
      (∀ (x : ℤ) (y : ℚ), range.Contains (finite x) → side.Bounds act y →
        (side.Bounds b (a * x + y) ↔ side.Bounds b' (a' * x + y))) ∧
      a' ∈ Set.uIcc 0 a ∧ (a' ≠ a → b' ∈ Set.uIcc b act) ∧
      shrink side (finite a') (finite b') range (finite act) = (finite a', finite b') ∧
      ∀ t, range.bound (side.facing (finite a)) = finite t → side.Bounds (act + a * t) b →
        |a'| ≤ |act + a * t - b| := by
  rcases shrink_eq_self_or_cut side a b act range with ⟨hself, hno⟩ | ⟨t, s, ht, hcut, hrule⟩
  · refine ⟨a, b, hself, fun _ _ _ _ => Iff.rfl, Set.right_mem_uIcc, fun h => absurd rfl h, hself,
      fun t ht hreach => not_lt.mp fun hlt => ?_⟩
    rw [Side.bounds_iff] at hreach
    exact hno t _ ht ⟨side.orientation_mul_eq_abs (by linarith), abs_nonneg _, hlt⟩
  · have htw : IsWhole t := by
      have hbound := hwhole (side.facing (finite a))
      rwa [ht] at hbound
    refine ⟨clamp s a, movedBound a b t s, hrule, fun x y hx hy => ?_, hcut.clamp_mem_uIcc,
      fun _ => hcut.movedBound_mem_uIcc htw, hcut.shrink_again ht, fun t' ht' _ => ?_⟩
    · exact hcut.holds_iff ht htw ⟨x, rfl⟩ hx hy
    · obtain rfl : t = t' := Extended.finite.inj (ht.symm.trans ht')
      have hs := hcut.surplus_eq
      rw [hcut.abs_clamp, ← side.orientation_mul_eq_abs (hcut.nonneg.trans_eq hs.symm), hs]

/-- `-3 x + y ≥ -5` with `x` whole and at most 1, and `y` at least `-3`: the row becomes
`-x + y ≥ -3`. -/
theorem halfOpen_shrink :
    shrink .lower (finite (-3)) (finite (-5)) ⟨infinite true, finite 1⟩ (finite (-3)) =
        (finite (-1), finite (-3)) ∧
      (Side.lower.Bounds (-5 : ℚ) (-3 * (1 : ℤ) + -2) ↔
        Side.lower.Bounds (-3 : ℚ) (-1 * (1 : ℤ) + -2)) := by
  have hrule : shrink .lower (finite (-3)) (finite (-5)) ⟨infinite true, finite 1⟩ (finite (-3)) =
      (finite (-1), finite (-3)) := by decide +kernel
  have hwhole : ∀ side,
      ((⟨infinite true, finite 1⟩ : Interval Extended).bound side).IsWholeOrInfinite := by
    intro side
    cases side
    · trivial
    · exact ⟨1, rfl⟩
  obtain ⟨a', b', hshrink, hpoints, -⟩ := shrink_keeps_points .lower (-3) (-5) (-3) hwhole
  obtain ⟨ha, hb⟩ := Prod.mk.inj (hrule.symm.trans hshrink)
  obtain rfl : -1 = a' := Extended.finite.inj ha
  obtain rfl : -3 = b' := Extended.finite.inj hb
  refine ⟨hrule, hpoints 1 (-2) (by decide +kernel) ?_⟩
  rw [Side.bounds_iff]
  norm_num [Side.orientation]

end CoefficientTightening
