import CoefficientTightening.Interval

/-! The tightening rule for one coefficient of a row with one finite side. Let `t` be the bound of
the column at which its term is most extreme, and `excess` the amount by which the row stays
redundant even when the column moves one unit away from `t`. If `0 < excess ≤ |coef|`, the
coefficient may shrink by `excess` and the row bound move by `excess · t`: at `t` the row says the
same as before, and everywhere else it was redundant before and after. The rule tests these
inequalities by comparisons alone, so a NaN that it meets leaves coefficient and bound as they
were. -/
namespace CoefficientTightening

variable {α : Type} [Scalar α]

/-- Room between the row bound and the activity of the other columns plus `coef · next`. -/
def excess (side : Side) (coef bound next others : α) : α :=
  match side with
  | .upper => bound - others - coef * next
  | .lower => -bound + others + coef * next

/-- New coefficient and new row bound; `others` is the activity of the row without this column. -/
def shrink (side : Side) (coef bound : α) (range : Interval α) (others : α) : α × α :=
  let extreme := side.facing coef
  let d := excess side coef bound (range.inward extreme) others
  if 0 < coef then
    if d ≤ coef ∧ 0 < d then (coef - d, bound - d * range.bound extreme) else (coef, bound)
  else if coef < 0 then
    if d ≤ -coef ∧ 0 < d then (coef + d, bound + d * range.bound extreme) else (coef, bound)
  else (coef, bound)

end CoefficientTightening
