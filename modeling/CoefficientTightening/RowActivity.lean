import CoefficientTightening.Interval

/-! Activity of a row: the largest and the smallest value that `∑ coef · x` takes when each
column stays within its bounds. A term whose coefficient is neither positive nor negative (zero or
NaN) adds nothing and looks at no bound. Terms are added in the order given. -/
namespace CoefficientTightening

variable {α : Type} [Scalar α]

def isSigned (coef : α) : Bool :=
  decide (0 < coef) || decide (coef < 0)

/-- Add the most extreme value of one term to a partial sum. -/
def addExtreme (side : Side) (sum coef : α) (range : Interval α) : α :=
  if isSigned coef then sum + coef * range.bound (side.facing coef) else sum

/-- Largest (`upper`) or smallest (`lower`) value of a row, given each coefficient with the range
of its column. -/
def activity (side : Side) (terms : List (α × Interval α)) : α :=
  terms.foldl (fun sum t => addExtreme side sum t.1 t.2) 0

/-- Activity with bounds that are looked up by a possibly wrong index. A bound is looked up only
where it is used, and the first failing look-up ends the sum. -/
def activityFrom {ε : Type} (side : Side) (read : Side → Int → Except ε α) :
    List (Int × α) → Except ε α :=
  go 0
where
  go (sum : α) : List (Int × α) → Except ε α
    | [] => .ok sum
    | (index, coef) :: rest =>
      if isSigned coef then
        match read (side.facing coef) index with
        | .error e => .error e
        | .ok bound => go (sum + coef * bound) rest
      else go sum rest

theorem activityFrom_go_total {ε : Type} (side : Side) (ranges : Int → Interval α) (sum : α)
    (terms : List (Int × α)) :
    activityFrom.go (ε := ε) side (fun s j => .ok ((ranges j).bound s)) sum terms =
      .ok (terms.foldl (fun sum t => addExtreme side sum t.2 (ranges t.1)) sum) := by
  induction terms generalizing sum with
  | nil => rfl
  | cons t rest ih =>
    obtain ⟨j, a⟩ := t
    by_cases h : isSigned a <;> simp [activityFrom.go, addExtreme, h, ih]

/-- When no look-up can fail, both readings of a row agree. -/
theorem activityFrom_total {ε : Type} (side : Side) (ranges : Int → Interval α)
    (terms : List (Int × α)) :
    activityFrom (ε := ε) side (fun s j => .ok ((ranges j).bound s)) terms =
      .ok (activity side (terms.map fun t => (t.2, ranges t.1))) := by
  simp [activityFrom, activity, activityFrom_go_total, List.foldl_map]

end CoefficientTightening
