import CoefficientTightening.Scalar

/-! Two-sided bounds and their sides. A row or a column is bounded below and above, either side
possibly infinite; a row rule works on one side of the row and looks at that side of each column
which makes the row's terms most extreme. -/
namespace CoefficientTightening

inductive Side where
  | lower | upper
  deriving DecidableEq, Repr

namespace Side

def opposite : Side → Side
  | lower => upper
  | upper => lower

variable {α : Type} [Scalar α]

/-- The side of a column at which its term `coef · x` is largest (for `upper`) or smallest
(for `lower`). A coefficient that is not positive takes the opposite side. -/
def facing (side : Side) (coef : α) : Side :=
  if 0 < coef then side else side.opposite

theorem opposite_opposite (side : Side) : side.opposite.opposite = side := by
  cases side <;> rfl

end Side

structure Interval (α : Type) where
  lower : α
  upper : α
  deriving DecidableEq, Repr

namespace Interval

variable {α : Type}

def bound (r : Interval α) : Side → α
  | .lower => r.lower
  | .upper => r.upper

def setBound (r : Interval α) (value : α) : Side → Interval α
  | .lower => { r with lower := value }
  | .upper => { r with upper := value }

theorem bound_setBound (r : Interval α) (value : α) (side : Side) :
    (r.setBound value side).bound side = value := by
  cases side <;> rfl

theorem bound_setBound_opposite (r : Interval α) (value : α) (side : Side) :
    (r.setBound value side).bound side.opposite = r.bound side.opposite := by
  cases side <;> rfl

theorem setBound_bound (r : Interval α) (side : Side) : r.setBound (r.bound side) side = r := by
  cases side <;> rfl

theorem setBound_setBound (r : Interval α) (value value' : α) (side : Side) :
    (r.setBound value side).setBound value' side = r.setBound value' side := by
  cases side <;> rfl

variable [Scalar α]

/-- One unit inside the bound: for an integral column with an integral bound, the next value
after it. -/
def inward (r : Interval α) : Side → α
  | .lower => r.lower + 1
  | .upper => r.upper - 1

def isFiniteAt (r : Interval α) (side : Side) : Bool :=
  Scalar.isFinite (r.bound side)

/-- Both sides are finite. -/
def isRanged (r : Interval α) : Bool :=
  r.isFiniteAt .lower && r.isFiniteAt .upper

/-- No side is finite. -/
def isFree (r : Interval α) : Bool :=
  !(r.isFiniteAt .lower || r.isFiniteAt .upper)

/-- The finite side of a row that is bounded on one side only. -/
def onlySide? (r : Interval α) : Option Side :=
  if r.isRanged || r.isFree then none
  else if r.isFiniteAt .upper then some .upper else some .lower

end Interval

end CoefficientTightening
