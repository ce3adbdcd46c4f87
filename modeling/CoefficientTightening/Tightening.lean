import CoefficientTightening.RowActivity
import CoefficientTightening.Event
import CoefficientTightening.Formulation
import CoefficientTightening.Reduction
import CoefficientTightening.Shrink

/-! One pass of coefficient tightening over a formulation. A row takes part when exactly one of its
sides is finite and one of its stored columns is integral. Its entries are visited in order; the
activity of the row and its bound are carried along and corrected after every change instead of
being computed again. Rows are visited in order too, each on the formulation that the rows before
it left. -/
namespace CoefficientTightening

/-- One accepted change: the coefficient at a position of a row, and the bound on the row's finite
side, both before and after. -/
structure Tightening (α : Type) (m n : Nat) where
  row : Fin m
  side : Side
  /-- Place of the coefficient among the stored entries of its row. -/
  position : Nat
  column : Fin n
  old : α
  new : α
  oldBound : α
  newBound : α

variable {α : Type} [Scalar α] {m n : Nat}

namespace Tightening

/-- The changes of one row from its entry `position` on, given the current bound of the row and
the current activity of all its entries. -/
def walk (columns : Vector (Column α) n) (row : Fin m) (side : Side) :
    (position : Nat) → (bound total : α) → List (Sparse.Cell α n) → List (Tightening α m n)
  | _, _, _, [] => []
  | position, bound, total, cell :: rest =>
    let column := columns.get cell.column
    let coef := cell.value
    if column.isCandidate && !(coef == 0) then
      let extreme := column.range.bound (side.facing coef)
      let (newCoef, newBound) := shrink side coef bound column.range (total - coef * extreme)
      if newCoef == coef then walk columns row side (position + 1) bound total rest
      else
        { row, side, position, column := cell.column
          old := coef, new := newCoef, oldBound := bound, newBound } ::
          walk columns row side (position + 1) newBound (total - (coef - newCoef) * extreme) rest
    else walk columns row side (position + 1) bound total rest

/-- The coefficient's record, followed by one for the bound if the bound moved. -/
def reductions (t : Tightening α m n) : List (Reduction α) :=
  (if t.new == 0 then .zeroCoefficient t.row t.column t.old
    else .tightenCoefficient t.row t.column t.old t.new) ::
  (if t.newBound == t.oldBound then [] else [.tightenRowBound t.row t.side t.oldBound t.newBound])

def event (t : Tightening α m n) : Event α :=
  .coefficientChanged t.row t.column t.old t.new t.newBound

end Tightening

namespace Formulation

/-- Coefficients of a row with the ranges of their columns. -/
def rowTerms (p : Formulation α m n) (i : Fin m) : List (α × Interval α) :=
  (p.matrix.rows.get i).toList.map fun c => (c.value, (p.columns.get c.column).range)

def rowActivity (p : Formulation α m n) (i : Fin m) (side : Side) : α :=
  activity side (p.rowTerms i)

/-- The changes that tightening makes in one row. -/
def rowTightenings (p : Formulation α m n) (i : Fin m) : List (Tightening α m n) :=
  let range := (p.rows.get i).range
  let cells := (p.matrix.rows.get i).toList
  match range.onlySide? with
  | none => []
  | some side =>
    if cells.any fun c => p.columnIsIntegral c.column then
      Tightening.walk p.columns i side 0 (range.bound side) (p.rowActivity i side) cells
    else []

/-- Carry out one change: write both storages, move the bound, and count one nonzero less in row
and column if the coefficient became zero. -/
def commit (p : Formulation α m n) (t : Tightening α m n) : Formulation α m n :=
  let p := { p with matrix := p.matrix.write t.row t.position t.new }
  let p := p.setRow t.row fun r => { r with range := r.range.setBound t.newBound t.side }
  if t.new == 0 then
    (p.setRow t.row fun r => { r with nonzeros := r.nonzeros - 1 }).setColumn t.column
      fun c => { c with nonzeros := c.nonzeros - 1 }
  else p

def tightenRows (p : Formulation α m n) : List (Fin m) → Formulation α m n × List (Tightening α m n)
  | [] => (p, [])
  | i :: rest =>
    let here := p.rowTightenings i
    let (q, later) := (here.foldl commit p).tightenRows rest
    (q, here ++ later)

def tightenings (p : Formulation α m n) : List (Tightening α m n) :=
  (p.tightenRows (List.finRange m)).2

/-- The formulation after one pass. -/
def tighten (p : Formulation α m n) : Formulation α m n :=
  (p.tightenRows (List.finRange m)).1

end Formulation

/-- What a presolver leaves when it succeeds: the data, the reductions it made, and its events. -/
structure Pass (α D : Type) where
  data : D
  reductions : List (Reduction α)
  events : List (Event α)

def tighteningName : String := "CoefficientStrengthening"

/-- One pass with its records. The number of changed coefficients is reported if there are any. -/
def Formulation.tighteningPass (p : Formulation α m n) : Pass α (Formulation α m n) :=
  let (q, ts) := p.tightenRows (List.finRange m)
  { data := q
    reductions := ts.flatMap Tightening.reductions
    events := ts.map Tightening.event ++
      if ts.isEmpty then [] else [.passFinished tighteningName ts.length] }

end CoefficientTightening
