import CoefficientTightening.Formulation

/-! Reading and writing single parts of a formulation by whole-number indices. A bad index is reported
and changes nothing. The kind of a column is written without a check of its tag. -/
namespace CoefficientTightening.Formulation

variable {α : Type} {m n : Nat}

def setRow? (p : Formulation α m n) (i : Int) (f : Row α → Row α) :
    Except OutOfRange (Formulation α m n) := do
  return p.setRow (← axisIndex m i) f

def setColumn? (p : Formulation α m n) (j : Int) (f : Column α → Column α) :
    Except OutOfRange (Formulation α m n) := do
  return p.setColumn (← axisIndex n j) f

def setRowBound? (p : Formulation α m n) (i : Int) (side : Side) (value : α) :
    Except OutOfRange (Formulation α m n) :=
  p.setRow? i fun r => { r with range := r.range.setBound value side }

def setColumnBound? (p : Formulation α m n) (j : Int) (side : Side) (value : α) :
    Except OutOfRange (Formulation α m n) :=
  p.setColumn? j fun c => { c with range := c.range.setBound value side }

def setRowNonzeros? (p : Formulation α m n) (i : Int) (count : Int) :
    Except OutOfRange (Formulation α m n) := do
  let i ← axisIndex m i
  let count ← asWord count
  return p.setRow i fun r => { r with nonzeros := count }

def setColumnNonzeros? (p : Formulation α m n) (j : Int) (count : Int) :
    Except OutOfRange (Formulation α m n) := do
  let j ← axisIndex n j
  let count ← asWord count
  return p.setColumn j fun c => { c with nonzeros := count }

def setActive? (p : Formulation α m n) (j : Int) (active : Bool) :
    Except OutOfRange (Formulation α m n) :=
  p.setColumn? j fun c => { c with active }

def setKind? (p : Formulation α m n) (j : Int) (tag : String) :
    Except OutOfRange (Formulation α m n) := do
  let j ← listPosition .assignment n j
  return p.setColumn j fun c => { c with kind := .ofTag tag }

variable [Scalar α]

def isRanged? (p : Formulation α m n) (i : Int) : Except OutOfRange Bool := do
  let i ← axisIndex m i
  return (p.rows.get i).range.isRanged

def isFree? (p : Formulation α m n) (i : Int) : Except OutOfRange Bool := do
  let i ← axisIndex m i
  return (p.rows.get i).range.isFree

def isIntegral? (p : Formulation α m n) (j : Int) : Except OutOfRange Bool := do
  let j ← listIndex n j
  return p.columnIsIntegral j

end CoefficientTightening.Formulation
