import CoefficientTightening.Decimal.Double
import CoefficientTightening.Formulation
import CoefficientTightening.Scalar.Binary64

/-! Whether the redundant parts of a formulation fit together: the two storages of the matrix agree,
the counts of nonzeros are right, and no active column has crossed bounds. The conditions are
checked in this order, and the first violation, at the smallest index, is the one reported. -/
namespace CoefficientTightening

inductive Inconsistency (α : Type) where
  | storagesDiffer
  | rowCount (row : Nat) (stored : Int) (found : Nat)
  | columnCount (column : Nat) (stored : Int) (found : Nat)
  | crossed (column : Nat) (range : Interval α)
  deriving DecidableEq, Repr

variable {α : Type} [Scalar α] {m n : Nat}

namespace Formulation

def wrongRow? (p : Formulation α m n) : Option (Inconsistency α) :=
  (List.finRange m).findSome? fun i : Fin m =>
    let found := p.matrix.rowNonzeros i
    let stored := (p.rows.get i).nonzeros
    if stored = .ofNat found then none else some (.rowCount i stored.toInt found)

def wrongColumn? (p : Formulation α m n) : Option (Inconsistency α) :=
  let counts := p.matrix.columnNonzeros
  (List.finRange n).findSome? fun j : Fin n =>
    let found := counts.get j
    let stored := (p.columns.get j).nonzeros
    if stored = .ofNat found then none else some (.columnCount j stored.toInt found)

def crossedColumn? (p : Formulation α m n) : Option (Inconsistency α) :=
  (List.finRange n).findSome? fun j : Fin n =>
    let column := (p.columns.get j)
    if column.active ∧ column.range.upper < column.range.lower then some (.crossed j column.range)
    else none

/-- The first violated condition. -/
def inconsistency? (p : Formulation α m n) : Option (Inconsistency α) :=
  if p.matrix.agrees then p.wrongRow? <|> p.wrongColumn? <|> p.crossedColumn?
  else some .storagesDiffer

end Formulation

def Inconsistency.message : Inconsistency Float → String
  | storagesDiffer => "Row-major and column-major coefficients differ"
  | rowCount row stored found => s!"nzrow[{row}] = {stored} but row has {found} nonzeros"
  | columnCount column stored found =>
    s!"nzcol[{column}] = {stored} but column has {found} nonzeros"
  | crossed column range =>
    s!"Active column {column} has lcol {Decimal.fullText range.lower} > ucol " ++
      Decimal.fullText range.upper

end CoefficientTightening
