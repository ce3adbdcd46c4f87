import CoefficientTightening.Datum
import CoefficientTightening.Interval

/-! Records of what a presolver changed. The three kinds that tightening produces are typed; a
presolver from elsewhere may report any kind with any target and value. All records are shown and
compared as kind, target and value. -/
namespace CoefficientTightening

inductive Reduction (α : Type) where
  | tightenCoefficient (row column : Nat) (old new : α)
  /-- The coefficient became zero and stays stored. -/
  | zeroCoefficient (row column : Nat) (old : α)
  | tightenRowBound (row : Nat) (side : Side) (old new : α)
  | custom (kind : String) (target value : Datum α)

def Side.letter : Side → String
  | .lower => "L"
  | .upper => "U"

namespace Reduction

variable {α : Type}

def kind : Reduction α → String
  | tightenCoefficient .. => "tighten_coefficient"
  | zeroCoefficient .. => "zero_coefficient"
  | tightenRowBound .. => "tighten_row_bound"
  | custom kind .. => kind

def target : Reduction α → Datum α
  | tightenCoefficient row column .. => .tuple [.int row, .int column]
  | zeroCoefficient row column _ => .tuple [.int row, .int column]
  | tightenRowBound row side .. => .tuple [.int row, .text side.letter]
  | custom _ target _ => target

def value [Scalar α] : Reduction α → Datum α
  | tightenCoefficient _ _ old new => .tuple [.number old, .number new]
  | zeroCoefficient _ _ old => .tuple [.number old, .number 0]
  | tightenRowBound _ _ old new => .tuple [.number old, .number new]
  | custom _ _ value => value

end Reduction

end CoefficientTightening
