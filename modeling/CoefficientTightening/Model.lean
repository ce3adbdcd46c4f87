import CoefficientTightening.Sparse.Given
import CoefficientTightening.VarKind

/-! Mixed-integer models as a solver's model file holds them, and as they are handed back to a
solver. Both forms list variables and constraints by name; a term names its column by position. -/
namespace CoefficientTightening

structure Variable (α : Type) where
  name : String
  lower : α
  upper : α
  kind : VarKind
  objective : α

structure Constraint (α : Type) where
  name : String
  /-- Column and coefficient, in any order, columns possibly repeated. -/
  terms : List (Int × α)
  sense : String
  bound : α

structure Model (α : Type) where
  vars : List (Variable α)
  constraints : List (Constraint α)
  /-- `1` minimizes, `-1` maximizes. -/
  direction : Int
  constant : α

/-- What a row compares with: at most, at least, or equal to its right-hand side. -/
inductive Sense where
  | atMost | atLeast | equal
  deriving DecidableEq, Repr

namespace Sense

def ofSymbol? (symbol : String) : Option Sense :=
  if symbol = "<" then some atMost else if symbol = ">" then some atLeast
  else if symbol = "=" then some equal else none

def symbol : Sense → String
  | atMost => "<"
  | atLeast => ">"
  | equal => "="

def letter : Sense → String
  | atMost => "L"
  | atLeast => "G"
  | equal => "E"

theorem ofSymbol?_symbol (s : Sense) : ofSymbol? s.symbol = some s := by
  cases s <;> rfl

end Sense

/-- A model as it is built for a solver. -/
structure BuiltModel (α : Type) where
  /-- Name, lower bound, upper bound and kind. -/
  vars : List (String × α × α × VarKind)
  /-- Name, sense, right-hand side, and terms as coefficient and column. -/
  constraints : List (String × Sense × α × List (α × Nat))
  objective : List (α × Nat)
  constant : α
  direction : Int

end CoefficientTightening
