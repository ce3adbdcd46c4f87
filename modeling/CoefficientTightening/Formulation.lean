import CoefficientTightening.Interval
import CoefficientTightening.Sparse.Matrix
import CoefficientTightening.Text.Quoted
import CoefficientTightening.VarKind

/-! The state that presolving works on: a matrix in two storages, a range for each row and each
column, the kind of each column, a flag for the columns still active, and a count of nonzeros for
each row and column. Counts are signed words of 64 bits, so one that is lowered below the least
word becomes the greatest. The counts and the two storages are redundant; nothing keeps a caller
from writing one of them alone, and `Consistency` says when they fit. -/
namespace CoefficientTightening

structure Column (α : Type) where
  range : Interval α
  kind : VarKind
  active : Bool
  nonzeros : Int64
  deriving DecidableEq

/-- The column may be tightened: it is integral and active. -/
def Column.isCandidate {α : Type} (c : Column α) : Bool :=
  c.kind.isIntegral && c.active

structure Row (α : Type) where
  range : Interval α
  nonzeros : Int64
  deriving DecidableEq

structure Formulation (α : Type) (m n : Nat) where
  matrix : Sparse.Matrix α m n
  rows : Vector (Row α) m
  columns : Vector (Column α) n
  deriving DecidableEq

/-- Why data does not make a formulation. -/
inductive Malformed where
  | matrix (fault : Sparse.Fault)
  | shapeless (nest : Shapeless)
  /-- The array of this name has a shape other than one line of the expected length. -/
  | shape (name : String) (found : List Nat) (expected : Nat)
  | kindCount (found expected : Nat)
  | unknownKinds (tags : List String)
  deriving DecidableEq, Repr

def Malformed.message : Malformed → String
  | matrix fault => fault.message
  | shapeless nest => nest.message
  | shape name found expected =>
    s!"{name} has shape {Nested.shapeText found}, expected ({expected},)"
  | kindCount found expected => s!"var_types has length {found}, expected {expected}"
  | unknownKinds tags =>
    s!"Unknown variable types: {Text.bracketed (tags.map Text.quoted)}"

/-- A nest that is one line of the expected length. -/
def line {β : Type} (name : String) (size : Nat) (nest : Nested β) :
    Except Malformed (Vector β size) :=
  match nest.toArray with
  | .error r => .error (.shapeless r)
  | .ok a =>
    if h : a.shape = [size] then .ok ⟨a.values.toArray, by simp [a.length_values, h, shapeSize]⟩
    else .error (.shape name a.shape size)

/-- Kinds of the expected number, all of them known. -/
def kindLine (size : Nat) (kinds : List VarKind) : Except Malformed (Vector VarKind size) :=
  if h : kinds.length = size then
    match VarKind.unknownTags kinds with
    | [] => .ok ⟨kinds.toArray, by simp [h]⟩
    | unknown => .error (.unknownKinds unknown)
  else .error (.kindCount kinds.length size)

/-- Bounds, kinds and flags as they are handed over. -/
structure Attributes (α : Type) where
  columnLower : Nested α
  columnUpper : Nested α
  rowLower : Nested α
  rowUpper : Nested α
  kinds : List VarKind
  /-- Every column is active when this is left out. -/
  active : Option (Nested Bool)

namespace Formulation

variable {α : Type} {m n : Nat} [Scalar α]

/-- Both counts are taken from the row storage. -/
def ofRanges (M : Sparse.Matrix α m n) (rows : Vector (Interval α) m)
    (columns : Vector (Interval α) n) (kinds : Vector VarKind n) (active : Vector Bool n) :
    Formulation α m n :=
  let counts := M.columnNonzeros
  { matrix := M
    rows := .ofFn fun i => ⟨rows.get i, .ofNat (M.rowNonzeros i)⟩
    columns := .ofFn fun j => ⟨columns.get j, kinds.get j, active.get j, .ofNat (counts.get j)⟩ }

/-- The arrays are checked in a fixed order, and the first fault is reported. -/
def ofAttributes (M : Sparse.Matrix α m n) (given : Attributes α) :
    Except Malformed (Formulation α m n) := do
  let columnLower ← line "lcol" n given.columnLower
  let columnUpper ← line "ucol" n given.columnUpper
  let rowLower ← line "lrow" m given.rowLower
  let rowUpper ← line "urow" m given.rowUpper
  let kinds ← kindLine n given.kinds
  let active ← match given.active with
    | none => .ok (Vector.replicate n true)
    | some flags => line "colflag" n flags
  return ofRanges M (.zipWith Interval.mk rowLower rowUpper)
    (.zipWith Interval.mk columnLower columnUpper) kinds active

def columnIsIntegral (p : Formulation α m n) (j : Fin n) : Bool :=
  (p.columns.get j).kind.isIntegral

def isCandidate (p : Formulation α m n) (j : Fin n) : Bool :=
  (p.columns.get j).isCandidate

def setRow (p : Formulation α m n) (i : Fin m) (f : Row α → Row α) : Formulation α m n :=
  { p with rows := modifyAt p.rows i f }

def setColumn (p : Formulation α m n) (j : Fin n) (f : Column α → Column α) : Formulation α m n :=
  { p with columns := modifyAt p.columns j f }

end Formulation

end CoefficientTightening
