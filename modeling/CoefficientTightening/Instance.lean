import CoefficientTightening.Rounds
import CoefficientTightening.Model

/-! A model read into rows and columns, presolved in place, and built again. Reading turns bounds
of at least `unbounded` in size into infinite ones; building turns infinite bounds back. Presolving
copies the coefficients of all rows and the right-hand sides of the inequalities back, and leaves
everything else as it was read. -/
namespace CoefficientTightening

structure InstanceColumn (α : Type) where
  name : String
  range : Interval α
  kind : VarKind
  objective : α
  deriving DecidableEq

structure InstanceRow (α : Type) where
  name : String
  sense : Sense
  bound : α
  deriving DecidableEq

structure Instance (α : Type) (m n : Nat) where
  columns : Vector (InstanceColumn α) n
  rows : Vector (InstanceRow α) m
  matrix : Sparse.Rows α m n
  direction : Int
  constant : α
  deriving DecidableEq

/-- Why a model cannot be read. -/
inductive Unreadable where
  | sense (symbol : String)
  | matrix (fault : Sparse.Fault)
  deriving DecidableEq, Repr

def Unreadable.message : Unreadable → String
  | sense symbol => Text.quoted symbol
  | matrix fault => fault.message

variable {α : Type} [Scalar α]

namespace Variable

/-- The bounds of a variable, where a huge one means that there is none. -/
def range (v : Variable α) : Interval α where
  lower := if v.lower ≤ -Scalar.unbounded then -Scalar.infinity else v.lower
  upper := if Scalar.unbounded ≤ v.upper then Scalar.infinity else v.upper

end Variable

namespace Constraint

def row (c : Constraint α) : Except Unreadable (InstanceRow α) :=
  match Sense.ofSymbol? c.sense with
  | some sense => .ok ⟨c.name, sense, c.bound⟩
  | none => .error (.sense c.sense)

end Constraint

/-- The rows of all constraints, or the first bad sense. -/
def readRows : List (Constraint α) → Except Unreadable (List (InstanceRow α))
  | [] => .ok []
  | c :: rest =>
    match c.row with
    | .error e => .error e
    | .ok row => (readRows rest).map (row :: ·)

omit [Scalar α] in
theorem length_readRows {constraints : List (Constraint α)} {rows : List (InstanceRow α)}
    (h : readRows constraints = .ok rows) : rows.length = constraints.length := by
  induction constraints generalizing rows with
  | nil => cases h; rfl
  | cons c rest ih =>
    simp only [readRows] at h
    split at h
    · cases h
    · cases hr : readRows rest with
      | error e => rw [hr] at h; cases h
      | ok tail => rw [hr] at h; cases h; simp [ih hr]

namespace Model

/-- Number of rows and of columns. -/
abbrev height (model : Model α) : Nat := model.constraints.length

abbrev width (model : Model α) : Nat := model.vars.length

/-- All terms, constraint after constraint. -/
def entries (model : Model α) : List (Int × Int × α) :=
  model.constraints.zipIdx.flatMap fun c => c.1.terms.map fun t => ((c.2 : Int), t.1, t.2)

/-- The terms of each row sorted by column, repeated columns summed. -/
def matrix (model : Model α) : Sparse.Rows α model.height model.width :=
  (Sparse.groupRows (model.entries.filterMap fun e =>
    Sparse.entry? model.height model.width e.1 e.2.1 e.2.2)).canonical

def checkTerms (model : Model α) : Except Sparse.Fault Unit := do
  let columns := model.entries.map (·.2.1)
  Sparse.checkWords columns
  Sparse.checkAxis .column model.width columns

/-- Read a model; a bad column is reported before a bad sense. -/
def toInstance (model : Model α) : Except Unreadable (Instance α model.height model.width) :=
  match model.checkTerms with
  | .error fault => .error (.matrix fault)
  | .ok () =>
    match h : readRows model.constraints with
    | .error e => .error e
    | .ok rows => .ok
      { columns := ⟨(model.vars.map fun v =>
          InstanceColumn.mk v.name v.range v.kind v.objective).toArray, by simp [width]⟩
        rows := ⟨rows.toArray, by simp [height, length_readRows h]⟩
        matrix := model.matrix
        direction := model.direction
        constant := model.constant }

end Model

/-- Sizes of an instance. -/
structure Statistics where
  constraints : Int
  nonzeros : Int
  vars : Int
  binary : Int
  integer : Int
  continuous : Int
  deriving DecidableEq, Repr

namespace InstanceRow

/-- The range that a row's sense and right-hand side describe. -/
def range (r : InstanceRow α) : Interval α :=
  match r.sense with
  | .atMost => ⟨-Scalar.infinity, r.bound⟩
  | .atLeast => ⟨r.bound, Scalar.infinity⟩
  | .equal => ⟨r.bound, r.bound⟩

/-- The right-hand side that a tightened range leaves; an equation keeps its own. -/
def withRange (r : InstanceRow α) (range : Interval α) : InstanceRow α :=
  match r.sense with
  | .atMost => { r with bound := range.upper }
  | .atLeast => { r with bound := range.lower }
  | .equal => r

end InstanceRow

namespace Instance

variable {m n : Nat}

def countKind (inst : Instance α m n) (kind : VarKind) : Nat :=
  inst.columns.toList.countP fun c => c.kind == kind

def statistics (inst : Instance α m n) : Statistics where
  constraints := m
  nonzeros := inst.matrix.nonzeros
  vars := n
  binary := inst.countKind .binary
  integer := inst.countKind .integer
  continuous := inst.countKind .continuous

def rowRanges (inst : Instance α m n) : Vector (Interval α) m :=
  inst.rows.map InstanceRow.range

/-- The formulation to presolve. It needs every kind of variable to be known. -/
def toFormulation (inst : Instance α m n) : Except Malformed (Formulation α m n) := do
  let kinds ← kindLine n (inst.columns.toList.map (·.kind))
  return Formulation.ofRanges (.ofRows inst.matrix.canonical) inst.rowRanges
    (inst.columns.map (·.range)) kinds (Vector.replicate n true)

/-- Take over the coefficients and the right-hand sides of a presolved formulation. -/
def adopt (inst : Instance α m n) (p : Formulation α m n) : Instance α m n :=
  { inst with
    matrix := p.matrix.toRows
    rows := .zipWith (fun row state => row.withRange state.range) inst.rows p.rows }

/-- Why presolving an instance stopped. -/
inductive Failure (α : Type) where
  | malformed (cause : Malformed)
  | inconsistent (cause : Inconsistency α)

/-- The outcome of presolving. On a failure the instance is the one that was given. -/
structure Presolved (α : Type) (m n : Nat) where
  inst : Instance α m n
  schedule : Schedule Unit α
  events : List (Event α)
  failure : Option (Failure α)

/-- Tighten coefficients for at most `maxRounds` rounds. -/
def presolve (inst : Instance α m n) (maxRounds : Int) (validates : Bool) : Presolved α m n :=
  let schedule := Schedule.new maxRounds validates [()]
  match inst.toFormulation with
  | .error cause => ⟨inst, schedule, [], some (.malformed cause)⟩
  | .ok p =>
    let run := schedule.run tighteningOnly none p
    match run.failure with
    | some cause => ⟨inst, run.schedule, run.events, some (.inconsistent cause)⟩
    | none => ⟨inst.adopt run.data, run.schedule, run.events, none⟩

/-- A bound as a solver takes it: an infinite one, of either sign, becomes the huge one of its
side. -/
def solverBound (side : Side) (bound : α) : α :=
  if Scalar.isInfinite bound then
    match side with
    | .lower => -Scalar.unbounded
    | .upper => Scalar.unbounded
  else bound

/-- The model handed to a solver. Coefficients that are zero are left out of the constraints; the
objective has one term for each variable. -/
def build (inst : Instance α m n) : BuiltModel α where
  vars := inst.columns.toList.map fun c =>
    (c.name, solverBound .lower c.range.lower, solverBound .upper c.range.upper, c.kind)
  constraints := (List.finRange m).map fun i =>
    ((inst.rows.get i).name, (inst.rows.get i).sense, (inst.rows.get i).bound,
      ((inst.matrix.get i).filter fun t => !(t.2 == 0)).map fun t => (t.2, (t.1 : Nat)))
  objective := inst.columns.toList.zipIdx.map fun c => (c.1.objective, c.2)
  constant := 0 + inst.constant
  direction := inst.direction

end Instance

end CoefficientTightening
