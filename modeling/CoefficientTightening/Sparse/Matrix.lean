import CoefficientTightening.Sparse.Rows

/-! A matrix in two storages. Each stored position has a cell in its row and an entry in its
column; the cell knows the slot of that entry. Positions and slots are fixed when the matrix is
built, by appending the entries row after row; afterwards only values change, and the two storages
agree as long as they are written together. Each storage can also be written on its own. -/
namespace CoefficientTightening.Sparse

structure Cell (α : Type) (n : Nat) where
  column : Fin n
  slot : Nat
  value : α
  deriving DecidableEq

structure ColumnEntry (α : Type) (m : Nat) where
  row : Fin m
  value : α
  deriving DecidableEq

structure Matrix (α : Type) (m n : Nat) where
  rows : Vector (Array (Cell α n)) m
  columns : Vector (Array (ColumnEntry α m)) n
  deriving DecidableEq

namespace Matrix

variable {α : Type} {m n : Nat}

def empty : Matrix α m n := ⟨Vector.replicate m #[], Vector.replicate n #[]⟩

/-- Store one more entry, at the end of its row and in the next free slot of its column. -/
def append (M : Matrix α m n) (i : Fin m) (j : Fin n) (value : α) : Matrix α m n :=
  let slot := (M.columns.get j).size
  { rows := modifyAt M.rows i (·.push ⟨j, slot, value⟩)
    columns := modifyAt M.columns j (·.push ⟨i, value⟩) }

def appendRow (M : Matrix α m n) (i : Fin m) (row : List (Fin n × α)) : Matrix α m n :=
  row.foldl (fun M t => M.append i t.1 t.2) M

def ofRows (rows : Rows α m n) : Matrix α m n :=
  (List.finRange m).foldl (fun M i => M.appendRow i (rows.get i)) empty

/-- The row storage alone. -/
def toRows (M : Matrix α m n) : Rows α m n :=
  M.rows.map fun row => row.toList.map fun c => (c.column, c.value)

/-- Number of stored entries. -/
def stored (M : Matrix α m n) : Nat :=
  M.toRows.stored

/-- Write the row storage alone. -/
def writeRow (M : Matrix α m n) (i : Fin m) (k : Nat) (value : α) : Matrix α m n :=
  { M with rows := modifyAt M.rows i (·.modify k fun c => { c with value }) }

/-- Write the column storage alone. -/
def writeColumn (M : Matrix α m n) (j : Fin n) (slot : Nat) (value : α) : Matrix α m n :=
  { M with columns := modifyAt M.columns j (·.modify slot fun e => { e with value }) }

/-- Write the `k`-th entry of row `i` in both storages. -/
def write (M : Matrix α m n) (i : Fin m) (k : Nat) (value : α) : Matrix α m n :=
  match (M.rows.get i)[k]? with
  | some c => (M.writeRow i k value).writeColumn c.column c.slot value
  | none => M

/-! ### Access by whole-number indices -/

/-- Position of an entry in a list of lines, each line an array. -/
def locate {β : Type} {size : Nat} (lines : Vector (Array β) size) (i k : Int) :
    Except OutOfRange (Fin size × Nat) := do
  let i ← listIndex size i
  let k ← axisIndex (lines.get i).size k
  return (i, k)

def write? (M : Matrix α m n) (i k : Int) (value : α) : Except OutOfRange (Matrix α m n) := do
  let (i, k) ← locate M.rows i k
  return M.write i k value

def row? (M : Matrix α m n) (i : Int) : Except OutOfRange (Array (Cell α n)) := do
  return M.rows.get (← listIndex m i)

def column? (M : Matrix α m n) (j : Int) : Except OutOfRange (Array (ColumnEntry α m)) := do
  return M.columns.get (← listIndex n j)

def writeRow? (M : Matrix α m n) (i k : Int) (value : α) : Except OutOfRange (Matrix α m n) := do
  let (i, k) ← locate M.rows i k
  return M.writeRow i k value

def writeColumn? (M : Matrix α m n) (j k : Int) (value : α) :
    Except OutOfRange (Matrix α m n) := do
  let (j, k) ← locate M.columns j k
  return M.writeColumn j k value

/-! ### Agreement and counts -/

variable [Scalar α]

/-- Every cell equals the column entry at its slot. A NaN equals nothing. -/
def agrees (M : Matrix α m n) : Bool :=
  M.rows.toList.all fun row => row.toList.all fun c =>
    (M.columns.get c.column)[c.slot]?.any fun e => c.value == e.value

def rowNonzeros (M : Matrix α m n) (i : Fin m) : Nat :=
  (M.rows.get i).toList.countP fun c => !(c.value == 0)

/-- Number of occurrences of each index. -/
def tally (indices : List (Fin n)) : Vector Nat n :=
  indices.foldl (fun counts j => modifyAt counts j (· + 1)) (Vector.replicate n 0)

/-- Nonzeros of each column, as the row storage has them. -/
def columnNonzeros (M : Matrix α m n) : Vector Nat n :=
  tally (M.toRows.toList.flatten.filterMap fun t => if t.2 == 0 then none else some t.1)

theorem get_foldl_tally (indices : List (Fin n)) (counts : Vector Nat n) (j : Fin n) :
    (indices.foldl (fun counts j => modifyAt counts j (· + 1)) counts).get j =
      counts.get j + indices.count j := by
  induction indices generalizing counts with
  | nil => simp
  | cons i rest ih =>
    rw [List.foldl_cons, ih]
    by_cases h : i = j
    · subst h; simp; omega
    · simp [h]

theorem get_tally (indices : List (Fin n)) (j : Fin n) :
    (tally indices).get j = indices.count j := by
  simp [tally, get_foldl_tally]

end Matrix

end CoefficientTightening.Sparse
