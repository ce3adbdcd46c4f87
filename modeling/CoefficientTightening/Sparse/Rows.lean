import CoefficientTightening.Access
import CoefficientTightening.Sparse.Given

/-! Row-major matrices in canonical form. Each row holds its entries by increasing column, a
repeated position once with the sum of its values; a sum of zero stays stored. Sorting is stable
and sums run from left to right, so with rounded addition the result depends on the given order
within one position only. -/
namespace CoefficientTightening.Sparse

/-- The entries of each row, as pairs of column and value. -/
abbrev Rows (α : Type) (m n : Nat) := Vector (List (Fin n × α)) m

variable {α : Type} {m n : Nat}

/-- Put an entry before the first one whose column is not smaller. -/
def insertByColumn (t : Fin n × α) : List (Fin n × α) → List (Fin n × α)
  | [] => [t]
  | s :: rest => if t.1 ≤ s.1 then t :: s :: rest else s :: insertByColumn t rest

def sortByColumn (row : List (Fin n × α)) : List (Fin n × α) :=
  row.foldr insertByColumn []

/-- Sum neighbours of one column, starting from `value` at `column`. -/
def sumFrom [Scalar α] (column : Fin n) (value : α) : List (Fin n × α) → List (Fin n × α)
  | [] => [(column, value)]
  | (j, v) :: rest =>
    if j = column then sumFrom column (value + v) rest else (column, value) :: sumFrom j v rest

def sumRepeated [Scalar α] : List (Fin n × α) → List (Fin n × α)
  | [] => []
  | (j, v) :: rest => sumFrom j v rest

def canonicalRow [Scalar α] (row : List (Fin n × α)) : List (Fin n × α) :=
  sumRepeated (sortByColumn row)

/-- Distribute entries over the rows, keeping their order within each row. -/
def groupRows (entries : List (Entry α m n)) : Rows α m n :=
  entries.foldr (fun e rows => modifyAt rows e.row ((e.column, e.value) :: ·))
    (Vector.replicate m [])

def Rows.canonical [Scalar α] (rows : Rows α m n) : Rows α m n :=
  rows.map canonicalRow

/-- Number of stored entries. -/
def Rows.stored (rows : Rows α m n) : Nat :=
  rows.toList.flatten.length

/-- Number of entries whose value is not zero. -/
def Rows.nonzeros [Scalar α] (rows : Rows α m n) : Nat :=
  rows.toList.flatten.countP fun t => !(t.2 == 0)

theorem get_groupRows (entries : List (Entry α m n)) (i : Fin m) :
    (groupRows entries).get i =
      (entries.filter fun e => e.row = i).map fun e => (e.column, e.value) := by
  induction entries with
  | nil => simp [groupRows]
  | cons e rest ih =>
    simp only [groupRows, List.foldr_cons, get_modifyAt] at ih ⊢
    by_cases h : e.row = i
    · subst h; simp [ih]
    · simp [h, ih]

/-- The compressed form of row-major entries. -/
structure Compressed (α : Type) (n : Nat) where
  pointers : List Nat
  indices : List (Fin n)
  values : Array α

/-- Running totals, starting with `total`. -/
def runningTotals (total : Nat) : List Nat → List Nat
  | [] => [total]
  | k :: rest => total :: runningTotals (total + k) rest

def Rows.compress (rows : Rows α m n) : Compressed α n where
  pointers := runningTotals 0 (rows.toList.map List.length)
  indices := rows.toList.flatten.map (·.1)
  values := (rows.toList.flatten.map (·.2)).toArray

/-- Write one value of a compressed copy. -/
def Compressed.write? (c : Compressed α n) (k : Int) (value : α) :
    Except OutOfRange (Compressed α n) := do
  let k ← axisIndex c.values.size k
  return { c with values := c.values.set k value }

end CoefficientTightening.Sparse
