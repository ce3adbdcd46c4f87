import CoefficientTightening.Access
import CoefficientTightening.DenseArray
import CoefficientTightening.Scalar

/-! Matrices as they are handed over: as an array or nested lists, as coordinates, or compressed
along one axis. All of them are read into one list of entries whose positions are in range; the
order of that list is the order in which repeated positions are later summed. -/
namespace CoefficientTightening.Sparse

inductive Axis where
  | row | column
  deriving DecidableEq, Repr

def Axis.number : Axis → Nat
  | row => 0
  | column => 1

inductive Given (α : Type) where
  /-- A grid of numbers; a single line of numbers is one row. -/
  | array (array : DenseArray α)
  /-- Numbers in nested lists, which stand for the array that they make. -/
  | dense (grid : Nested α)
  | coordinate (height width : Int) (rows columns : List Int) (values : List α)
  /-- Line `k` of the major axis holds the indices and values from `pointers[k]` to
  `pointers[k + 1]`. -/
  | compressed (major : Axis) (height width : Int) (pointers indices : List Int) (values : List α)

inductive Fault where
  | shapeless (nest : Shapeless)
  | dimensions (count : Nat)
  | negativeSize
  /-- An index is no signed word. -/
  | word
  | lengths
  | beyond (axis : Axis) (index : Int) (size : Nat)
  | negative (axis : Axis) (index : Int)
  | pointerCount (count expected : Nat)
  | pointerStart
  | pointerEnd
  | unequal
  deriving DecidableEq, Repr

def Fault.message : Fault → String
  | shapeless nest => nest.message
  | dimensions count => s!"CSR arrays don't yet support {count}D."
  | negativeSize => "'shape' elements cannot be negative"
  | word => OutOfRange.word.message
  | lengths => "all index and data arrays must have the same length"
  | beyond axis index size =>
    s!"axis {axis.number} index {index} exceeds matrix dimension {size}"
  | negative axis index => s!"negative axis {axis.number} index: {index}"
  | pointerCount count expected => s!"index pointer size {count} should be {expected}"
  | pointerStart => "index pointer should start with 0"
  | pointerEnd =>
    "Last value of index pointer should be less than the size of index and data arrays"
  | unequal => "indices and data should have the same size"

structure Entry (α : Type) (m n : Nat) where
  row : Fin m
  column : Fin n
  value : α

/-- A matrix as a list of entries, some positions possibly repeated. -/
structure Listing (α : Type) where
  height : Nat
  width : Nat
  entries : List (Entry α height width)

variable {α : Type}

/-- An entry at whole-number positions, if they are in range. -/
def entry? (m n : Nat) (i j : Int) (value : α) : Option (Entry α m n) :=
  if h : (0 ≤ i ∧ i < m) ∧ (0 ≤ j ∧ j < n) then
    some ⟨⟨i.toNat, by omega⟩, ⟨j.toNat, by omega⟩, value⟩
  else none

def checkSizes (height width : Int) : Except Fault (Nat × Nat) :=
  if 0 ≤ height ∧ 0 ≤ width then .ok (height.toNat, width.toNat) else .error .negativeSize

def checkWords (indices : List Int) : Except Fault Unit :=
  if indices.all fitsWord then .ok () else .error .word

/-- The largest index is looked at before the smallest. -/
def checkAxis (axis : Axis) (size : Nat) (indices : List Int) : Except Fault Unit :=
  match indices.max?, indices.min? with
  | some high, some low =>
    if (size : Int) ≤ high then .error (.beyond axis high size)
    else if low < 0 then .error (.negative axis low)
    else .ok ()
  | _, _ => .ok ()

/-- Height and width of the matrix that an array of this shape is read as. -/
def matrixSize : (shape : List Nat) → Except Fault (Nat × Nat)
  | [] => .ok (1, 1)
  | [width] => .ok (1, width)
  | [height, width] => .ok (height, width)
  | shape => .error (.dimensions shape.length)

/-- The entries of rows that follow one another, without those equal to zero. -/
def denseEntries [Scalar α] (m n : Nat) (values : List α) : List (Entry α m n) :=
  (values.zipIdx.filter fun v => !(v.1 == 0)).filterMap fun v =>
    entry? m n ((v.2 / n : Nat) : Int) ((v.2 % n : Nat) : Int) v.1

def arrayListing [Scalar α] (a : DenseArray α) : Except Fault (Listing α) := do
  let (height, width) ← matrixSize a.shape
  return ⟨height, width, denseEntries height width a.values⟩

def coordinateListing (height width : Nat) (positions : List (Int × Int)) (values : List α) :
    Except Fault (Listing α) := do
  checkAxis .row height (positions.map (·.1))
  checkAxis .column width (positions.map (·.2))
  return ⟨height, width,
    (positions.zip values).filterMap fun p => entry? height width p.1.1 p.1.2 p.2⟩

/-- The number of the line to which each index belongs. -/
def lineOfIndices (line : Nat) : List Int → List Nat
  | first :: next :: rest =>
    List.replicate (next - first).toNat line ++ lineOfIndices (line + 1) (next :: rest)
  | _ => []

/-- The entries between the pointers, if there is one pointer more than lines. -/
def compressedListing (major : Axis) (height width : Nat) (pointers indices : List Int)
    (values : List α) : Except Fault (Listing α) :=
  let lines := match major with
    | .row => height
    | .column => width
  if pointers.length ≠ lines + 1 then .error (.pointerCount pointers.length (lines + 1))
  else if pointers.head? ≠ some 0 then .error .pointerStart
  else if indices.length ≠ values.length then .error .unequal
  else if (values.length : Int) < pointers.getLastD 0 then .error .pointerEnd
  else
    let owners := (lineOfIndices 0 pointers).map Int.ofNat
    let positions := match major with
      | .row => owners.zip indices
      | .column => indices.zip owners
    coordinateListing height width positions values

def Given.listing [Scalar α] : Given α → Except Fault (Listing α)
  | array a => arrayListing a
  | dense grid => do arrayListing (← grid.toArray.mapError .shapeless)
  | coordinate height width rows columns values => do
    let (height, width) ← checkSizes height width
    checkWords (rows ++ columns)
    if rows.length = values.length ∧ columns.length = values.length then
      coordinateListing height width (rows.zip columns) values
    else .error .lengths
  | compressed major height width pointers indices values => do
    checkWords (indices ++ pointers)
    let (height, width) ← checkSizes height width
    compressedListing major height width pointers indices values

end CoefficientTightening.Sparse
