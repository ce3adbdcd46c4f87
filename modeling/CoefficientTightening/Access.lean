/-! Access by whole-number indices that may count from the end, and what is said when one is out of
range. The wording depends on the container: a plain list, a write to a plain list, or an axis of
an array, which names the index and its size. Containers take signed words of 64 bits as indices; a
number beyond those is refused before the size is looked at. -/
namespace CoefficientTightening

/-- Whether a number is a signed word of 64 bits. -/
def fitsWord (k : Int) : Bool :=
  decide (-9223372036854775808 ≤ k ∧ k ≤ 9223372036854775807)

/-- Whether a number is an unsigned word of 64 bits. -/
def fitsUnsignedWord (k : Int) : Bool :=
  decide (0 ≤ k ∧ k ≤ 18446744073709551615)

/-- The position meant by an index; `-1` is the last one. -/
def resolve? (size : Nat) (index : Int) : Option (Fin size) :=
  let position := if index < 0 then index + size else index
  if h : 0 ≤ position ∧ position < size then some ⟨position.toNat, by omega⟩ else none

theorem resolve?_natCast {size : Nat} (i : Fin size) : resolve? size (i : Nat) = some i := by
  have := i.isLt
  simp [resolve?, show ¬ ((i : Nat) : Int) < 0 by omega]

theorem resolve?_eq_none_iff {size : Nat} {index : Int} :
    resolve? size index = none ↔ index < -size ∨ (size : Int) ≤ index := by
  unfold resolve?
  by_cases h : index < 0 <;> simp [h] <;> omega

inductive OutOfRange where
  | list
  | assignment
  | axis (index : Int) (size : Nat)
  /-- A list index that is no word. -/
  | listWord
  /-- A number that is stored or used as a word and is none. -/
  | word
  /-- An array index that is no word, not even an unsigned one. -/
  | noIndex
  deriving DecidableEq, Repr

namespace OutOfRange

def message : OutOfRange → String
  | list => "list index out of range"
  | assignment => "list assignment index out of range"
  | axis index size => s!"index {index} is out of bounds for axis 0 with size {size}"
  | listWord => "cannot fit 'int' into an index-sized integer"
  | word => "Python int too large to convert to C long"
  | noIndex =>
    "only integers, slices (`:`), ellipsis (`...`), numpy.newaxis (`None`) and integer or boolean "
      ++ "arrays are valid indices"

end OutOfRange

/-- Position in a list of the given size, or `missing` if the list has none of that index. -/
def listPosition (missing : OutOfRange) (size : Nat) (index : Int) : Except OutOfRange (Fin size) :=
  if fitsWord index then
    match resolve? size index with
    | some i => .ok i
    | none => .error missing
  else .error .listWord

/-- Position in a list that is read. -/
def listIndex (size : Nat) (index : Int) : Except OutOfRange (Fin size) :=
  listPosition .list size index

/-- Position on an array axis of the given size. -/
def axisIndex (size : Nat) (index : Int) : Except OutOfRange (Fin size) :=
  if fitsWord index then
    match resolve? size index with
    | some i => .ok i
    | none => .error (.axis index size)
  else .error (if fitsUnsignedWord index then .word else .noIndex)

/-- A number as a signed word. -/
def asWord (k : Int) : Except OutOfRange Int64 :=
  if fitsWord k then .ok (Int64.ofInt k) else .error .word

/-- What was stored as a word reads back as the number given. -/
theorem toInt_of_asWord {k : Int} {w : Int64} (h : asWord k = .ok w) : w.toInt = k := by
  unfold asWord at h
  split at h
  · next fits =>
    simp only [fitsWord, decide_eq_true_eq] at fits
    cases h
    exact Int64.toInt_ofInt_of_le (by omega) (by omega)
  · cases h

/-- Change one component in place. -/
def modifyAt {β : Type} {n : Nat} (xs : Vector β n) (i : Fin n) (f : β → β) : Vector β n :=
  ⟨xs.toArray.modify i f, by simp⟩

theorem get_eq_getElem {β : Type} {n : Nat} (xs : Vector β n) (i : Fin n) :
    xs.get i = xs[i.val] := rfl

@[simp] theorem get_modifyAt {β : Type} {n : Nat} (xs : Vector β n) (i j : Fin n) (f : β → β) :
    (modifyAt xs i f).get j = if i = j then f (xs.get j) else xs.get j := by
  simp only [get_eq_getElem, modifyAt, Vector.getElem_mk, Array.getElem_modify, Fin.ext_iff]
  rfl

@[simp] theorem get_replicate {β : Type} {n : Nat} (x : β) (j : Fin n) :
    (Vector.replicate n x).get j = x := by
  simp [get_eq_getElem]

end CoefficientTightening
