import CoefficientTightening.Text.Blank

/-! Whole numbers as a user types them: blanks around, an optional sign, digits of any script, and
single underscores between digits. -/
namespace CoefficientTightening.Text

/-- Longest digit string that is still read. -/
def maxDigits : Nat := 4300

/-- Digits with single underscores between them; `pending` says that a digit must come next. -/
def readDigits (value count : Nat) (pending : Bool) : List Char → Option (Nat × Nat)
  | [] => if pending then none else some (value, count)
  | c :: rest =>
    if c = '_' then if pending then none else readDigits value count true rest
    else match digitValue? c with
      | some d => readDigits (value * 10 + d) (count + 1) false rest
      | none => none

def trimBlanks (text : List Char) : List Char :=
  ((text.dropWhile isBlank).reverse.dropWhile isBlank).reverse

def readNat? (text : List Char) : Option Nat :=
  match readDigits 0 0 true text with
  | some (value, count) => if count ≤ maxDigits then some value else none
  | none => none

def readInt? (text : String) : Option Int :=
  match trimBlanks text.toList with
  | '-' :: rest => (readNat? rest).map fun n => -Int.ofNat n
  | '+' :: rest => (readNat? rest).map Int.ofNat
  | rest => (readNat? rest).map Int.ofNat

end CoefficientTightening.Text
