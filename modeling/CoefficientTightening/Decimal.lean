/-! Decimals as digits, and their two written forms: positional, or with a power of ten. A decimal
here is positive or zero; signs belong to the text around it. -/
namespace CoefficientTightening

/-- `d₁.d₂d₃… · 10 ^ exponent`; only zero starts with a `0`. -/
structure Decimal where
  digits : List Char
  exponent : Int
  deriving DecidableEq, Repr

namespace Decimal

def zero : Decimal := ⟨['0'], 0⟩

/-- Digits without the zeros at their end, of which one digit always remains. -/
def trimZeros (digits : List Char) : List Char :=
  match (digits.reverse.dropWhile (· == '0')).reverse with
  | [] => ['0']
  | kept => kept

/-- The decimal `count / 10 ^ places`. -/
def ofCount (count : Nat) (places : Int) : Decimal :=
  if count = 0 then zero
  else
    let digits := Nat.toDigits 10 count
    ⟨trimZeros digits, (digits.length : Int) - 1 - places⟩

/-- How a decimal is laid out. -/
structure Layout where
  /-- Least exponent that is written positionally. -/
  least : Int
  /-- First exponent above `least` that is no longer written positionally. -/
  limit : Int
  /-- A whole number in positional form ends in `.0`. -/
  pointZero : Bool
  deriving DecidableEq, Repr

private def fraction (digits : List Char) : List Char :=
  if digits.isEmpty then [] else '.' :: digits

/-- The exponent has a sign and at least two digits. -/
def exponentText (e : Int) : List Char :=
  let digits := Nat.toDigits 10 e.natAbs
  let padded := if digits.length < 2 then '0' :: digits else digits
  'e' :: (if e < 0 then '-' else '+') :: padded

def positional (layout : Layout) (d : Decimal) : List Char :=
  if d.exponent < 0 then
    '0' :: '.' :: (List.replicate (d.exponent.natAbs - 1) '0' ++ d.digits)
  else
    let whole := d.exponent.toNat + 1
    let front := d.digits.take whole
    let back := d.digits.drop whole
    front ++ List.replicate (whole - front.length) '0' ++
      (if back.isEmpty && layout.pointZero then ['.', '0'] else fraction back)

def write (layout : Layout) (d : Decimal) : String :=
  String.ofList <|
    if layout.least ≤ d.exponent ∧ d.exponent < layout.limit then positional layout d
    else d.digits.take 1 ++ fraction (d.digits.drop 1) ++ exponentText d.exponent

theorem trimZeros_ne_nil (digits : List Char) : trimZeros digits ≠ [] := by
  unfold trimZeros
  split <;> simp_all

end Decimal

end CoefficientTightening
