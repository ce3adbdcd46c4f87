import CoefficientTightening.Decimal

/-! Doubles as exact numbers, and the decimals chosen for them: the shortest one that reads back
to the same double, and the one with a given number of significant digits. Both are found in whole
numbers, on a decimal grid whose points are the multiples of a power of ten. -/
namespace CoefficientTightening.Decimal

/-- What the bits of a double stand for; a finite value is `mantissa · 2 ^ exponent`. -/
inductive Reading where
  | nan
  | infinite (negative : Bool)
  | finite (negative : Bool) (mantissa : Nat) (exponent : Int)
  deriving DecidableEq, Repr

/-- The bit above the stored fraction of a normal double. -/
def hiddenBit : Nat := Nat.pow 2 52

/-- Sign, eleven bits of exponent, fifty-two bits of fraction; a zero exponent field has no hidden
bit. -/
def Reading.ofBits (bits : Nat) : Reading :=
  let negative := bits / Nat.pow 2 63 % 2 == 1
  let field := bits / hiddenBit % 2048
  let part := bits % hiddenBit
  if field = 2047 then if part = 0 then infinite negative else nan
  else if field = 0 then finite negative part (-1074)
  else finite negative (hiddenBit + part) (Int.ofNat field - 1075)

def Reading.ofFloat (x : Float) : Reading :=
  ofBits x.toBits.toNat

/-- The reals that round to one positive double, in units of `2 ^ unit`. -/
structure Basin where
  unit : Int
  low : Nat
  value : Nat
  high : Nat
  /-- The ends belong to it. -/
  closed : Bool

/-- Halfway to both neighbours, the lower one of which is closer at a power of two. An end is a tie
and goes to the even mantissa. -/
def Basin.of (mantissa : Nat) (exponent : Int) : Basin where
  unit := exponent - 2
  low := 4 * mantissa - (if mantissa = hiddenBit ∧ -1074 < exponent then 1 else 2)
  value := 4 * mantissa
  high := 4 * mantissa + 2
  closed := mantissa % 2 == 0

/-- Common multipliers that turn `c / 10 ^ places` and `x · 2 ^ unit` into whole numbers: the first
belongs to `c`, the second to `x`. -/
def weights (places unit : Int) : Nat × Nat :=
  (Nat.pow 10 (-places).toNat * Nat.pow 2 (-unit).toNat,
    Nat.pow 10 places.toNat * Nat.pow 2 unit.toNat)

/-- The point of the grid `1 / 10 ^ places` nearest to the value among those of its two neighbours
that lie in the basin; of two equally near ones, the even one. -/
def Basin.onGrid? (b : Basin) (places : Int) : Option Nat :=
  let (point, weight) := weights places b.unit
  let below := b.value * weight / point
  let inside (c : Nat) : Bool :=
    if b.closed then b.low * weight ≤ c * point && c * point ≤ b.high * weight
    else b.low * weight < c * point && c * point < b.high * weight
  let down := b.value * weight - below * point
  let up := (below + 1) * point - b.value * weight
  match inside below, inside (below + 1) with
  | true, true => some (if down < up ∨ (down = up ∧ below % 2 = 0) then below else below + 1)
  | true, false => some below
  | false, true => some (below + 1)
  | false, false => none

/-- The exponent of the first digit of `mantissa · 2 ^ exponent`. -/
def leadingExponent (mantissa : Nat) (exponent : Int) : Int :=
  let (point, weight) := weights 0 exponent
  let guess : Int := (Nat.toDigits 10 (mantissa * weight)).length - (Nat.toDigits 10 point).length
  let (point, weight) := weights (-guess) exponent
  if point ≤ mantissa * weight then guess else guess - 1

/-- The fewest digits that read back, the nearest of those. Seventeen always suffice. -/
def shortest (mantissa : Nat) (exponent : Int) : Decimal :=
  if mantissa = 0 then zero
  else
    let lead := leadingExponent mantissa exponent
    let tryDigits (n : Nat) : Option Decimal :=
      let places := (n : Int) - lead
      ((Basin.of mantissa exponent).onGrid? places).map (ofCount · places)
    ((List.range 17).findSome? tryDigits).getD zero

/-- The nearest decimal with at most `digits` significant digits, a tie going to the even last
digit. -/
def significant (digits mantissa : Nat) (exponent : Int) : Decimal :=
  if mantissa = 0 then zero
  else
    let places := (digits : Int) - 1 - leadingExponent mantissa exponent
    let (point, weight) := weights places exponent
    let below := mantissa * weight / point
    let rest := 2 * (mantissa * weight % point)
    let up := point < rest ∨ (point = rest ∧ below % 2 = 1)
    ofCount (if up then below + 1 else below) places

/-- Text of a double, given how a finite magnitude is written. -/
def signed (text : Nat → Int → String) : Reading → String
  | .nan => "nan"
  | .infinite negative => if negative then "-inf" else "inf"
  | .finite negative mantissa exponent =>
    (if negative then "-" else "") ++ text mantissa exponent

/-- Full precision: whole numbers keep a point, and a power of ten is written from `1e+16` up and
below `0.0001`. -/
def fullText (x : Float) : String :=
  signed (fun m e => write ⟨-4, 16, true⟩ (shortest m e)) (Reading.ofFloat x)

/-- Six significant digits, as log lines show numbers. -/
def briefText (x : Float) : String :=
  signed (fun m e => write ⟨-4, 6, false⟩ (significant 6 m e)) (Reading.ofFloat x)

end CoefficientTightening.Decimal
