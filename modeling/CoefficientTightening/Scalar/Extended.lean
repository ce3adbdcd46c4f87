import CoefficientTightening.Scalar

/-! Exact arithmetic with the special values of a floating format: rationals, two infinities and
one NaN. Finite operands never round or overflow; everything else follows the usual rules, so
`∞ - ∞` and `0 · ∞` are NaN, and a NaN fails every comparison. There is one zero. -/
namespace CoefficientTightening

inductive Extended where
  | finite (value : Rat)
  | infinite (negative : Bool)
  | nan
  deriving DecidableEq

namespace Extended

instance : Coe Rat Extended := ⟨finite⟩

/-- The sign of a factor, `none` for zero and NaN. -/
def negative? : Extended → Option Bool
  | finite q => if q < 0 then some true else if 0 < q then some false else none
  | infinite s => some s
  | nan => none

def neg : Extended → Extended
  | finite q => finite (-q)
  | infinite s => infinite (!s)
  | nan => nan

def add : Extended → Extended → Extended
  | finite p, finite q => finite (p + q)
  | finite _, infinite s => infinite s
  | infinite s, finite _ => infinite s
  | infinite s, infinite t => if s = t then infinite s else nan
  | nan, _ => nan
  | _, nan => nan

def mul : Extended → Extended → Extended
  | finite p, finite q => finite (p * q)
  | nan, _ => nan
  | _, nan => nan
  | a, b => match a.negative?, b.negative? with
    | some s, some t => infinite (s != t)
    | _, _ => nan

/-- Strict order; false as soon as a NaN takes part. -/
def lt : Extended → Extended → Bool
  | finite p, finite q => decide (p < q)
  | infinite s, infinite t => s && !t
  | infinite s, finite _ => s
  | finite _, infinite s => !s
  | _, _ => false

/-- Equality of values; false as soon as a NaN takes part. -/
def eqv : Extended → Extended → Bool
  | finite p, finite q => decide (p = q)
  | infinite s, infinite t => s == t
  | _, _ => false

/-- The double nearest to `10 ^ 100`, exactly. -/
def unbounded : Rat :=
  10000000000000000159028911097599180468360808563945281389781327557747838772170381060813469985856815104

instance : Scalar Extended where
  add := add
  sub a b := add a (neg b)
  mul := mul
  neg := neg
  zero := finite 0
  one := finite 1
  lt a b := lt a b = true
  le a b := (lt a b || eqv a b) = true
  beq := eqv
  decLt _ _ := inferInstanceAs (Decidable (_ = true))
  decLe _ _ := inferInstanceAs (Decidable (_ = true))
  isFinite
    | finite _ => true
    | _ => false
  isInfinite
    | infinite _ => true
    | _ => false
  infinity := infinite false
  unbounded := finite unbounded

end Extended

end CoefficientTightening
