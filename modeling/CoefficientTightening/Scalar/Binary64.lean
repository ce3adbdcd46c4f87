import CoefficientTightening.Scalar

/-! Doubles as scalars. Each operation is the rounded one of the format, so a rule read at this
instance computes the very bits that a program on doubles computes. -/
namespace CoefficientTightening

instance : Scalar Float where
  zero := 0
  one := 1
  decLt := Float.decLt
  decLe := Float.decLe
  isFinite := Float.isFinite
  isInfinite := Float.isInf
  infinity := 1 / 0
  unbounded := 1e100

end CoefficientTightening
