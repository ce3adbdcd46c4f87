import CoefficientTightening.Reduction
import CoefficientTightening.Scalar.Binary64

/-! Reductions on doubles as text, and their comparison. -/
namespace CoefficientTightening.Reduction

def same (a b : Reduction Float) : Bool :=
  a.kind == b.kind && a.target.same b.target && a.value.same b.value

def text (r : Reduction Float) : String :=
  s!"Reduction(kind={r.kind}, target={r.target.plain}, value={r.value.plain})"

end CoefficientTightening.Reduction
