import CoefficientTightening.Decimal.Double
import CoefficientTightening.Formulation

/-! Short texts for a line of a matrix, a matrix, and a formulation. -/
namespace CoefficientTightening

/-- Indices and values of one row or column. -/
def Sparse.lineText (indices : List Nat) (values : List Float) : String :=
  let shownIndices := Text.bracketed (indices.map fun k => s!"{k}")
  let shownValues := Text.bracketed (values.map Decimal.fullText)
  s!"SparseVector(nzind={shownIndices}, nzval={shownValues})"

def Sparse.Matrix.text {α : Type} {m n : Nat} (M : Sparse.Matrix α m n) : String :=
  s!"ProblemData(ncon={m}, nvar={n}, nnz={M.stored})"

def Formulation.text {α : Type} {m n : Nat} (p : Formulation α m n) : String :=
  s!"PresolveData({p.matrix.text})"

end CoefficientTightening
