/-! Numbers as the tightening rules see them: the four operations used, comparisons, a test for
finiteness, and the two special constants. Every rule of the library is written once over this
class and then read twice, on doubles and on exact rationals with infinities. Nothing is assumed
about the operations here; what a theorem needs, it asks of one of the two instances. -/
namespace CoefficientTightening

/-- `==` is the comparison of values, which a NaN fails against itself. -/
class Scalar (α : Type) extends Add α, Sub α, Mul α, Neg α, Zero α, One α, LT α, LE α, BEq α where
  decLt : ∀ a b : α, Decidable (a < b)
  decLe : ∀ a b : α, Decidable (a ≤ b)
  /-- Neither infinite nor a NaN. -/
  isFinite : α → Bool
  /-- Neither finite nor a NaN. -/
  isInfinite : α → Bool
  infinity : α
  /-- The size from which on a variable bound of a model file stands for no bound at all. -/
  unbounded : α

instance Scalar.decidableLt {α : Type} [Scalar α] (a b : α) : Decidable (a < b) := Scalar.decLt a b

instance Scalar.decidableLe {α : Type} [Scalar α] (a b : α) : Decidable (a ≤ b) := Scalar.decLe a b

end CoefficientTightening
