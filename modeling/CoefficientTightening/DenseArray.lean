import CoefficientTightening.Nested

/-! Arrays of numbers. An array knows its shape even where it has no values, as with no rows of
three columns; a nest of lists with a shape makes an array. -/
namespace CoefficientTightening

structure DenseArray (α : Type) where
  shape : List Nat
  /-- The values, the last axis running fastest. -/
  values : List α
  length_values : values.length = shapeSize shape

/-- The array that a nest makes. -/
def Nested.toArray {α : Type} (nest : Nested α) : Except Shapeless (DenseArray α) :=
  match h : nest.shape with
  | .error r => .error r
  | .ok shape => .ok ⟨shape, nest.leaves, Nested.length_leaves h⟩

end CoefficientTightening
