import CoefficientTightening.Instance
import CoefficientTightening.Proofs.Binary64.Arithmetic

/-! Bounds of variables on their way into an instance and out again. Reading takes a lower bound of
at most minus the huge size for minus infinity, and an upper bound of at least the huge size for plus
infinity. Building writes every infinite bound as the huge one of its side, whatever its sign: also
a lower bound of plus infinity and an upper bound of minus infinity, which reading leaves as they
are. All other bounds come back when what was built is read. -/
namespace CoefficientTightening

open Extended (finite infinite nan)
open RoundedScalar (denote denote_le denote_neg beq_iff_denote)

/-- Infinite scalars stand for infinite values, and the huge size for a finite one. -/
class HasHugeSize (α : Type) [Scalar α] [RoundedScalar α] : Prop where
  isInfinite_iff : ∀ a : α, Scalar.isInfinite a = true ↔ ∃ s, denote a = infinite s
  denote_infinity : denote (Scalar.infinity : α) = infinite false
  exists_unbounded : ∃ q, denote (Scalar.unbounded : α) = finite q

theorem isInf_iff (a : Float) : Float.isInf a = true ↔ ∃ s, denote a = infinite s := by
  show a.toModel.unpack.isInf = true ↔ ∃ s, Binary64.value a.toModel.unpack = infinite s
  cases a.toModel.unpack <;> simp [Float.Model.UnpackedFloat.isInf, Binary64.value]

instance : HasHugeSize Float where
  isInfinite_iff := isInf_iff
  denote_infinity := by
    have hpos : (0 : Float) < Scalar.infinity := by decide +kernel
    obtain ⟨negative, hvalue⟩ := (isInf_iff Scalar.infinity).mp (by decide +kernel)
    rw [RoundedScalar.denote_lt, hvalue] at hpos
    cases negative with
    | false => exact hvalue
    | true => cases hpos
  exists_unbounded := by
    rw [← Extended.isFinite_iff, RoundedScalar.isFinite_denote]
    decide +kernel

variable {α : Type} [Scalar α] [RoundedScalar α]

namespace HasHugeSize

variable [HasHugeSize α] {a : α}

theorem unbounded_le_self : (Scalar.unbounded : α) ≤ Scalar.unbounded := by
  obtain ⟨q, hq⟩ := exists_unbounded (α := α)
  rw [denote_le, hq, Extended.finite_le]

theorem neg_unbounded_le_self : (-Scalar.unbounded : α) ≤ -Scalar.unbounded := by
  obtain ⟨q, hq⟩ := exists_unbounded (α := α)
  rw [denote_le, denote_neg, hq, Extended.neg_finite, Extended.finite_le]

theorem le_neg_unbounded_of_infinite (h : denote a = infinite true) : a ≤ -Scalar.unbounded := by
  obtain ⟨q, hq⟩ := exists_unbounded (α := α)
  rw [denote_le, denote_neg, hq, h]
  rfl

theorem unbounded_le_of_infinite (h : denote a = infinite false) : Scalar.unbounded ≤ a := by
  obtain ⟨q, hq⟩ := exists_unbounded (α := α)
  rw [denote_le, hq, h]
  rfl

theorem denote_neg_infinity : denote (-Scalar.infinity : α) = infinite true := by
  rw [denote_neg, denote_infinity]
  rfl

theorem beq_infinity_of_infinite (h : denote a = infinite false) :
    (a == Scalar.infinity) = true :=
  beq_iff_denote.mpr ⟨h.trans denote_infinity.symm, by rw [h]; exact Extended.noConfusion⟩

theorem beq_neg_infinity_of_infinite (h : denote a = infinite true) :
    (a == -Scalar.infinity) = true :=
  beq_iff_denote.mpr ⟨h.trans denote_neg_infinity.symm, by rw [h]; exact Extended.noConfusion⟩

end HasHugeSize

namespace Variable

open HasHugeSize

/-- A bound that no number satisfies: plus infinity below, or minus infinity above. -/
def IsReversed (v : Variable α) : Prop :=
  denote v.lower = infinite false ∨ denote v.upper = infinite true

instance (v : Variable α) : Decidable v.IsReversed :=
  inferInstanceAs (Decidable (_ ∨ _))

variable [HasHugeSize α] {v w : Variable α}

/-! ### Building what was read -/

theorem solverBound_lower (v : Variable α) :
    (denote v.lower = infinite false ∨ v.lower ≤ -Scalar.unbounded) ∧
        Instance.solverBound .lower v.range.lower = -Scalar.unbounded ∨
      ¬ (denote v.lower = infinite false ∨ v.lower ≤ -Scalar.unbounded) ∧
        Instance.solverBound .lower v.range.lower = v.lower := by
  have hrange : v.range.lower =
      if v.lower ≤ -Scalar.unbounded then -Scalar.infinity else v.lower := rfl
  rw [hrange]
  by_cases h : v.lower ≤ -Scalar.unbounded
  · have hinf : Scalar.isInfinite (-Scalar.infinity : α) = true :=
      (isInfinite_iff _).mpr ⟨true, denote_neg_infinity⟩
    rw [if_pos h, Instance.solverBound, if_pos hinf]
    exact .inl ⟨.inr h, rfl⟩
  · rw [if_neg h, Instance.solverBound]
    split
    · next hinf =>
      obtain ⟨negative, hvalue⟩ := (isInfinite_iff _).mp hinf
      cases negative with
      | false => exact .inl ⟨.inl hvalue, rfl⟩
      | true => exact absurd (le_neg_unbounded_of_infinite hvalue) h
    · next hfin =>
      refine .inr ⟨not_or.mpr ⟨fun hvalue => hfin ?_, h⟩, rfl⟩
      exact (isInfinite_iff _).mpr ⟨_, hvalue⟩

theorem solverBound_upper (v : Variable α) :
    (denote v.upper = infinite true ∨ Scalar.unbounded ≤ v.upper) ∧
        Instance.solverBound .upper v.range.upper = Scalar.unbounded ∨
      ¬ (denote v.upper = infinite true ∨ Scalar.unbounded ≤ v.upper) ∧
        Instance.solverBound .upper v.range.upper = v.upper := by
  have hrange : v.range.upper =
      if Scalar.unbounded ≤ v.upper then Scalar.infinity else v.upper := rfl
  rw [hrange]
  by_cases h : Scalar.unbounded ≤ v.upper
  · have hinf : Scalar.isInfinite (Scalar.infinity : α) = true :=
      (isInfinite_iff _).mpr ⟨false, denote_infinity⟩
    rw [if_pos h, Instance.solverBound, if_pos hinf]
    exact .inl ⟨.inr h, rfl⟩
  · rw [if_neg h, Instance.solverBound]
    split
    · next hinf =>
      obtain ⟨negative, hvalue⟩ := (isInfinite_iff _).mp hinf
      cases negative with
      | false => exact absurd (unbounded_le_of_infinite hvalue) h
      | true => exact .inl ⟨.inl hvalue, rfl⟩
    · next hfin =>
      refine .inr ⟨not_or.mpr ⟨fun hvalue => hfin ?_, h⟩, rfl⟩
      exact (isInfinite_iff _).mpr ⟨_, hvalue⟩

/-! ### Reading what was built -/

/-- A lower bound comes back, unless it is plus infinity. -/
theorem lower_range_of_built (h : (v.range.lower == Scalar.infinity) = false)
    (hw : w.lower = Instance.solverBound .lower v.range.lower) :
    w.range.lower = v.range.lower := by
  have hrange : ∀ u : Variable α,
      u.range.lower = if u.lower ≤ -Scalar.unbounded then -Scalar.infinity else u.lower :=
    fun _ => rfl
  rw [hrange w, hw]
  rcases v.solverBound_lower with ⟨hnone, hbound⟩ | ⟨-, hbound⟩
  · rw [hbound, if_pos neg_unbounded_le_self]
    rw [hrange] at h ⊢
    split
    · rfl
    · next hle =>
      rw [if_neg hle, beq_infinity_of_infinite (hnone.resolve_right hle)] at h
      cases h
  · rw [hbound, hrange v]

/-- An upper bound comes back, unless it is minus infinity. -/
theorem upper_range_of_built (h : (v.range.upper == -Scalar.infinity) = false)
    (hw : w.upper = Instance.solverBound .upper v.range.upper) :
    w.range.upper = v.range.upper := by
  have hrange : ∀ u : Variable α,
      u.range.upper = if Scalar.unbounded ≤ u.upper then Scalar.infinity else u.upper :=
    fun _ => rfl
  rw [hrange w, hw]
  rcases v.solverBound_upper with ⟨hnone, hbound⟩ | ⟨-, hbound⟩
  · rw [hbound, if_pos unbounded_le_self]
    rw [hrange] at h ⊢
    split
    · rfl
    · next hle =>
      rw [if_neg hle, beq_neg_infinity_of_infinite (hnone.resolve_right hle)] at h
      cases h
  · rw [hbound, hrange v]

end Variable

end CoefficientTightening
