import CoefficientTightening.Proofs.InstancePoints
import CoefficientTightening.Proofs.ReadModel

/-! Presolving a model from a file, end to end and in exact arithmetic. A model with finite
coefficients is read into an instance with finite coefficients, so the feasible points after a run
are those before it that withstand the cuts. Whether that is all of them is decided by the points
near a column bound that is not whole: there the rule takes for granted that the next value is a
full unit away. -/
namespace CoefficientTightening

open Extended (finite infinite nan)

namespace Model

variable {model : Model Extended} {inst : Instance Extended model.height model.width}

/-- All terms of all constraints have finite coefficients. -/
def HasFiniteTerms (model : Model Extended) : Prop :=
  ∀ c ∈ model.constraints, ∀ t ∈ c.terms, Scalar.isFinite t.2 = true

instance (model : Model Extended) : Decidable model.HasFiniteTerms :=
  inferInstanceAs (Decidable (∀ c ∈ model.constraints, ∀ t ∈ c.terms, _ = true))

theorem value_eq_of_entry {m n : Nat} {i j : Int} {value : Extended}
    {e : Sparse.Entry Extended m n} (h : Sparse.entry? m n i j value = some e) :
    e.value = value := by
  unfold Sparse.entry? at h
  split at h
  · cases h
    rfl
  · cases h

/-- Sorting the terms and adding up repeated columns keeps the coefficients finite. -/
theorem hasFiniteCoefficients_of_toInstance (hread : model.toInstance = .ok inst)
    (hfin : model.HasFiniteTerms) : inst.HasFiniteCoefficients := by
  intro i
  rw [matrix_of_toInstance hread, matrix, Sparse.Rows.get_canonical, Sparse.get_groupRows]
  apply Sparse.hasFiniteValues_canonicalRow
  intro t ht
  obtain ⟨e, he, rfl⟩ := List.mem_map.mp ht
  obtain ⟨entry, hentry, hsome⟩ := List.mem_filterMap.mp (List.mem_of_mem_filter he)
  obtain ⟨c, hc, hterm⟩ := List.mem_flatMap.mp hentry
  obtain ⟨term, hmem, rfl⟩ := List.mem_map.mp hterm
  rw [value_eq_of_entry hsome]
  exact hfin c.1 (List.fst_mem_of_mem_zipIdx hc) term hmem

/-- Presolving a model that was read, with the bounds of all variables as they are. No feasible
point is gained. None is lost exactly when no round is allowed or every feasible point withstands
the cut of every row at its surplus; so none is lost if the variables that are not continuous have
whole or infinite bounds. -/
theorem isFeasible_presolve_iff (hread : model.toInstance = .ok inst)
    (hfin : model.HasFiniteTerms) (maxRounds : Int) (validates : Bool)
    (hrun : (inst.presolve maxRounds validates).failure = none) :
    ∃ p, inst.toFormulation = .ok p ∧
      (∀ x, (inst.presolve maxRounds validates).inst.IsFeasible x → inst.IsFeasible x) ∧
      ((∀ x, (inst.presolve maxRounds validates).inst.IsFeasible x ↔ inst.IsFeasible x) ↔
        maxRounds ≤ 0 ∨ ∀ x, inst.IsFeasible x → ∀ i, p.Withstands x i) ∧
      (inst.HasWholeBounds →
        ∀ x, (inst.presolve maxRounds validates).inst.IsFeasible x ↔ inst.IsFeasible x) := by
  obtain ⟨p, hp, hcarries, hsame, hafter⟩ :=
    Instance.isFeasible_presolve (hasFiniteCoefficients_of_toInstance hread hfin) hrun
  have hexact : (∀ x, (inst.presolve maxRounds validates).inst.IsFeasible x ↔
      inst.IsFeasible x) ↔ maxRounds ≤ 0 ∨ ∀ x, inst.IsFeasible x → ∀ i, p.Withstands x i := by
    simp only [hafter, and_iff_left_iff_imp]
    constructor
    · intro h
      by_cases hrounds : maxRounds ≤ 0
      · exact .inl hrounds
      · exact .inr fun x hx => (h x hx).resolve_left hrounds
    · rintro (hrounds | h) x hx
      · exact .inl hrounds
      · exact .inr (h x hx)
  refine ⟨p, hp, fun x hx => ((hafter x).mp hx).1, hexact, fun hwhole => ?_⟩
  apply hexact.mpr
  right
  intro x hx i
  obtain ⟨hbox, hint, hsat⟩ := (hsame x).mp hx
  have hwhole' : p.HasWholeBounds := by
    intro j hj
    rw [hcarries.isCandidate] at hj
    rw [hcarries.columnRange]
    exact hwhole j hj
  exact Formulation.withstands_of_isWholeAt hcarries.coefficients hwhole' hbox hint (hsat i)

/-- The model `2 x ≤ 5/2` with `x` whole in `[0, top]`. -/
def singleRow (top : ℚ) : Model Extended where
  vars := [⟨"x", finite 0, finite top, .integer, finite 0⟩]
  constraints := [⟨"c", [(0, finite 2)], "<", finite (5 / 2)⟩]
  direction := 1
  constant := finite 0

def singleRowRead (top : ℚ) : Instance Extended 1 1 where
  columns := #v[⟨"x", ⟨finite 0, finite top⟩, .integer, finite 0⟩]
  rows := #v[⟨"c", .atMost, finite (5 / 2)⟩]
  matrix := #v[[(0, finite 2)]]
  direction := 1
  constant := finite 0

/-- Up to a whole bound: the row becomes `3/2 x ≤ 3/2`, with the same points 0 and 1. -/
theorem singleRow_keeps_points :
    ((singleRowRead 2).presolve 10 true).inst.IsFeasible (fun _ => 1) ∧
      ¬ ((singleRowRead 2).presolve 10 true).inst.IsFeasible fun _ => 2 := by
  have hread : (singleRow 2).toInstance = .ok (singleRowRead 2) := by decide +kernel
  have hbounds : (singleRowRead 2).HasWholeBounds := by decide +kernel
  have hrun : ((singleRowRead 2).presolve 10 true).failure = none :=
    Option.isNone_iff_eq_none.mp (by decide +kernel)
  obtain ⟨p, -, -, -, hwhole⟩ := isFeasible_presolve_iff hread (by decide +kernel) 10 true hrun
  have hsame : ∀ x : Fin 1 → ℚ, ((singleRowRead 2).presolve 10 true).inst.IsFeasible x ↔
      (singleRowRead 2).IsFeasible x := hwhole hbounds
  rw [hsame, hsame]
  decide +kernel

/-- Up to the bound `3/2`: the row becomes `1/2 x ≤ 1/4`, and the point 1 is lost. -/
theorem singleRow_loses_point :
    (singleRow (3 / 2)).toInstance = .ok (singleRowRead (3 / 2)) ∧
      (singleRow (3 / 2)).HasFiniteTerms ∧
      ((singleRowRead (3 / 2)).presolve 10 false).failure = none ∧
      (singleRowRead (3 / 2)).IsFeasible (fun _ => 1) ∧
      ¬ ((singleRowRead (3 / 2)).presolve 10 false).inst.IsFeasible fun _ => 1 := by
  refine ⟨by decide +kernel, by decide +kernel, ?_, by decide +kernel, by decide +kernel⟩
  exact Option.isNone_iff_eq_none.mp (by decide +kernel)

end Model

end CoefficientTightening
