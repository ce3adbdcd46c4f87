import CoefficientTightening.Instance
import CoefficientTightening.Proofs.RowPass
import Mathlib.Logic.Function.Iterate

/-! What presolving an instance computes, over every kind of scalar. A run with tightening as the
only presolver leaves the data that some number of passes makes of it, none exactly when no round is
allowed; and an instance that is presolved without failure adopts what those passes make of its own
formulation. The formulation of an instance has its matrix in canonical form, its ranges and its
kinds, and every column active. -/
namespace CoefficientTightening

variable {α : Type} [Scalar α] {m n : Nat}

/-! ### Rounds of tightening -/

section Rounds

variable (validates : Bool)

theorem applyAll_tighteningOnly (p : Formulation α m n) :
    (tighteningOnly.applyAll validates [()] p).data = p.tighten ∧
      (tighteningOnly.applyAll validates [()] p).presolvers = [()] := by
  simp only [Presolving.applyAll, tighteningOnly, Formulation.data_tighteningPass]
  split <;> exact ⟨rfl, rfl⟩

/-- Rounds of tightening are passes, at least one if any round is allowed. -/
theorem exists_repeatRounds_tighteningOnly (left number : Nat) (p : Formulation α m n) :
    ∃ k, (tighteningOnly.repeatRounds validates left number [()] p).data =
      Formulation.tighten^[k] p ∧ (k = 0 ↔ left = 0) := by
  induction left generalizing number p with
  | zero => exact ⟨0, rfl, Iff.rfl⟩
  | succ left ih =>
    obtain ⟨hdata, hpresolvers⟩ := applyAll_tighteningOnly validates p
    simp only [Presolving.repeatRounds]
    split
    · exact ⟨1, hdata, by omega⟩
    · split
      · exact ⟨1, hdata, by omega⟩
      · obtain ⟨k, hk, -⟩ := ih (number + 1) p.tighten
        refine ⟨k + 1, ?_, by omega⟩
        rw [hdata, hpresolvers, Function.iterate_succ_apply]
        exact hk

theorem exists_run_tighteningOnly {maxRounds : Int} {p : Formulation α m n}
    (h : ((Schedule.new maxRounds validates [()]).run tighteningOnly none p).failure = none) :
    ∃ k, ((Schedule.new maxRounds validates [()]).run tighteningOnly none p).data =
      Formulation.tighten^[k] p ∧ (k = 0 ↔ maxRounds ≤ 0) := by
  simp only [Schedule.run, Schedule.new] at h ⊢
  split at h
  · cases h
  · obtain ⟨k, hk, hzero⟩ := exists_repeatRounds_tighteningOnly validates maxRounds.toNat 1 p
    exact ⟨k, hk, by omega⟩

theorem reductions_applyAll_tighteningOnly {p : Formulation α m n}
    (h : (tighteningOnly.applyAll validates [()] p).failure = none) :
    (tighteningOnly.applyAll validates [()] p).reductions = p.tighteningPass.reductions := by
  simp only [Presolving.applyAll, tighteningOnly] at h ⊢
  split at h
  · cases h
  · cases h
  · next hresult _ =>
    cases hresult
    exact List.append_nil _

/-- What holds of the data and the records at the start, and is kept by every pass with its records,
holds after the rounds. -/
theorem repeatRounds_tighteningOnly_induction {I : Formulation α m n → List (Reduction α) → Prop}
    (hstep : ∀ q log, I q log → I q.tighten (log ++ q.tighteningPass.reductions))
    (left number : Nat) {p : Formulation α m n} {log : List (Reduction α)} (h : I p log)
    (hnone : (tighteningOnly.repeatRounds validates left number [()] p).failure = none) :
    I (tighteningOnly.repeatRounds validates left number [()] p).data
      (log ++ (tighteningOnly.repeatRounds validates left number [()] p).reductions) := by
  induction left generalizing number p log with
  | zero =>
    simp only [Presolving.repeatRounds, List.append_nil]
    exact h
  | succ left ih =>
    obtain ⟨hdata, hpresolvers⟩ := applyAll_tighteningOnly validates p
    have hpass := hstep p log h
    simp only [Presolving.repeatRounds] at hnone ⊢
    split at hnone
    · next hfailed =>
      rw [hnone] at hfailed
      cases hfailed
    · next hdone =>
      have hfailure := Option.not_isSome_iff_eq_none.mp hdone
      have hreductions := reductions_applyAll_tighteningOnly validates hfailure
      rw [if_neg hdone]
      split at hnone
      · next hempty =>
        rw [if_pos hempty]
        simp only [hdata, hreductions]
        exact hpass
      · next hsome =>
        rw [if_neg hsome]
        simp only [hdata, hpresolvers, hreductions, ← List.append_assoc] at hnone ⊢
        exact ih (number + 1) hpass hnone

theorem run_tighteningOnly_induction {I : Formulation α m n → List (Reduction α) → Prop}
    (hstep : ∀ q log, I q log → I q.tighten (log ++ q.tighteningPass.reductions)) {maxRounds : Int}
    {p : Formulation α m n} (h : I p [])
    (hnone : ((Schedule.new maxRounds validates [()]).run tighteningOnly none p).failure = none) :
    I ((Schedule.new maxRounds validates [()]).run tighteningOnly none p).data
      ((Schedule.new maxRounds validates [()]).run tighteningOnly none p).schedule.applied := by
  simp only [Schedule.run, Schedule.new] at hnone ⊢
  split at hnone
  · cases hnone
  · exact repeatRounds_tighteningOnly_induction validates hstep _ 1 h hnone

end Rounds

namespace Instance

/-! ### The formulation of an instance -/

/-- How a formulation is made up from an instance. -/
structure IsReadAs (inst : Instance α m n) (p : Formulation α m n) : Prop where
  matrix : p.matrix = .ofRows inst.matrix.canonical
  rowRange : ∀ i, (p.rows.get i).range = (inst.rows.get i).range
  columnRange : ∀ j, (p.columns.get j).range = (inst.columns.get j).range
  kind : ∀ j, (p.columns.get j).kind = (inst.columns.get j).kind
  active : ∀ j, (p.columns.get j).active = true

theorem toList_kindLine {kinds : List VarKind} {v : Vector VarKind n}
    (h : kindLine n kinds = .ok v) : v.toList = kinds := by
  unfold kindLine at h
  split at h
  · split at h
    · cases h
      rfl
    · cases h
  · cases h

theorem isReadAs_of_toFormulation {inst : Instance α m n} {p : Formulation α m n}
    (h : inst.toFormulation = .ok p) : inst.IsReadAs p := by
  unfold toFormulation at h
  cases hk : kindLine n (inst.columns.toList.map (·.kind)) with
  | error e => rw [hk] at h; cases h
  | ok kinds =>
    rw [hk] at h
    cases h
    have hget := fun j : Fin n => congrArg (fun l => l[j.val]?) (toList_kindLine hk)
    refine ⟨rfl, fun i => ?_, fun j => ?_, fun j => ?_, fun j => ?_⟩
    · simp [Formulation.ofRanges, rowRanges, get_eq_getElem]
    · simp [Formulation.ofRanges, get_eq_getElem]
    · simpa [Formulation.ofRanges, get_eq_getElem] using hget j
    · simp [Formulation.ofRanges, get_eq_getElem]

/-- The counts of the formulation are taken anew. -/
theorem exists_ofRanges_of_toFormulation {inst : Instance α m n} {p : Formulation α m n}
    (h : inst.toFormulation = .ok p) :
    ∃ kinds, p = .ofRanges (.ofRows inst.matrix.canonical) inst.rowRanges
      (inst.columns.map (·.range)) kinds (Vector.replicate n true) := by
  unfold toFormulation at h
  cases hk : kindLine n (inst.columns.toList.map (·.kind)) with
  | error e => rw [hk] at h; cases h
  | ok kinds =>
    rw [hk] at h
    cases h
    exact ⟨kinds, rfl⟩

/-- A failure leaves the instance as it was. -/
theorem presolve_of_failed {inst : Instance α m n} {maxRounds : Int} {validates : Bool}
    (h : (inst.presolve maxRounds validates).failure ≠ none) :
    (inst.presolve maxRounds validates).inst = inst := by
  unfold presolve at h ⊢
  split
  · rfl
  · next p hp =>
    rw [hp] at h
    dsimp only at h ⊢
    split
    · rfl
    · next hnone =>
      rw [hnone] at h
      exact absurd rfl h

/-- An instance that is presolved without failure adopts what the schedule leaves of its
formulation. -/
theorem presolve_eq {inst : Instance α m n} {maxRounds : Int} {validates : Bool}
    (h : (inst.presolve maxRounds validates).failure = none) :
    ∃ p, inst.toFormulation = .ok p ∧
      let run := (Schedule.new maxRounds validates [()]).run tighteningOnly none p
      run.failure = none ∧ inst.presolve maxRounds validates =
        ⟨inst.adopt run.data, run.schedule, run.events, none⟩ := by
  unfold presolve at h ⊢
  cases hp : inst.toFormulation with
  | error cause => rw [hp] at h; cases h
  | ok p =>
    rw [hp] at h
    simp only at h ⊢
    cases hrun : ((Schedule.new maxRounds validates [()]).run tighteningOnly none p).failure with
    | some cause => rw [hrun] at h; cases h
    | none => exact ⟨p, rfl, hrun, rfl⟩

/-- That is what some passes make of it, none exactly when no round is allowed. -/
theorem exists_presolve {inst : Instance α m n} {maxRounds : Int} {validates : Bool}
    (h : (inst.presolve maxRounds validates).failure = none) :
    ∃ p k, inst.toFormulation = .ok p ∧ (k = 0 ↔ maxRounds ≤ 0) ∧
      (inst.presolve maxRounds validates).inst = inst.adopt (Formulation.tighten^[k] p) := by
  obtain ⟨p, hp, hrun, hpresolve⟩ := presolve_eq h
  obtain ⟨k, hk, hzero⟩ := exists_run_tighteningOnly validates hrun
  exact ⟨p, k, hp, hzero, by rw [hpresolve, hk]⟩

omit [Scalar α] in
theorem get_rows_adopt (inst : Instance α m n) (q : Formulation α m n) (i : Fin m) :
    (inst.adopt q).rows.get i = (inst.rows.get i).withRange (q.rows.get i).range := by
  simp [adopt, get_eq_getElem]

end Instance

end CoefficientTightening
