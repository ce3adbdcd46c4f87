import CoefficientTightening.Proofs.Binary64.Arithmetic
import CoefficientTightening.Proofs.PositionMap
import CoefficientTightening.Proofs.ReadModel
import CoefficientTightening.Proofs.RoundCalls
import CoefficientTightening.Proofs.TwoRounds

/-! When presolving fails. The formulation of an instance that was read has the right counts and two
storages of the same values, so that only three things can be wrong with it: a kind of variable that
is not known, a coefficient that is a NaN, and a column whose bounds are crossed. The first is found
before anything is set up, the other two by the check before the first round. No later check fails,
since tightening keeps a formulation consistent. -/
namespace CoefficientTightening

variable {α : Type} [Scalar α] {m n : Nat}

/-! ### Kinds -/

namespace VarKind

theorem eraseReps_eq_nil_iff {β : Type} [BEq β] {l : List β} : l.eraseReps = [] ↔ l = [] := by
  have hloop : ∀ (rest : List β) (x : β) (done : List β),
      List.eraseRepsBy.loop (· == ·) x rest done ≠ [] := by
    intro rest
    induction rest with
    | nil => simp [List.eraseRepsBy.loop]
    | cons y rest ih =>
      intro x done
      rw [List.eraseRepsBy.loop]
      split
      · exact ih x done
      · exact ih y (x :: done)
  cases l with
  | nil => simp [List.eraseReps, List.eraseRepsBy]
  | cons x rest => simp [List.eraseReps, List.eraseRepsBy, hloop]

theorem unknownTags_eq_nil_iff {kinds : List VarKind} :
    unknownTags kinds = [] ↔ ∀ kind ∈ kinds, kind.isKnown = true := by
  have hsort (l : List String) : (l.mergeSort fun a b => decide (a ≤ b)) = [] ↔ l = [] := by
    rw [← List.length_eq_zero_iff, List.length_mergeSort, List.length_eq_zero_iff]
  rw [unknownTags, eraseReps_eq_nil_iff, hsort, List.map_eq_nil_iff, List.filter_eq_nil_iff]
  simp

end VarKind

theorem kindLine_of_known {kinds : List VarKind} (hlength : kinds.length = n)
    (h : ∀ kind ∈ kinds, kind.isKnown = true) : ∃ v, kindLine n kinds = .ok v := by
  unfold kindLine
  rw [dif_pos hlength, VarKind.unknownTags_eq_nil_iff.mpr h]
  exact ⟨_, rfl⟩

theorem kindLine_of_unknown {kinds : List VarKind} (hlength : kinds.length = n)
    (h : ¬ ∀ kind ∈ kinds, kind.isKnown = true) :
    kindLine n kinds = .error (.unknownKinds (VarKind.unknownTags kinds)) := by
  unfold kindLine
  rw [dif_pos hlength]
  split
  · next hnil => exact absurd (VarKind.unknownTags_eq_nil_iff.mp hnil) h
  · rfl

/-! ### Shapes -/

theorem line_ofLine {β : Type} (name : String) (values : Vector β n) :
    line name n (.ofLine values.toList) = .ok values := by
  have hlength : values.toList.length = n := values.length_toList
  rw [line, Nested.toArray_eq_ok (Nested.shape_ofLine values.toList)]
  simp only [hlength, dite_true, Nested.leaves_ofLine]
  rfl

omit [Scalar α] in
theorem zipWith_mk (ranges : Vector (Interval α) n) :
    Vector.zipWith Interval.mk (ranges.map (·.lower)) (ranges.map (·.upper)) = ranges := by
  apply Vector.ext
  intro k hk
  rw [Vector.getElem_zipWith, Vector.getElem_map, Vector.getElem_map]

namespace Instance

def columnRanges (inst : Instance α m n) : Vector (Interval α) n :=
  inst.columns.map (·.range)

/-- The arrays of an instance as they are handed over. -/
def attributes (inst : Instance α m n) : Attributes α where
  columnLower := .ofLine (inst.columnRanges.map (·.lower)).toList
  columnUpper := .ofLine (inst.columnRanges.map (·.upper)).toList
  rowLower := .ofLine (inst.rowRanges.map (·.lower)).toList
  rowUpper := .ofLine (inst.rowRanges.map (·.upper)).toList
  kinds := inst.columns.toList.map (·.kind)
  active := none

/-- The arrays of an instance have the shapes that are checked for, so that only its kinds can be
refused. -/
theorem toFormulation_eq_ofAttributes (inst : Instance α m n) :
    inst.toFormulation =
      Formulation.ofAttributes (.ofRows inst.matrix.canonical) inst.attributes := by
  rw [Formulation.ofAttributes, attributes]
  simp only [line_ofLine, bind, Except.bind, zipWith_mk]
  rfl

end Instance

/-! ### Checks -/

namespace Sparse

/-- Some stored value is a NaN: it does not equal itself. -/
def Rows.HasNan (rows : Rows α m n) : Prop :=
  ∃ i, ∃ t ∈ rows.get i, (t.2 == t.2) = false

/-- Storages of the same values agree unless there is a NaN. -/
theorem Matrix.IsMirrored.agrees_iff {M : Matrix α m n} (h : M.IsMirrored) :
    M.agrees = true ↔ ¬ M.toRows.HasNan := by
  have hcell : ∀ i, ∀ c ∈ (M.rows.get i).toList,
      ((M.columns.get c.column)[c.slot]?.any fun e => c.value == e.value) =
        (c.value == c.value) := by
    intro i c hc
    rw [h i c hc]
    rfl
  unfold agrees Rows.HasNan
  simp only [List.all_eq_true, get_toRows, List.mem_map, not_exists, not_and, Bool.not_eq_false]
  constructor
  · rintro hall i _ ⟨c, hc, rfl⟩
    rw [← hcell i c hc]
    exact hall (M.rows.get i) (by simp [get_eq_getElem]) c hc
  · intro hall row hrow c hc
    obtain ⟨i, hi, rfl⟩ := List.getElem_of_mem hrow
    rw [hcell ⟨i, by simpa using hi⟩ c (by simpa [get_eq_getElem] using hc)]
    exact hall ⟨i, by simpa using hi⟩ _ ⟨c, by simpa [get_eq_getElem] using hc, rfl⟩

end Sparse

namespace Formulation

/-- Counts that were just taken are right. -/
theorem inconsistency?_ofRanges {M : Sparse.Matrix α m n} {rows : Vector (Interval α) m}
    {columns : Vector (Interval α) n} {kinds : Vector VarKind n} {active : Vector Bool n} :
    let p := ofRanges M rows columns kinds active
    p.inconsistency? = if M.agrees then p.crossedColumn? else some .storagesDiffer := by
  intro p
  have hrow : p.wrongRow? = none := by
    simp [p, wrongRow?, ofRanges, List.findSome?_eq_none_iff, get_eq_getElem]
  have hcolumn : p.wrongColumn? = none := by
    simp [p, wrongColumn?, ofRanges, List.findSome?_eq_none_iff, get_eq_getElem]
  rw [inconsistency?, hrow, hcolumn]
  rfl

theorem crossedColumn?_ne_none_iff {p : Formulation α m n} :
    p.crossedColumn? ≠ none ↔
      ∃ j, (p.columns.get j).active = true ∧
        (p.columns.get j).range.upper < (p.columns.get j).range.lower := by
  simp [crossedColumn?, List.findSome?_eq_none_iff]

end Formulation

/-! ### A run of tightening -/

/-- Without checks nothing fails; with them, only the check at the start. -/
theorem run_tighteningOnly_eq_or [RoundedScalar α] {p : Formulation α m n}
    (hlinked : p.matrix.IsLinked) (schedule : Schedule Unit α) (limit : Option Int) :
    let run := schedule.run tighteningOnly limit p
    run.failure = (if schedule.validates then p.inconsistency? else none) ∧
      (run.failure ≠ none → run = ⟨schedule, p, [], run.failure⟩) := by
  intro run
  cases hcheck : tighteningOnly.checkIf schedule.validates p with
  | some e =>
    have hrun : run = ⟨schedule, p, [], some e⟩ := Schedule.run_of_invalid hcheck
    rw [hrun]
    exact ⟨hcheck.symm, fun _ => rfl⟩
  | none =>
    suffices hnone : run.failure = none by
      rw [hnone]
      exact ⟨hcheck.symm, fun hsome => absurd rfl hsome⟩
    cases hvalidates : schedule.validates with
    | false =>
      -- an application of tightening returns, and nothing is checked after it
      refine (Schedule.run_of_passed hcheck fun k _ call hcall => ?_).1
      obtain ⟨i, hi⟩ := List.getElem?_of_mem hcall
      rw [Presolving.callsAt, Presolving.getElem?_calls, Option.map_eq_some_iff] at hi
      obtain ⟨_, -, rfl⟩ := hi
      rw [hvalidates]
      rfl
    | true =>
      rw [hvalidates] at hcheck
      have hsound : p.IsSound :=
        ⟨hlinked, (Formulation.inconsistency?_eq_none_iff hlinked).mp hcheck⟩
      have hrun : run = _ := Schedule.run_of_valid (hvalidates ▸ hcheck)
      rw [hrun]
      exact (repeatRounds_of_isSound _ _ _ _ hsound).1

/-! ### Presolving -/

namespace Instance

theorem presolve_of_malformed {inst : Instance α m n} {cause : Malformed}
    (h : inst.toFormulation = .error cause) (maxRounds : Int) (validates : Bool) :
    inst.presolve maxRounds validates =
      ⟨inst, .new maxRounds validates [()], [], some (.malformed cause)⟩ := by
  rw [presolve, h]

/-- Presolving data that makes a formulation: a failure is one of the check, before anything is
done. -/
theorem presolve_of_toFormulation [RoundedScalar α] {inst : Instance α m n} {p : Formulation α m n}
    (h : inst.toFormulation = .ok p) (maxRounds : Int) (validates : Bool) :
    let outcome := inst.presolve maxRounds validates
    outcome.failure =
        (if validates then p.inconsistency?.map Failure.inconsistent else none) ∧
      (outcome.failure ≠ none →
        outcome = ⟨inst, .new maxRounds validates [()], [], outcome.failure⟩) := by
  have hlinked : p.matrix.IsLinked := by
    rw [(isReadAs_of_toFormulation h).matrix]
    exact Sparse.Matrix.isLinked_ofRows_canonical _
  obtain ⟨hfailure, hearly⟩ :=
    run_tighteningOnly_eq_or hlinked (.new maxRounds validates [()]) none
  have hmap : (if validates then p.inconsistency?.map Failure.inconsistent else none) =
      (if validates then p.inconsistency? else none).map Failure.inconsistent := by
    cases validates <;> rfl
  rw [hmap, ← show _ = (if validates then p.inconsistency? else none) from hfailure]
  simp only [presolve, h]
  split
  · next cause hcause =>
    rw [hcause] at hearly ⊢
    rw [hearly (Option.some_ne_none cause)]
    exact ⟨rfl, fun _ => rfl⟩
  · next hnone =>
    rw [hnone]
    exact ⟨rfl, fun hsome => absurd rfl hsome⟩

theorem toFormulation_of_known {inst : Instance α m n}
    (h : ∀ j, (inst.columns.get j).kind.isKnown = true) : ∃ p, inst.toFormulation = .ok p := by
  obtain ⟨kinds, hkinds⟩ : ∃ v, kindLine n (inst.columns.toList.map (·.kind)) = .ok v := by
    refine kindLine_of_known (by simp) ?_
    intro kind hkind
    obtain ⟨c, hc, rfl⟩ := List.mem_map.mp hkind
    obtain ⟨j, hj, rfl⟩ := List.getElem_of_mem hc
    exact h ⟨j, by simpa using hj⟩
  rw [toFormulation, hkinds]
  exact ⟨_, rfl⟩

theorem toFormulation_of_unknown {inst : Instance α m n}
    (h : ∃ j, (inst.columns.get j).kind.isKnown = false) :
    inst.toFormulation =
      .error (.unknownKinds (VarKind.unknownTags (inst.columns.toList.map (·.kind)))) := by
  rw [toFormulation, kindLine_of_unknown (by simp)]
  · rfl
  · intro hall
    obtain ⟨j, hj⟩ := h
    rw [hall _ (List.mem_map.mpr ⟨inst.columns.get j, by simp [get_eq_getElem], rfl⟩)] at hj
    cases hj

/-- What can be wrong with the formulation of an instance. -/
theorem inconsistency?_of_toFormulation {inst : Instance α m n} {p : Formulation α m n}
    (hrows : ∀ i, Sparse.HasIncreasingColumns (inst.matrix.get i))
    (h : inst.toFormulation = .ok p) :
    p.inconsistency? ≠ none ↔ inst.matrix.HasNan ∨
      ∃ j, (inst.columns.get j).range.upper < (inst.columns.get j).range.lower := by
  have hp := isReadAs_of_toFormulation h
  have hmirrored : p.matrix.IsMirrored := by
    rw [hp.matrix]
    exact Sparse.Matrix.isMirrored_ofRows _
  have hfresh : p.inconsistency? =
      if p.matrix.agrees then p.crossedColumn? else some .storagesDiffer := by
    obtain ⟨kinds, rfl⟩ := exists_ofRanges_of_toFormulation h
    exact Formulation.inconsistency?_ofRanges
  have hagrees := hmirrored.agrees_iff
  rw [hp.toRows_eq hrows] at hagrees
  have hcrossed := Formulation.crossedColumn?_ne_none_iff (p := p)
  simp only [hp.active, hp.columnRange, true_and] at hcrossed
  rw [hfresh]
  by_cases hnan : inst.matrix.HasNan
  · rw [if_neg (mt hagrees.mp (not_not.mpr hnan))]
    exact iff_of_true (Option.some_ne_none _) (.inl hnan)
  · rw [if_pos (hagrees.mpr hnan), hcrossed, or_iff_right hnan]

variable {model : Model α} {inst : Instance α model.height model.width}

/-- Presolving a model that was read fails over an unknown kind of variable, else over a NaN or
crossed bounds if it validates, and over nothing else. Where it fails, it has done nothing. -/
theorem presolve_fails_iff [RoundedScalar α] (hread : model.toInstance = .ok inst)
    (maxRounds : Int) (validates : Bool) :
    let outcome := inst.presolve maxRounds validates
    let unknown := ∃ v ∈ model.vars, v.kind.isKnown = false
    let crossed := ∃ v ∈ model.vars, v.range.upper < v.range.lower
    (∀ cause, outcome.failure = some (.malformed cause) ↔
      unknown ∧ cause = .unknownKinds (VarKind.unknownTags (model.vars.map (·.kind)))) ∧
    ((∃ cause, outcome.failure = some (.inconsistent cause)) ↔
      ¬ unknown ∧ validates = true ∧ (inst.matrix.HasNan ∨ crossed)) ∧
    (outcome.failure ≠ none →
      outcome = ⟨inst, .new maxRounds validates [()], [], outcome.failure⟩) := by
  have hinst := Model.toInstance_eq_ok_iff.mp hread
  intro outcome unknown crossed
  have hunknown : (∃ j, (inst.columns.get j).kind.isKnown = false) ↔ unknown :=
    hinst.exists_column_iff (P := fun c => c.kind.isKnown = false)
  have hcrossed : (∃ j, (inst.columns.get j).range.upper < (inst.columns.get j).range.lower) ↔
      crossed :=
    hinst.exists_column_iff (P := fun c => c.range.upper < c.range.lower)
  have hkinds : inst.columns.toList.map (·.kind) = model.vars.map (·.kind) := by
    rw [hinst.columns, List.map_map]
    rfl
  by_cases h : unknown
  · have hout : outcome = _ :=
      presolve_of_malformed (toFormulation_of_unknown (hunknown.mpr h)) maxRounds validates
    rw [hkinds] at hout
    rw [hout]
    refine ⟨fun cause => ?_, ?_, fun _ => rfl⟩
    · simp [h, eq_comm]
    · simp [h]
  · have hknown : ∀ j, (inst.columns.get j).kind.isKnown = true := by
      intro j
      rw [← Bool.not_eq_false]
      exact fun hj => h (hunknown.mp ⟨j, hj⟩)
    obtain ⟨p, hp⟩ := toFormulation_of_known hknown
    obtain ⟨hfailure, hnothing⟩ := presolve_of_toFormulation hp maxRounds validates
    have hsome := inconsistency?_of_toFormulation hinst.increasing hp
    rw [hcrossed] at hsome
    refine ⟨fun cause => ?_, ?_, hnothing⟩
    · rw [hfailure]
      cases validates <;> cases p.inconsistency? <;> simp [h]
    · rw [hfailure, ← hsome]
      cases validates <;> cases p.inconsistency? <;> simp [h]

/-- Two continuous variables and one constraint; the bounds of `y` are crossed. -/
def crossedBounds : Model Float where
  vars := [⟨"x", -1e100, 1, .continuous, 1⟩, ⟨"y", 2, 1, .continuous, 1⟩]
  constraints := [⟨"c", [(0, 1), (1, 1)], "<", 2⟩]
  direction := 1
  constant := 0

def crossedBoundsRead : Instance Float 1 2 where
  columns := #v[⟨"x", ⟨-(1 / 0), 1⟩, .continuous, 1⟩, ⟨"y", ⟨2, 1⟩, .continuous, 1⟩]
  rows := #v[⟨"c", .atMost, 2⟩]
  matrix := #v[[(0, 1), (Fin.last 1, 1)]]
  direction := 1
  constant := 0

/-- The crossed bounds are an error if and only if the run validates, even with no round. -/
theorem crossedBounds_fail :
    crossedBounds.toInstance = .ok crossedBoundsRead ∧
    (∃ cause, (crossedBoundsRead.presolve 0 true).failure = some (.inconsistent cause)) ∧
    (crossedBoundsRead.presolve 0 true).inst = crossedBoundsRead ∧
    ¬ ∃ cause, (crossedBoundsRead.presolve 10 false).failure = some (.inconsistent cause) := by
  have hread : crossedBounds.toInstance = .ok crossedBoundsRead := by decide +kernel
  obtain ⟨-, hchecked, hnothing⟩ := presolve_fails_iff hread 0 true
  obtain ⟨-, hunchecked, -⟩ := presolve_fails_iff hread 10 false
  have hfailure := hchecked.mpr
    ⟨by decide +kernel, rfl, .inr ⟨_, List.mem_cons_of_mem _ List.mem_cons_self, by decide +kernel⟩⟩
  refine ⟨hread, hfailure, ?_, fun h => Bool.false_ne_true (hunchecked.mp h).2.1⟩
  obtain ⟨cause, hcause⟩ := hfailure
  exact congrArg Presolved.inst (hnothing (by rw [hcause]; exact Option.some_ne_none _))

end Instance

end CoefficientTightening
