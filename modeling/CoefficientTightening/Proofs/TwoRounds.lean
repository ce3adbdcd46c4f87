import CoefficientTightening.Proofs.InstancePoints
import CoefficientTightening.Proofs.ReductionLog

/-! What follows from one pass being enough, in exact arithmetic. A schedule of tightening alone does
all its work in the first application of its first round; if that changed anything, a second round
finds nothing left. A later run is one round that finds nothing. An instance that was presolved and is
presolved again is read into a formulation with the same rows, although its slots are numbered anew;
no row has anything left to change, and the instance adopts what it had. -/
namespace CoefficientTightening

open Extended (finite infinite nan)
open Formulation (mixedRow)
open Tightening (walk)

/-! ### Formulations without changes -/

section Settled

variable {α : Type} [Scalar α] {m n : Nat} {p : Formulation α m n}

/-- A pass finds nothing to change. -/
def Formulation.IsSettled (p : Formulation α m n) : Prop :=
  ∀ i, p.rowTightenings i = []

theorem Formulation.IsSettled.data_tighteningPass (h : p.IsSettled) :
    p.tighteningPass.data = p := by
  rw [Formulation.data_tighteningPass, Formulation.tighten, Formulation.tightenRows_eq _ h]

theorem Formulation.IsSettled.reductions_tighteningPass (h : p.IsSettled) :
    p.tighteningPass.reductions = [] := by
  rw [Formulation.reductions_tighteningPass, Formulation.tightenings,
    Formulation.tightenRows_eq _ h]
  rfl

/-! ### Rounds of tightening -/

variable {validates : Bool}

theorem applyAll_of_isSettled (presolvers : List Unit) (h : p.IsSettled)
    (hcheck : tighteningOnly.checkIf validates p = none) :
    let a := tighteningOnly.applyAll validates presolvers p
    a.presolvers = presolvers ∧ a.data = p ∧ a.reductions = [] ∧ a.failure = none := by
  induction presolvers with
  | nil => exact ⟨rfl, rfl, rfl, rfl⟩
  | cons presolver rest ih =>
    obtain ⟨hpresolvers, hdata, hreductions, hfailure⟩ := ih
    simp only [Presolving.applyAll, tighteningOnly, h.data_tighteningPass,
      h.reductions_tighteningPass] at hcheck hpresolvers hdata hreductions hfailure ⊢
    rw [hcheck]
    exact ⟨congrArg _ hpresolvers, hdata, hreductions, hfailure⟩

/-- The first of the applications does everything. -/
theorem applyAll_of_isSettled_tighten {presolvers : List Unit} (hsome : presolvers ≠ [])
    (h : p.tighten.IsSettled) (hcheck : tighteningOnly.checkIf validates p.tighten = none) :
    let a := tighteningOnly.applyAll validates presolvers p
    a.presolvers = presolvers ∧ a.data = p.tighten ∧
      a.reductions = p.tighteningPass.reductions ∧ a.failure = none := by
  cases presolvers with
  | nil => exact absurd rfl hsome
  | cons presolver rest =>
    obtain ⟨hpresolvers, hdata, hreductions, hfailure⟩ := applyAll_of_isSettled rest h hcheck
    simp only [Presolving.applyAll, tighteningOnly, Formulation.data_tighteningPass]
      at hcheck hpresolvers hdata hreductions hfailure ⊢
    rw [hcheck]
    refine ⟨congrArg _ hpresolvers, hdata, ?_, hfailure⟩
    simp only [hreductions, List.append_nil]

/-- Rounds on settled data: the first one finds nothing. -/
theorem repeatRounds_of_isSettled {left : Nat} (hleft : left ≠ 0) (number : Nat)
    (presolvers : List Unit) (h : p.IsSettled)
    (hcheck : tighteningOnly.checkIf validates p = none) :
    let r := tighteningOnly.repeatRounds validates left number presolvers p
    r.presolvers = presolvers ∧ r.data = p ∧ r.reductions = [] ∧ r.rounds = 1 ∧
      r.failure = none := by
  obtain ⟨left, rfl⟩ := Nat.exists_eq_succ_of_ne_zero hleft
  obtain ⟨hpresolvers, hdata, hreductions, hfailure⟩ := applyAll_of_isSettled presolvers h hcheck
  simp only [Presolving.repeatRounds, hfailure, hreductions, Option.isSome_none, Bool.false_eq_true,
    if_false, List.isEmpty_nil, if_true]
  exact ⟨hpresolvers, hdata, trivial, trivial, trivial⟩

/-- Rounds on data that one pass settles: the second one, if it comes to it, finds nothing. -/
theorem repeatRounds_of_isSettled_tighten {left : Nat} (hleft : 2 ≤ left) (number : Nat)
    {presolvers : List Unit} (hsome : presolvers ≠ []) (h : p.tighten.IsSettled)
    (hcheck : tighteningOnly.checkIf validates p.tighten = none) :
    let r := tighteningOnly.repeatRounds validates left number presolvers p
    r.presolvers = presolvers ∧ r.data = p.tighten ∧
      r.reductions = p.tighteningPass.reductions ∧
      r.rounds = (if p.tighteningPass.reductions.isEmpty then 1 else 2) ∧ r.failure = none := by
  obtain ⟨left, rfl⟩ : ∃ k, left = k + 1 := ⟨left - 1, by omega⟩
  obtain ⟨hpresolvers, hdata, hreductions, hfailure⟩ :=
    applyAll_of_isSettled_tighten hsome h hcheck
  simp only [Presolving.repeatRounds, hfailure, hreductions, Option.isSome_none, Bool.false_eq_true,
    if_false]
  split
  · exact ⟨hpresolvers, hdata, rfl, rfl, rfl⟩
  · obtain ⟨hpresolvers', hdata', hreductions', hrounds, hfailure'⟩ :=
      repeatRounds_of_isSettled (show left ≠ 0 by omega) (number + 1) presolvers h hcheck
    rw [hpresolvers, hdata]
    exact ⟨hpresolvers', hdata', by simp only [hreductions', List.append_nil],
      by simp only [hrounds], hfailure'⟩

/-- A run on settled data applies nothing. -/
theorem run_of_isSettled (maxRounds : Int) (validates : Bool) (h : p.IsSettled) :
    let r := (Schedule.new maxRounds validates [()]).run tighteningOnly none p
    r.schedule.applied = [] ∧ r.data = p := by
  unfold Schedule.run
  split
  · exact ⟨rfl, rfl⟩
  · next hcheck =>
    rcases Nat.eq_zero_or_pos maxRounds.toNat with hzero | hpos
    · simp only [Schedule.new, Option.getD_none, hzero]
      exact ⟨rfl, rfl⟩
    · obtain ⟨-, hdata, hreductions, -⟩ :=
        repeatRounds_of_isSettled hpos.ne' 1 [()] h hcheck
      simp only [Schedule.new, Option.getD_none, List.nil_append]
      exact ⟨hreductions, hdata⟩

/-! ### Rows that differ in their slots -/

theorem walk_congr_cells (columns : Vector (Column α) n) (row : Fin m) (side : Side)
    (position : Nat) (bound total : α) {cells cells' : List (Sparse.Cell α n)}
    (h : cells'.map (fun c => (c.column, c.value)) = cells.map fun c => (c.column, c.value)) :
    walk columns row side position bound total cells' =
      walk columns row side position bound total cells := by
  induction cells generalizing position bound total cells' with
  | nil => rw [List.map_eq_nil_iff.mp h]
  | cons c rest ih =>
    cases cells' with
    | nil => cases h
    | cons c' rest' =>
      obtain ⟨hhead, hrest⟩ := List.cons.inj h
      obtain ⟨hcolumn, hvalue⟩ := Prod.mk.inj hhead
      simp only [walk, hcolumn, hvalue, ih _ _ _ hrest]

/-- What a pass changes in a row does not depend on the slots of its cells. -/
theorem Formulation.rowTightenings_congr_toRows {q : Formulation α m n} {i : Fin m}
    (hcells : q.matrix.toRows.get i = p.matrix.toRows.get i)
    (hrange : (q.rows.get i).range = (p.rows.get i).range)
    (hcols : ∀ j, (p.columns.get j).Alike (q.columns.get j)) :
    q.rowTightenings i = p.rowTightenings i := by
  rw [Sparse.Matrix.get_toRows, Sparse.Matrix.get_toRows] at hcells
  have hmap : ∀ {γ : Type} (f : Fin n × α → γ),
      (q.matrix.rows.get i).toList.map (fun c => f (c.column, c.value)) =
        (p.matrix.rows.get i).toList.map fun c => f (c.column, c.value) := by
    intro γ f
    have h := congrArg (List.map f) hcells
    rwa [List.map_map, List.map_map] at h
  have hterms : q.rowTerms i = p.rowTerms i := by
    have h := hmap fun t => (t.2, (p.columns.get t.1).range)
    simp only [Formulation.rowTerms, (hcols _).range]
    exact h
  have hany : ((q.matrix.rows.get i).toList.any fun c => q.columnIsIntegral c.column) =
      (p.matrix.rows.get i).toList.any fun c => p.columnIsIntegral c.column := by
    have h := congrArg (List.any · id) (hmap fun t => p.columnIsIntegral t.1)
    simp only [List.any_map] at h
    simp only [Formulation.columnIsIntegral, (hcols _).kind]
    exact h
  simp only [Formulation.rowTightenings, Formulation.rowActivity, hrange, hterms, hany,
    Tightening.walk_congr hcols, walk_congr_cells _ _ _ _ _ _ hcells]

end Settled

/-! ### Presolving again -/

namespace Instance

section Again

variable {α : Type} [Scalar α] {m n : Nat} {inst : Instance α m n} {p q : Formulation α m n}

omit [Scalar α] in
theorem get_columns_toRows (M : Sparse.Matrix α m n) (i : Fin m) :
    (M.toRows.get i).map (·.1) = (M.places i).map (·.1) := by
  rw [Sparse.Matrix.get_toRows, Sparse.Matrix.places, List.map_map, List.map_map]
  rfl

theorem withRange_range (r : InstanceRow α) : r.withRange r.range = r := by
  obtain ⟨name, sense, bound⟩ := r
  cases sense <;> rfl

/-- The formulation of an instance with rows by increasing column stores these rows. -/
theorem IsReadAs.toRows_eq (h : inst.IsReadAs p)
    (hrows : ∀ i, Sparse.HasIncreasingColumns (inst.matrix.get i)) :
    p.matrix.toRows = inst.matrix := by
  apply vector_ext
  intro i
  rw [h.matrix, Sparse.Rows.canonical_of_increasing hrows, Sparse.Matrix.get_toRows_ofRows]

/-- An instance with rows by increasing column adopts its own formulation without a change. -/
theorem IsReadAs.adopt_eq (h : inst.IsReadAs p)
    (hrows : ∀ i, Sparse.HasIncreasingColumns (inst.matrix.get i)) : inst.adopt p = inst := by
  have hmatrix := h.toRows_eq hrows
  have hrange : (inst.adopt p).rows = inst.rows := by
    apply vector_ext
    intro i
    rw [get_rows_adopt, h.rowRange, withRange_range]
  calc inst.adopt p
      = { inst with matrix := p.matrix.toRows, rows := (inst.adopt p).rows } := rfl
    _ = inst := by rw [hmatrix, hrange]

/-- Presolving an instance whose formulation is settled applies nothing and changes nothing. -/
theorem presolve_of_isSettled (hrows : ∀ i, Sparse.HasIncreasingColumns (inst.matrix.get i))
    (h : ∀ p, inst.toFormulation = .ok p → p.IsSettled) (maxRounds : Int) (validates : Bool) :
    (inst.presolve maxRounds validates).schedule.applied = [] ∧
      (inst.presolve maxRounds validates).inst = inst := by
  unfold presolve
  cases hp : inst.toFormulation with
  | error cause => exact ⟨rfl, rfl⟩
  | ok p =>
    obtain ⟨happlied, hdata⟩ := run_of_isSettled maxRounds validates (h p hp)
    simp only
    split
    · exact ⟨happlied, rfl⟩
    · rw [hdata]
      exact ⟨happlied, (isReadAs_of_toFormulation hp).adopt_eq hrows⟩

end Again

variable {m n : Nat} {inst : Instance Extended m n}

/-- An adopted pass has rows by increasing column. -/
theorem IsReadAs.increasing_adopt {p : Formulation Extended m n} (hp : inst.IsReadAs p) (i : Fin m) :
    Sparse.HasIncreasingColumns ((inst.adopt p.tighten).matrix.get i) := by
  have hlinked : p.tighten.matrix.IsLinked := by
    apply p.sameShape_tighten.isLinked
    rw [hp.matrix]
    exact Sparse.Matrix.isLinked_ofRows_canonical _
  have hcolumns := hlinked.rows_increasing i
  rwa [Sparse.HasIncreasingColumns, ← get_columns_toRows] at hcolumns

/-- An adopted pass is read into a formulation that is settled. -/
theorem IsReadAs.isSettled_adopt {p q : Formulation Extended m n} (hp : inst.IsReadAs p)
    (hnum : p.IsNumeric) (hq : (inst.adopt p.tighten).IsReadAs q) : q.IsSettled := by
  intro i
  have hsame : q.rowTightenings i = p.tighten.rowTightenings i := by
    apply Formulation.rowTightenings_congr_toRows
    · rw [hq.matrix, Sparse.Rows.canonical_of_increasing hp.increasing_adopt,
        Sparse.Matrix.get_toRows_ofRows]
      rfl
    · rw [hq.rowRange, get_rows_adopt]
      refine InstanceRow.Describes.tighten ?_
      rw [hp.rowRange]
      exact InstanceRow.describes_range _
    · intro j
      refine (p.alike_tighten j).symm.trans ⟨?_, ?_, ?_⟩
      · rw [hq.columnRange, hp.columnRange]
        rfl
      · rw [hq.kind, hp.kind]
        rfl
      · rw [hq.active, hp.active]
  rw [hsame]
  exact Formulation.rowTightenings_tighten (hnum i)

end Instance

/-- One pass reaches a fixed point. A second pass finds nothing; a schedule of tightening alone needs
a second round only to find nothing, and every later run is such a round; and presolving a presolved
instance leaves it as it is. -/
theorem tighten_reaches_fixed_point (m n : Nat) :
    (∀ p : Formulation Extended m n, p.IsNumeric →
      p.tighten.tighteningPass.reductions = [] ∧ p.tighten.tighteningPass.data = p.tighten) ∧
    (∀ (p : Formulation Extended m n) (schedule : Schedule Unit Extended) (limit : Option Int),
      p.IsNumeric → schedule.presolvers ≠ [] → 2 ≤ limit.getD schedule.maxRounds →
      (schedule.validates = true → p.matrix.IsLinked ∧ p.inconsistency? = none) →
      let first := schedule.run tighteningOnly limit p
      first.failure = none ∧ first.data = p.tighteningPass.data ∧
      first.schedule.applied = schedule.applied ++ p.tighteningPass.reductions ∧
      first.schedule.rounds =
        schedule.rounds + (if p.tighteningPass.reductions.isEmpty then 1 else 2) ∧
      ∀ limit' : Option Int, 1 ≤ limit'.getD schedule.maxRounds →
        let later := first.schedule.run tighteningOnly limit' first.data
        later.failure = none ∧ later.data = first.data ∧
        later.schedule.applied = first.schedule.applied ∧
        later.schedule.rounds = first.schedule.rounds + 1) ∧
    ∀ (inst : Instance Extended m n) (maxRounds maxRounds' : Int) (validates validates' : Bool),
      (∀ p, inst.toFormulation = .ok p → p.IsNumeric) → 1 ≤ maxRounds →
      let first := inst.presolve maxRounds validates
      first.failure = none →
      let second := first.inst.presolve maxRounds' validates'
      second.schedule.applied = [] ∧ second.inst = first.inst := by
  have hsettled : ∀ p : Formulation Extended m n, p.IsNumeric → p.tighten.IsSettled :=
    fun p hnum i => Formulation.rowTightenings_tighten (hnum i)
  refine ⟨fun p hnum => ?_, fun p schedule limit hnum hsome hlimit hvalid => ?_,
    fun inst maxRounds maxRounds' validates validates' hnum hpos => ?_⟩
  · exact ⟨(hsettled p hnum).reductions_tighteningPass, (hsettled p hnum).data_tighteningPass⟩
  · have hchecks : tighteningOnly.checkIf schedule.validates p = none ∧
        tighteningOnly.checkIf schedule.validates p.tighten = none := by
      cases hv : schedule.validates with
      | false => exact ⟨rfl, rfl⟩
      | true =>
        obtain ⟨hlinked, hnone⟩ := hvalid hv
        have hsound : p.IsSound :=
          ⟨hlinked, (Formulation.inconsistency?_eq_none_iff hlinked).mp hnone⟩
        exact ⟨hsound.checkIf true, hsound.tighten.checkIf true⟩
    obtain ⟨hpresolvers, hdata, hreductions, hrounds, hfailure⟩ :=
      repeatRounds_of_isSettled_tighten
        (show 2 ≤ (limit.getD schedule.maxRounds).toNat by omega) 1 hsome (hsettled p hnum) hchecks.2
    simp only [Schedule.run, hchecks.1, hpresolvers, hdata, hreductions, hrounds, hfailure,
      Option.isSome_none, Bool.false_eq_true, if_false, true_and]
    refine ⟨rfl, fun limit' hlimit' => ?_⟩
    obtain ⟨-, hdata', hreductions', hrounds', hfailure'⟩ :=
      repeatRounds_of_isSettled (show (limit'.getD schedule.maxRounds).toNat ≠ 0 by omega) 1
        schedule.presolvers (hsettled p hnum) hchecks.2
    simp only [hchecks.2, hdata', hreductions', hrounds', hfailure', Option.isSome_none,
      Bool.false_eq_true, if_false, List.append_nil, true_and]
  · intro first hfirst
    obtain ⟨p, k, hp, hzero, hinst⟩ := Instance.exists_presolve hfirst
    obtain ⟨k, rfl⟩ := Nat.exists_eq_succ_of_ne_zero (show k ≠ 0 by omega)
    rw [Formulation.iterate_tighten_succ (hnum p hp)] at hinst
    show (first.inst.presolve maxRounds' validates').schedule.applied = [] ∧
      (first.inst.presolve maxRounds' validates').inst = first.inst
    rw [hinst]
    have hread := Instance.isReadAs_of_toFormulation hp
    exact Instance.presolve_of_isSettled hread.increasing_adopt
      (fun q hq => hread.isSettled_adopt (hnum p hp) (Instance.isReadAs_of_toFormulation hq)) _ _

/-- An instance that is read into the row `4 x₀ - 3 x₁ + x₂ ≤ 10` and its columns. -/
def mixedInstance : Instance Extended 1 3 where
  columns :=
    #v[⟨"x0", ⟨finite 0, finite 2⟩, .integer, finite 1⟩,
      ⟨"x1", ⟨finite (-1), finite 1⟩, .integer, finite 1⟩,
      ⟨"x2", ⟨finite 0, finite 1⟩, .continuous, finite 1⟩]
  rows := #v[⟨"c0", .atMost, finite 10⟩]
  matrix := (mixedRow 10 2).matrix.toRows
  direction := 1
  constant := finite 0

/-- Two rounds of two applications each; then one more round; and an instance presolved twice. -/
theorem mixedRow_two_rounds :
    (mixedRow 10 2).tighten.tighteningPass.reductions.length = 0 ∧
    ((Schedule.new 5 true [(), ()]).run tighteningOnly none (mixedRow 10 2)).schedule.rounds = 2 ∧
    ((mixedInstance.presolve 5 true).inst.presolve 5 true).inst =
      (mixedInstance.presolve 5 true).inst := by
  obtain ⟨hpass, hrun, hinst⟩ := tighten_reaches_fixed_point 1 3
  have hnum : (mixedRow 10 2).IsNumeric := by
    unfold Formulation.IsNumeric
    decide +kernel
  have hread : mixedInstance.toFormulation = .ok (mixedRow 10 2) := by decide +kernel
  refine ⟨?_, ?_, ?_⟩
  · rw [(hpass _ hnum).1]
    rfl
  · obtain ⟨-, -, -, hrounds, -⟩ := hrun (mixedRow 10 2) (.new 5 true [(), ()]) none hnum
      (by simp [Schedule.new]) (by decide)
      fun _ => ⟨Formulation.isLinked_mixedRow 10 2, by decide +kernel⟩
    rw [hrounds]
    decide +kernel
  · refine (hinst mixedInstance 5 5 true true (fun p hp => ?_) (by decide) (by decide +kernel)).2
    rw [hread] at hp
    cases hp
    exact hnum

end CoefficientTightening
