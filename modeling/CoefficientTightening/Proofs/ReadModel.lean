import CoefficientTightening.Instance
import CoefficientTightening.Proofs.GivenEntries
import CoefficientTightening.Proofs.LinkedStorages

/-! An instance that was read, part by part. Variables become columns in order, constraints become
rows in order, and the terms of each constraint become a row of the matrix, by increasing column. A
model can be read exactly if its senses are known and the columns of its terms are in range. -/
namespace CoefficientTightening

/-! ### Columns in range -/

namespace Sparse

theorem checkAxis_eq_ok_iff {axis : Axis} {size : Nat} {indices : List Int} :
    checkAxis axis size indices = .ok () ↔ ∀ k ∈ indices, 0 ≤ k ∧ k < size := by
  refine ⟨fun h k hk => ?_, checkAxis_eq_ok axis⟩
  unfold checkAxis at h
  split at h
  · next high low hhigh hlow =>
    have hle := (List.max?_eq_some_iff.mp hhigh).2 k hk
    have hge := (List.min?_eq_some_iff.mp hlow).2 k hk
    split at h
    · cases h
    · split at h
      · cases h
      · omega
  · next hnone =>
    obtain ⟨low, hlow⟩ := Option.isSome_iff_exists.mp (List.isSome_min?_of_mem hk)
    obtain ⟨high, hhigh⟩ := Option.isSome_iff_exists.mp (List.isSome_max?_of_mem hk)
    exact absurd hlow (hnone high low hhigh)

theorem checkWords_eq_ok_iff {indices : List Int} :
    checkWords indices = .ok () ↔ ∀ k ∈ indices, fitsWord k = true := by
  refine ⟨fun h => ?_, checkWords_eq_ok⟩
  unfold checkWords at h
  split at h
  · next hall => exact List.all_eq_true.mp hall
  · cases h

/-- An entry of a row as a term of a constraint. -/
def term {α : Type} {n : Nat} (t : Fin n × α) : Int × α := ((t.1 : Nat), t.2)

theorem exists_map_term {α : Type} {n : Nat} {terms : List (Int × α)}
    (h : ∀ t ∈ terms, 0 ≤ t.1 ∧ t.1 < n) : ∃ row : List (Fin n × α), terms = row.map term := by
  refine ⟨terms.attach.map fun t => (⟨t.1.1.toNat, ?_⟩, t.1.2), ?_⟩
  · have := h t.1 t.2
    omega
  · rw [List.map_map]
    conv_lhs => rw [← List.attach_map_subtype_val terms]
    apply List.map_congr_left
    intro t _
    exact Prod.ext (Int.toNat_of_nonneg (h t.1 t.2).1).symm rfl

end Sparse

variable {α : Type} [Scalar α]

/-- The column that a variable is read into. -/
def Variable.column (v : Variable α) : InstanceColumn α :=
  ⟨v.name, v.range, v.kind, v.objective⟩

namespace Model

/-! ### Terms -/

section Terms

variable {model : Model α}

omit [Scalar α] in
theorem checkTerms_eq_ok_iff : model.checkTerms = .ok () ↔
    ∀ c ∈ model.constraints, ∀ t ∈ c.terms, fitsWord t.1 = true ∧ 0 ≤ t.1 ∧ t.1 < model.width := by
  have hmem : ∀ k, k ∈ model.entries.map (·.2.1) ↔
      ∃ c ∈ model.constraints, ∃ t ∈ c.terms, t.1 = k := by
    intro k
    have hentries : model.entries.map (·.2.1) =
        model.constraints.zipIdx.flatMap fun c => c.1.terms.map (·.1) := by
      rw [entries, List.map_flatMap]
      simp only [List.map_map, Function.comp_def]
    have hlines : (model.constraints.zipIdx.flatMap fun c => c.1.terms.map (·.1)) =
        model.constraints.flatMap fun c => c.terms.map (·.1) := by
      conv_rhs => rw [← List.zipIdx_map_fst 0 model.constraints, List.flatMap_map]
    rw [hentries, hlines]
    simp only [List.mem_flatMap, List.mem_map]
  have hall : ∀ P : Int → Prop, (∀ k ∈ model.entries.map (·.2.1), P k) ↔
      ∀ c ∈ model.constraints, ∀ t ∈ c.terms, P t.1 := by
    intro P
    constructor
    · exact fun h c hc t ht => h _ ((hmem _).mpr ⟨c, hc, t, ht, rfl⟩)
    · intro h k hk
      obtain ⟨c, hc, t, ht, rfl⟩ := (hmem k).mp hk
      exact h c hc t ht
  have hwords : Sparse.checkWords (model.entries.map (·.2.1)) = .ok () ↔ _ :=
    Sparse.checkWords_eq_ok_iff
  have haxis : Sparse.checkAxis .column model.width (model.entries.map (·.2.1)) = .ok () ↔ _ :=
    Sparse.checkAxis_eq_ok_iff
  rw [hall] at hwords haxis
  unfold checkTerms
  cases hw : Sparse.checkWords (model.entries.map (·.2.1)) with
  | error e =>
    refine iff_of_false (by simp [bind, Except.bind, hw]) fun h => ?_
    rw [hwords.mpr fun c hc t ht => (h c hc t ht).1] at hw
    cases hw
  | ok =>
    simp only [hw, bind, Except.bind]
    rw [haxis]
    exact ⟨fun h c hc t ht => ⟨hwords.mp hw c hc t ht, h c hc t ht⟩,
      fun h c hc t ht => (h c hc t ht).2⟩

/-- The terms of a constraint make its row of the matrix. -/
theorem get_matrix {i : Fin model.height} {row : List (Fin model.width × α)}
    (h : model.constraints[i].terms = row.map Sparse.term) :
    model.matrix.get i = Sparse.canonicalRow row := by
  rw [matrix, Sparse.Rows.get_canonical, Sparse.get_groupRows]
  congr 1
  let line (c : Constraint α) (k : Nat) : List (Fin model.width × α) :=
    ((((c.terms.map fun t => ((k : Int), t.1, t.2)).filterMap fun e =>
      Sparse.entry? model.height model.width e.1 e.2.1 e.2.2).filter fun e => e.row = i).map
        fun e => (e.column, e.value))
  have hlines : ((model.entries.filterMap fun e =>
      Sparse.entry? model.height model.width e.1 e.2.1 e.2.2).filter fun e => e.row = i).map
        (fun e => (e.column, e.value)) =
      model.constraints.zipIdx.flatMap fun c => line c.1 c.2 := by
    rw [entries, List.filterMap_flatMap, List.filter_flatMap, List.map_flatMap]
  have hother : ∀ c k, k ≠ 0 + (i : Nat) → line c k = [] := by
    intro c k hk
    rw [List.map_eq_nil_iff, List.filter_eq_nil_iff]
    intro e he hrow
    obtain ⟨t, ht, hentry⟩ := List.mem_filterMap.mp he
    obtain ⟨t', -, rfl⟩ := List.mem_map.mp ht
    have hplace := congrArg Prod.fst
      (Sparse.place_of_entry? (p := ((k : Int), t'.1)) hentry).1
    simp only [Sparse.place, of_decide_eq_true hrow] at hplace
    omega
  rw [hlines, Sparse.flatMap_zipIdx_eq line _ 0 i hother]
  have hat : model.constraints[(i : Nat)]? = some model.constraints[i] := by simp
  rw [hat, Option.map_some, Option.getD_some, zero_add]
  have hentries : ((row.map Sparse.term).map fun t => (((i : Nat) : Int), t.1, t.2)).filterMap
      (fun e => Sparse.entry? model.height model.width e.1 e.2.1 e.2.2) =
      row.map fun t => ⟨i, t.1, t.2⟩ := by
    rw [List.filterMap_map, List.filterMap_map]
    rw [← List.filterMap_eq_map']
    exact congrArg (List.filterMap · row) (funext fun t => Sparse.entry?_place i t.1 t.2)
  simp only [line, h, hentries]
  rw [List.filter_eq_self.mpr, List.map_map]
  · exact List.map_id row
  · intro e he
    obtain ⟨t, -, rfl⟩ := List.mem_map.mp he
    exact decide_eq_true rfl

end Terms

/-! ### Parts -/

omit [Scalar α] in
theorem readRows_eq_ok_iff {constraints : List (Constraint α)} {rows : List (InstanceRow α)} :
    readRows constraints = .ok rows ↔ List.Forall₂ (fun c r => c.row = .ok r) constraints rows := by
  induction constraints generalizing rows with
  | nil =>
    rw [readRows, List.forall₂_nil_left_iff, Except.ok.injEq]
    exact eq_comm
  | cons c rest ih =>
    rw [List.forall₂_cons_left_iff, readRows]
    cases hrow : c.row with
    | error e => simp
    | ok r =>
      cases hrest : readRows rest with
      | error e =>
        simp only [Except.map, reduceCtorEq, false_iff]
        rintro ⟨_, later, -, hlater, -⟩
        rw [ih.mpr hlater] at hrest
        cases hrest
      | ok later =>
        simp only [Except.map, Except.ok.injEq]
        constructor
        · rintro rfl
          exact ⟨r, later, rfl, ih.mp hrest, rfl⟩
        · rintro ⟨r', later', rfl, hlater, rfl⟩
          rw [ih.mpr hlater] at hrest
          rw [Except.ok.inj hrest]

structure IsReadInto (model : Model α) (inst : Instance α model.height model.width) : Prop where
  terms : model.checkTerms = .ok ()
  columns : inst.columns.toList = model.vars.map Variable.column
  rows : readRows model.constraints = .ok inst.rows.toList
  matrix : inst.matrix = model.matrix
  direction : inst.direction = model.direction
  constant : inst.constant = model.constant

variable {model : Model α} {inst : Instance α model.height model.width}

theorem toInstance_eq_ok_iff : model.toInstance = .ok inst ↔ model.IsReadInto inst := by
  constructor
  · intro h
    unfold toInstance at h
    split at h
    · cases h
    · next hterms =>
      split at h
      · cases h
      · next rows hrows =>
        cases h
        exact ⟨hterms, rfl, hrows, rfl, rfl, rfl⟩
  · rintro ⟨hterms, hcolumns, hrows, hmatrix, hdirection, hconstant⟩
    unfold toInstance
    rw [hterms]
    simp only
    split
    · next hfailed => rw [hfailed] at hrows; cases hrows
    · next rows hread =>
      obtain rfl : inst.rows.toList = rows := by
        rw [hread] at hrows
        exact (Except.ok.inj hrows).symm
      obtain ⟨columns, irows, matrix, direction, constant⟩ := inst
      simp only at hcolumns hmatrix hdirection hconstant
      subst hmatrix hdirection hconstant
      congr 2
      exact Vector.toList_inj.mp hcolumns.symm

theorem matrix_of_toInstance (h : model.toInstance = .ok inst) : inst.matrix = model.matrix :=
  (toInstance_eq_ok_iff.mp h).matrix

namespace IsReadInto

theorem exists_column_iff (h : model.IsReadInto inst) {P : InstanceColumn α → Prop} :
    (∃ j, P (inst.columns.get j)) ↔ ∃ v ∈ model.vars, P v.column := by
  have hmem : (∃ j, P (inst.columns.get j)) ↔ ∃ c ∈ inst.columns.toList, P c := by
    simp only [List.mem_iff_getElem, Vector.length_toList, get_eq_getElem]
    exact ⟨fun ⟨j, hj⟩ => ⟨_, ⟨j, j.isLt, by simp⟩, hj⟩,
      fun ⟨_, ⟨j, hj, rfl⟩, hP⟩ => ⟨⟨j, hj⟩, by simpa using hP⟩⟩
  rw [hmem, h.columns]
  simp only [List.mem_map, exists_exists_and_eq_and]

/-- Each row holds the terms of its constraint, in canonical form. -/
theorem exists_row (h : model.IsReadInto inst) (i : Fin model.height) :
    ∃ row : List (Fin model.width × α), model.constraints[i].terms = row.map Sparse.term ∧
      inst.matrix.get i = Sparse.canonicalRow row := by
  obtain ⟨row, hrow⟩ := Sparse.exists_map_term fun t ht =>
    (checkTerms_eq_ok_iff.mp h.terms _ (List.getElem_mem i.isLt) t ht).2
  exact ⟨row, hrow, by rw [h.matrix, get_matrix hrow]⟩

/-- Each row has the name, the sense and the right-hand side of its constraint. -/
theorem row_eq_ok (h : model.IsReadInto inst) (i : Fin model.height) :
    model.constraints[i].row = .ok (inst.rows.get i) := by
  have hall := readRows_eq_ok_iff.mp h.rows
  have hget := hall.get (i := i) i.isLt (by simp)
  simpa [get_eq_getElem] using hget

theorem increasing (h : model.IsReadInto inst) (i : Fin model.height) :
    Sparse.HasIncreasingColumns (inst.matrix.get i) := by
  rw [h.matrix, Model.matrix, Sparse.Rows.get_canonical]
  exact Sparse.hasIncreasingColumns_canonicalRow _

end IsReadInto

end Model

end CoefficientTightening
