import CoefficientTightening.Consistency
import CoefficientTightening.Proofs.LinkedStorages
import CoefficientTightening.Proofs.RoundedArithmetic

/-! What a formulation without inconsistency is. Its storages hold the same numbers, none of them a
NaN, its counts are those of the nonzeros in either storage, and no active column has crossed bounds.
The check counts the nonzeros of a column in the row storage; where the storages are linked and hold
the same numbers, that is their number in the column storage, since a row has at most one cell in a
column. -/
namespace CoefficientTightening

open Extended (finite infinite nan)
open RoundedScalar (denote beq_zero_iff beq_iff_denote)

variable {α : Type} [Scalar α] {m n : Nat}

namespace Sparse.Matrix

variable {M : Matrix α m n}

/-! ### Reading a linked matrix -/

omit [Scalar α] in
/-- A cell of a linked matrix has its entry, in the cell's own row. -/
theorem IsLinked.exists_entry (hM : M.IsLinked) {i : Fin m} {c : Cell α n}
    (hc : c ∈ (M.rows.get i).toList) :
    ∃ e, (M.columns.get c.column)[c.slot]? = some e ∧ e.row = i := by
  have hplace : (c.column, c.slot) ∈ M.places i := List.mem_map.mpr ⟨c, hc, rfl⟩
  have howner := (hM.mem_places_iff i c.column c.slot).mp hplace
  rw [owners, List.getElem?_map, Array.getElem?_toList, Option.map_eq_some_iff] at howner
  exact howner

omit [Scalar α] in
/-- An entry of a linked matrix has its cell, in the entry's row. -/
theorem IsLinked.exists_cell (hM : M.IsLinked) {j : Fin n} {slot : Nat} {e : ColumnEntry α m}
    (he : (M.columns.get j)[slot]? = some e) :
    ∃ c ∈ (M.rows.get e.row).toList, c.column = j ∧ c.slot = slot := by
  have howner : (M.owners j)[slot]? = some e.row := by
    rw [owners, List.getElem?_map, Array.getElem?_toList, he, Option.map_some]
  obtain ⟨c, hc, hplace⟩ := List.mem_map.mp ((hM.mem_places_iff e.row j slot).mpr howner)
  exact ⟨c, hc, congrArg Prod.fst hplace, congrArg Prod.snd hplace⟩

omit [Scalar α] in
theorem IsLinked.columns_nodup (hM : M.IsLinked) (i : Fin m) :
    ((M.rows.get i).toList.map (·.column)).Nodup := by
  have h := hM.rows_increasing i
  rw [HasIncreasingColumns, places, List.map_map] at h
  exact h.imp ne_of_lt

omit [Scalar α] in
theorem IsLinked.owners_nodup (hM : M.IsLinked) (j : Fin n) : (M.owners j).Nodup :=
  (hM.columns_increasing j).imp ne_of_lt

/-! ### Agreement -/

section Mirrors

variable [RoundedScalar α]

/-- Every cell and its entry hold the same number, and no NaN. -/
def Mirrors (M : Matrix α m n) : Prop :=
  ∀ i, ∀ c ∈ (M.rows.get i).toList, ∃ e, (M.columns.get c.column)[c.slot]? = some e ∧
    denote e.value = denote c.value ∧ denote c.value ≠ nan

theorem agrees_iff : M.agrees = true ↔ M.Mirrors := by
  unfold agrees Mirrors
  simp only [List.all_eq_true, Option.any_eq_true]
  constructor
  · intro h i c hc
    obtain ⟨e, he, hbeq⟩ := h (M.rows.get i) (by simp [get_eq_getElem]) c hc
    obtain ⟨heq, hne⟩ := beq_iff_denote.mp hbeq
    exact ⟨e, he, heq.symm, hne⟩
  · intro h row hrow c hc
    obtain ⟨i, hi, rfl⟩ := List.getElem_of_mem hrow
    obtain ⟨e, he, heq, hne⟩ := h ⟨i, by simpa using hi⟩ c (by simpa [get_eq_getElem] using hc)
    exact ⟨e, he, beq_iff_denote.mpr ⟨heq.symm, hne⟩⟩

theorem Mirrors.beq_zero (h : M.Mirrors) {i : Fin m} {c : Cell α n}
    (hc : c ∈ (M.rows.get i).toList) {e : ColumnEntry α m}
    (he : (M.columns.get c.column)[c.slot]? = some e) : (e.value == 0) = (c.value == 0) := by
  obtain ⟨e', he', heq, -⟩ := h i c hc
  obtain rfl : e' = e := Option.some.inj (he'.symm.trans he)
  rw [Bool.eq_iff_iff, beq_zero_iff, beq_zero_iff, heq]

end Mirrors

/-! ### Nonzeros of a column -/

/-- The nonzeros of a column, in the column storage. -/
def entryNonzeros (M : Matrix α m n) (j : Fin n) : Nat :=
  (M.columns.get j).toList.countP fun e => !(e.value == 0)

/-- The cell is a nonzero of the column. -/
def isNonzeroIn (j : Fin n) (c : Cell α n) : Bool :=
  decide (c.column = j) && !(c.value == 0)

theorem countP_eq_sum {β : Type} (f : β → Bool) (l : List β) :
    l.countP f = (l.map fun x => if f x then 1 else 0).sum := by
  induction l with
  | nil => rfl
  | cons x rest ih =>
    rw [List.countP_cons, List.map_cons, List.sum_cons, ← ih, add_comm]

/-- A row has at most one cell in a column. -/
theorem IsLinked.countP_isNonzeroIn (hM : M.IsLinked) (i : Fin m) (j : Fin n) :
    (M.rows.get i).toList.countP (isNonzeroIn j) =
      if (M.rows.get i).toList.any (isNonzeroIn j) then 1 else 0 := by
  have hone : (M.rows.get i).toList.countP (isNonzeroIn j) ≤ 1 :=
    calc (M.rows.get i).toList.countP (isNonzeroIn j)
        ≤ (M.rows.get i).toList.countP (fun c => c.column == j) :=
          List.countP_mono_left fun c _ hc => by
            simp only [isNonzeroIn, Bool.and_eq_true, decide_eq_true_eq] at hc
            simp [hc.1]
      _ = ((M.rows.get i).toList.map (·.column)).count j := by
          rw [List.count, List.countP_map]
          rfl
      _ ≤ 1 := List.nodup_iff_count_le_one.mp (hM.columns_nodup i) j
  have hpos : 0 < (M.rows.get i).toList.countP (isNonzeroIn j) ↔
      (M.rows.get i).toList.any (isNonzeroIn j) = true := by
    rw [List.countP_pos_iff, List.any_eq_true]
  split
  · next h => exact le_antisymm hone (hpos.mpr h)
  · next h => exact Nat.eq_zero_of_not_pos (mt hpos.mp h)

omit [Scalar α] in
theorem toList_eq_map_get {β : Type} (v : Vector β m) : v.toList = (List.finRange m).map v.get := by
  apply List.ext_getElem
  · simp
  · intro k hk hk'
    simp [get_eq_getElem]

theorem get_columnNonzeros (M : Matrix α m n) (j : Fin n) :
    M.columnNonzeros.get j =
      ((List.finRange m).map fun i => (M.rows.get i).toList.countP (isNonzeroIn j)).sum := by
  rw [columnNonzeros, get_tally, List.count_filterMap, List.countP_flatten, toList_eq_map_get,
    List.map_map]
  congr 1
  apply List.map_congr_left
  intro i _
  rw [Function.comp_apply, get_toRows, List.countP_map]
  apply List.countP_congr
  intro c _
  simp only [Function.comp_apply, isNonzeroIn]
  by_cases hzero : c.value == 0 <;> simp [hzero]

/-- The nonzeros of a column are as many in either storage. -/
theorem IsLinked.get_columnNonzeros [RoundedScalar α] (hM : M.IsLinked) (hmirrors : M.Mirrors)
    (j : Fin n) : M.columnNonzeros.get j = M.entryNonzeros j := by
  have hrows : M.columnNonzeros.get j =
      ((List.finRange m).filter fun i => (M.rows.get i).toList.any (isNonzeroIn j)).length := by
    rw [Matrix.get_columnNonzeros, ← List.countP_eq_length_filter, countP_eq_sum]
    congr 1
    exact List.map_congr_left fun i _ => hM.countP_isNonzeroIn i j
  have hentries : M.entryNonzeros j =
      (((M.columns.get j).toList.filter fun e => !(e.value == 0)).map (·.row)).length := by
    rw [List.length_map, ← List.countP_eq_length_filter]
    rfl
  rw [hrows, hentries]
  -- both lists name the rows that have a nonzero in the column, each once
  apply List.Perm.length_eq
  rw [List.perm_ext_iff_of_nodup ((List.nodup_finRange m).filter _)
    ((hM.owners_nodup j).sublist (List.filter_sublist.map _))]
  intro i
  rw [List.mem_filter, List.mem_map, and_iff_right (List.mem_finRange i), List.any_eq_true]
  constructor
  · rintro ⟨c, hc, hnonzero⟩
    obtain ⟨rfl, hvalue⟩ : c.column = j ∧ (c.value == 0) = false := by
      simpa [isNonzeroIn] using hnonzero
    obtain ⟨e, he, hrow⟩ := hM.exists_entry hc
    refine ⟨e, List.mem_filter.mpr ⟨?_, ?_⟩, hrow⟩
    · exact mem_toList_of_getElem? he
    · rw [hmirrors.beq_zero hc he, hvalue]
      rfl
  · rintro ⟨e, he, rfl⟩
    obtain ⟨hmem, hvalue⟩ := List.mem_filter.mp he
    obtain ⟨slot, hslot⟩ := Array.getElem?_of_mem (Array.mem_toList_iff.mp hmem)
    obtain ⟨c, hc, hcol, rfl⟩ := hM.exists_cell hslot
    refine ⟨c, hc, ?_⟩
    rw [isNonzeroIn, hcol, decide_eq_true rfl, Bool.true_and,
      ← hmirrors.beq_zero hc (by rw [hcol]; exact hslot)]
    exact hvalue

end Sparse.Matrix

/-! ### Consistent formulations -/

namespace Formulation

variable [RoundedScalar α] {p : Formulation α m n}

structure IsConsistent (p : Formulation α m n) : Prop where
  mirrors : p.matrix.Mirrors
  rowCount : ∀ i, (p.rows.get i).nonzeros = .ofNat (p.matrix.rowNonzeros i)
  columnCount : ∀ j, (p.columns.get j).nonzeros = .ofNat (p.matrix.entryNonzeros j)
  uncrossed : ∀ j, (p.columns.get j).active = true →
    ¬ (p.columns.get j).range.upper < (p.columns.get j).range.lower

omit [RoundedScalar α] in
theorem wrongRow?_eq_none_iff : p.wrongRow? = none ↔
    ∀ i, (p.rows.get i).nonzeros = .ofNat (p.matrix.rowNonzeros i) := by
  simp [wrongRow?, List.findSome?_eq_none_iff]

theorem wrongColumn?_eq_none_iff (hlinked : p.matrix.IsLinked) (hmirrors : p.matrix.Mirrors) :
    p.wrongColumn? = none ↔
      ∀ j, (p.columns.get j).nonzeros = .ofNat (p.matrix.entryNonzeros j) := by
  simp [wrongColumn?, List.findSome?_eq_none_iff, hlinked.get_columnNonzeros hmirrors]

/-- No inconsistency is found exactly in consistent formulations. -/
theorem inconsistency?_eq_none_iff (hlinked : p.matrix.IsLinked) :
    p.inconsistency? = none ↔ p.IsConsistent := by
  have hcrossed : p.crossedColumn? = none ↔ ∀ j, (p.columns.get j).active = true →
      ¬ (p.columns.get j).range.upper < (p.columns.get j).range.lower := by
    simp [crossedColumn?, List.findSome?_eq_none_iff]
  unfold inconsistency?
  split
  · next hagrees =>
    have hmirrors := Sparse.Matrix.agrees_iff.mp hagrees
    rw [Option.orElse_eq_none, Option.orElse_eq_none, wrongRow?_eq_none_iff,
      wrongColumn?_eq_none_iff hlinked hmirrors, hcrossed]
    exact ⟨fun h => ⟨hmirrors, h.1, h.2.1, h.2.2⟩,
      fun h => ⟨h.rowCount, h.columnCount, h.uncrossed⟩⟩
  · next hagrees =>
    exact iff_of_false (Option.some_ne_none _)
      fun h => hagrees (Sparse.Matrix.agrees_iff.mpr h.mirrors)

end Formulation

end CoefficientTightening
