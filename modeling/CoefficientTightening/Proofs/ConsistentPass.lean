import CoefficientTightening.Proofs.AcceptedCuts
import CoefficientTightening.Proofs.ClosedForm
import CoefficientTightening.Proofs.Consistent
import CoefficientTightening.Proofs.PresolveRun

/-! A pass keeps a formulation consistent. Each change writes one number, which is no NaN, to a cell
and to its entry, and no other cell shares that entry; a coefficient that becomes zero was counted
before and is counted off once, in its row and in its column. A schedule of tightening alone
therefore fails its checks at the first one or never. -/
namespace CoefficientTightening

open Extended (finite infinite nan)
open RoundedScalar (denote beq_zero_iff)

variable {α : Type} [Scalar α] {m n : Nat}

/-! ### Writing one number -/

namespace Sparse.Matrix

variable {M : Matrix α m n} {i : Fin m} {k : Nat} {c : Cell α n}

omit [Scalar α] in
theorem getElem?_rows_write (hc : (M.rows.get i)[k]? = some c) (value : α) (i' : Fin m) (k' : Nat) :
    ((M.write i k value).rows.get i')[k']? =
      if i = i' ∧ k = k' then some { c with value } else (M.rows.get i')[k']? := by
  rw [Formulation.get_rows_write]
  by_cases hi : i = i'
  · subst hi
    rw [if_pos rfl, Array.getElem?_modify]
    by_cases hk : k = k'
    · subst hk
      rw [if_pos rfl, if_pos ⟨rfl, rfl⟩, hc, Option.map_some]
    · rw [if_neg hk, if_neg fun heq => hk heq.2]
  · rw [if_neg hi, if_neg fun heq => hi heq.1]

omit [Scalar α] in
theorem get_columns_write (hc : (M.rows.get i)[k]? = some c) (value : α) (j : Fin n) :
    (M.write i k value).columns.get j =
      if c.column = j then (M.columns.get j).modify c.slot fun e => { e with value }
      else M.columns.get j := by
  simp only [write, hc]
  exact get_modifyAt _ _ _ _

omit [Scalar α] in
/-- No two cells of a linked matrix share an entry. -/
theorem IsLinked.eq_of_place (hM : M.IsLinked) {i' : Fin m} {k' : Nat} {c' : Cell α n}
    (hc : (M.rows.get i)[k]? = some c) (hc' : (M.rows.get i')[k']? = some c')
    (hcolumn : c.column = c'.column) (hslot : c.slot = c'.slot) : i = i' ∧ k = k' := by
  obtain ⟨e, he, rfl⟩ := hM.exists_entry (mem_toList_of_getElem? hc)
  obtain ⟨e', he', rfl⟩ := hM.exists_entry (mem_toList_of_getElem? hc')
  rw [hcolumn, hslot, he'] at he
  obtain rfl := Option.some.inj he
  exact ⟨rfl, eq_of_getElem?_of_nodup (hM.columns_nodup e'.row) hc hc' hcolumn⟩

omit [Scalar α] in
/-- The entry of a cell changes with the cell and with no other. -/
theorem IsLinked.getElem?_columns_write (hM : M.IsLinked) {i' : Fin m} {k' : Nat} {c' : Cell α n}
    (hc : (M.rows.get i)[k]? = some c) (hc' : (M.rows.get i')[k']? = some c') (value : α) :
    ((M.write i k value).columns.get c'.column)[c'.slot]? =
      if i = i' ∧ k = k' then (M.columns.get c.column)[c.slot]?.map fun e => { e with value }
      else (M.columns.get c'.column)[c'.slot]? := by
  rw [get_columns_write hc]
  by_cases h : i = i' ∧ k = k'
  · obtain ⟨rfl, rfl⟩ := h
    obtain rfl := Option.some.inj (hc.symm.trans hc')
    rw [if_pos rfl, Array.getElem?_modify, if_pos rfl, if_pos ⟨rfl, rfl⟩]
  · rw [if_neg h]
    split
    · next hcolumn =>
      rw [Array.getElem?_modify, if_neg]
      exact fun hslot => h (hM.eq_of_place hc hc' hcolumn hslot)
    · rfl

/-- A number other than a NaN is written to both storages. -/
theorem Mirrors.write [RoundedScalar α] (h : M.Mirrors) (hM : M.IsLinked)
    (hc : (M.rows.get i)[k]? = some c) {value : α} (hvalue : denote value ≠ nan) :
    (M.write i k value).Mirrors := by
  intro i' c' hmem
  obtain ⟨k', hc'⟩ := Array.getElem?_of_mem (Array.mem_toList_iff.mp hmem)
  rw [getElem?_rows_write hc] at hc'
  split at hc'
  · -- the cell that is written, and its entry
    next heq =>
    obtain ⟨rfl, rfl⟩ := heq
    obtain rfl := Option.some.inj hc'
    obtain ⟨e, he, -⟩ := hM.exists_entry (mem_toList_of_getElem? hc)
    refine ⟨{ e with value }, ?_, rfl, hvalue⟩
    rw [hM.getElem?_columns_write hc hc, if_pos ⟨rfl, rfl⟩, he, Option.map_some]
  · next hne =>
    obtain ⟨e, he, heq⟩ := h i' c' (mem_toList_of_getElem? hc')
    refine ⟨e, ?_, heq⟩
    rw [hM.getElem?_columns_write hc hc', if_neg hne, he]

end Sparse.Matrix

/-! ### Counts -/

section Counts

theorem countP_modify {β : Type} (P : β → Bool) {f : β → β} {xs : Array β} {k : Nat} {x : β}
    (hk : xs[k]? = some x) :
    (xs.modify k f).toList.countP P + (if P x then 1 else 0) =
      xs.toList.countP P + (if P (f x) then 1 else 0) := by
  obtain ⟨before, after, hxs, hmodify⟩ := exists_toList_modify f hk
  rw [hmodify, hxs, List.countP_append, List.countP_append, List.countP_cons, List.countP_cons]
  omega

theorem ofNat_count {before after : Nat} {gone : Bool}
    (h : after + 1 = before + (if !gone then 1 else 0)) :
    Int64.ofNat after = if gone then Int64.ofNat before - 1 else Int64.ofNat before := by
  cases gone with
  | true =>
    obtain rfl : after = before - 1 := by simp at h; omega
    exact Int64.ofNat_sub before 1 (by simp at h; omega)
  | false =>
    obtain rfl : after = before := by simpa using h
    rfl

end Counts

/-! ### One change -/

namespace Formulation

open Tightening

variable {p : Formulation α m n} {t : Tightening α m n}

theorem matrix_commit (p : Formulation α m n) (t : Tightening α m n) :
    (p.commit t).matrix = p.matrix.write t.row t.position t.new := by
  unfold commit
  split <;> rfl

theorem rowNonzeros_commit (p : Formulation α m n) (t : Tightening α m n) (i : Fin m) :
    ((p.commit t).rows.get i).nonzeros =
      if t.row = i then if t.new == 0 then (p.rows.get i).nonzeros - 1 else (p.rows.get i).nonzeros
      else (p.rows.get i).nonzeros := by
  unfold commit setRow setColumn
  by_cases hzero : t.new == 0 <;> by_cases hrow : t.row = i <;> simp [hzero, hrow]

theorem columnNonzeros_commit (p : Formulation α m n) (t : Tightening α m n) (j : Fin n) :
    ((p.commit t).columns.get j).nonzeros =
      if t.column = j then
        if t.new == 0 then (p.columns.get j).nonzeros - 1 else (p.columns.get j).nonzeros
      else (p.columns.get j).nonzeros := by
  unfold commit setRow setColumn
  by_cases hzero : t.new == 0 <;> by_cases hcolumn : t.column = j <;> simp [hzero, hcolumn]

theorem sameShape_commit (p : Formulation α m n) (t : Tightening α m n) :
    p.matrix.SameShape (p.commit t).matrix := by
  rw [matrix_commit]
  exact Sparse.Matrix.sameShape_write _ _ _ _

theorem sameShape_foldl_commit (ts : List (Tightening α m n)) (p : Formulation α m n) :
    p.matrix.SameShape (ts.foldl commit p).matrix := by
  induction ts generalizing p with
  | nil => exact .refl _
  | cons t rest ih => exact (p.sameShape_commit t).trans (ih _)

/-- A pass moves no entry. -/
theorem sameShape_tighten (p : Formulation α m n) : p.matrix.SameShape p.tighten.matrix := by
  rw [← foldl_commit_tightenings]
  exact sameShape_foldl_commit _ p

theorem sameShape_iterate_tighten (p : Formulation α m n) (k : Nat) :
    p.matrix.SameShape (tighten^[k] p).matrix := by
  induction k generalizing p with
  | zero => exact .refl _
  | succ k ih => exact p.sameShape_tighten.trans (ih p.tighten)

variable [RoundedScalar α]

/-- A change of a nonzero to a number other than a NaN. -/
theorem IsConsistent.commit (h : p.IsConsistent) (hlinked : p.matrix.IsLinked) (hfits : t.Fits p)
    (hold : (t.old == 0) = false) (hnew : denote t.new ≠ nan) : (p.commit t).IsConsistent where
  mirrors := by
    obtain ⟨slot, hc⟩ := hfits.cell
    rw [matrix_commit]
    exact h.mirrors.write hlinked hc hnew
  rowCount i := by
    obtain ⟨slot, hc⟩ := hfits.cell
    rw [rowNonzeros_commit, h.rowCount, matrix_commit, Sparse.Matrix.rowNonzeros,
      Sparse.Matrix.rowNonzeros, get_rows_write]
    split
    · next hrow =>
      subst hrow
      have hcount := countP_modify (f := fun c => { c with value := t.new })
        (fun c : Sparse.Cell α n => !(c.value == 0)) hc
      rw [hold, Bool.not_false, if_pos rfl] at hcount
      exact (ofNat_count hcount).symm
    · rfl
  columnCount j := by
    obtain ⟨slot, hc⟩ := hfits.cell
    rw [columnNonzeros_commit, h.columnCount, matrix_commit, Sparse.Matrix.entryNonzeros,
      Sparse.Matrix.entryNonzeros, Sparse.Matrix.get_columns_write hc]
    split
    · next hcolumn =>
      subst hcolumn
      have hmem := mem_toList_of_getElem? hc
      obtain ⟨e, he, -⟩ := hlinked.exists_entry hmem
      have hcount := countP_modify (f := fun e => { e with value := t.new })
        (fun e : Sparse.ColumnEntry α m => !(e.value == 0)) he
      rw [h.mirrors.beq_zero hmem he, hold, Bool.not_false, if_pos rfl] at hcount
      exact (ofNat_count hcount).symm
    · rfl
  uncrossed j hactive := by
    have halike := p.alike_commit t j
    rw [halike.active] at hactive
    rw [halike.range]
    exact h.uncrossed j hactive

/-! ### A pass -/

theorem IsConsistent.foldl_commit {ts : List (Tightening α m n)} (h : p.IsConsistent)
    (hlinked : p.matrix.IsLinked) (htrace : p.Trace ts)
    (hts : ∀ t ∈ ts, (t.old == 0) = false ∧ denote t.new ≠ nan) :
    (ts.foldl Formulation.commit p).IsConsistent := by
  induction ts generalizing p with
  | nil => exact h
  | cons t rest ih =>
    obtain ⟨hold, hnew⟩ := hts t List.mem_cons_self
    exact ih (h.commit hlinked htrace.1 hold hnew) ((p.sameShape_commit t).isLinked hlinked)
      htrace.2 fun u hu => hts u (List.mem_cons_of_mem _ hu)

theorem old_ne_zero_of_mem_tightenings (ht : t ∈ p.tightenings) : (t.old == 0) = false := by
  obtain ⟨_, -, _, -, hprop⟩ := exists_isProposed_of_mem_tightenings ht
  exact hprop.nonzero

/-- What a change finds is a coefficient of its row. -/
theorem exists_cell_of_mem_tightenings (ht : t ∈ p.tightenings) :
    ∃ c ∈ (p.matrix.rows.get t.row).toList, c.value = t.old := by
  obtain ⟨e, he, _, -, hprop⟩ := exists_isProposed_of_mem_tightenings ht
  exact ⟨e.1, List.fst_mem_of_mem_zipIdx he, hprop.old_eq.symm⟩

theorem IsConsistent.tighten (h : p.IsConsistent) (hlinked : p.matrix.IsLinked) :
    p.tighten.IsConsistent := by
  rw [← foldl_commit_tightenings]
  refine h.foldl_commit hlinked p.trace_tightenings fun t ht => ?_
  refine ⟨old_ne_zero_of_mem_tightenings ht, ?_⟩
  obtain ⟨c, hc, hvalue⟩ := exists_cell_of_mem_tightenings ht
  obtain ⟨-, -, -, hnan⟩ := h.mirrors t.row c hc
  obtain ⟨_, _, hcut⟩ := exists_isCut_of_mem_tightenings ht (hvalue ▸ hnan)
  rw [hcut.new_eq]
  exact Extended.noConfusion

end Formulation

/-! ### Rounds of tightening -/

section Rounds

variable [RoundedScalar α] {p : Formulation α m n}

/-- Linked storages without an inconsistency. -/
structure Formulation.IsSound (p : Formulation α m n) : Prop where
  linked : p.matrix.IsLinked
  consistent : p.IsConsistent

theorem Formulation.IsSound.tighten (h : p.IsSound) : p.tighten.IsSound where
  linked := p.sameShape_tighten.isLinked h.linked
  consistent := h.consistent.tighten h.linked

theorem Formulation.IsSound.checkIf (h : p.IsSound) (validates : Bool) :
    tighteningOnly.checkIf validates p = none := by
  unfold Presolving.checkIf
  split
  · exact (Formulation.inconsistency?_eq_none_iff h.linked).mpr h.consistent
  · rfl

theorem applyAll_of_isSound (validates : Bool) (presolvers : List Unit) (h : p.IsSound) :
    (tighteningOnly.applyAll validates presolvers p).failure = none ∧
      (tighteningOnly.applyAll validates presolvers p).data.IsSound := by
  induction presolvers generalizing p with
  | nil => exact ⟨rfl, h⟩
  | cons presolver rest ih =>
    have hcheck : tighteningOnly.checkIf validates p.tighteningPass.data = none :=
      h.tighten.checkIf validates
    obtain ⟨hfailure, hdata⟩ := ih h.tighten
    simp only [Presolving.applyAll, tighteningOnly] at hcheck hfailure hdata ⊢
    rw [hcheck]
    exact ⟨hfailure, hdata⟩

theorem repeatRounds_of_isSound (validates : Bool) (left number : Nat) (presolvers : List Unit)
    (h : p.IsSound) :
    (tighteningOnly.repeatRounds validates left number presolvers p).failure = none ∧
      (tighteningOnly.repeatRounds validates left number presolvers p).data.IsSound := by
  induction left generalizing number presolvers p with
  | zero => exact ⟨rfl, h⟩
  | succ left ih =>
    obtain ⟨hfailure, hdata⟩ := applyAll_of_isSound validates presolvers h
    simp only [Presolving.repeatRounds, hfailure, Option.isSome_none, Bool.false_eq_true, if_false]
    split
    · exact ⟨rfl, hdata⟩
    · exact ih _ _ hdata

end Rounds

namespace Formulation

variable [RoundedScalar α]

omit [RoundedScalar α] in
theorem checkIf_tighteningOnly {validates : Bool} (h : validates = true) (p : Formulation α m n) :
    tighteningOnly.checkIf validates p = p.inconsistency? := by
  rw [h]
  rfl

/-- A pass keeps a formulation consistent, and a schedule of tightening alone that validates fails
only where the formulation that it is given is inconsistent; then it has done nothing yet. -/
theorem tighten_keeps_consistency (p : Formulation α m n) (hlinked : p.matrix.IsLinked) :
    (p.inconsistency? = none → p.tighten.inconsistency? = none ∧ p.tighten.IsConsistent) ∧
    ∀ (schedule : Schedule Unit α) (limit : Option Int), schedule.validates = true →
      (schedule.run tighteningOnly limit p).failure = p.inconsistency? ∧
      (p.inconsistency? ≠ none →
        schedule.run tighteningOnly limit p = ⟨schedule, p, [], p.inconsistency?⟩) := by
  refine ⟨fun hnone => ?_, fun schedule limit hvalidates => ?_⟩
  · have hsound : p.IsSound := ⟨hlinked, (inconsistency?_eq_none_iff hlinked).mp hnone⟩
    have hafter := hsound.tighten
    exact ⟨(inconsistency?_eq_none_iff hafter.linked).mpr hafter.consistent, hafter.consistent⟩
  · unfold Schedule.run
    rw [checkIf_tighteningOnly hvalidates]
    cases hfirst : p.inconsistency? with
    | some e => exact ⟨rfl, fun _ => rfl⟩
    | none =>
      have hsound : p.IsSound := ⟨hlinked, (inconsistency?_eq_none_iff hlinked).mp hfirst⟩
      exact ⟨(repeatRounds_of_isSound _ _ _ _ hsound).1, fun hsome => absurd rfl hsome⟩

theorem isLinked_mixedRow (bound top : ℚ) : (mixedRow bound top).matrix.IsLinked := by
  apply Sparse.Matrix.isLinked_ofRows
  unfold Sparse.HasIncreasingColumns
  decide

/-- Three rounds of two applications each, all of them checked. -/
theorem mixedRow_stays_consistent :
    (mixedRow 10 2).tighten.inconsistency? = none ∧
    ((Schedule.new 3 true [(), ()]).run tighteningOnly none (mixedRow 10 2)).failure = none := by
  have hnone : (mixedRow 10 2).inconsistency? = none := by decide +kernel
  obtain ⟨hpass, hrun⟩ := tighten_keeps_consistency (mixedRow 10 2) (isLinked_mixedRow 10 2)
  refine ⟨(hpass hnone).1, ?_⟩
  rw [(hrun (.new 3 true [(), ()]) none rfl).1, hnone]

end Formulation

end CoefficientTightening
