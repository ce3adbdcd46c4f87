import CoefficientTightening.Proofs.ReductionLog

/-! Whether what a pass reports has happened. A change of a number moves it, the change is never
taken back, and a record of a bound is left out unless the bound has moved. But a NaN differs from
itself, so a NaN coefficient that may be tightened is recorded as changed although it is as it was,
and in every pass again. Hence a pass reports real changes exactly if no row with one finite side has
a NaN in an active integral column. -/
namespace CoefficientTightening

open Extended (finite infinite nan)
open RoundedScalar (denote beq_zero_iff beq_iff_denote denote_zero denote_beq)

variable {α : Type} [Scalar α] {m n : Nat}

/-! ### A change stays -/

omit [Scalar α] in
/-- Changes elsewhere in the row leave a cell alone. -/
theorem getElem?_foldl_change_of_notMem {ts : List (Tightening α m n)} {k : Nat}
    (h : k ∉ ts.map (·.position)) (s : RowState α n) :
    (ts.foldl RowState.change s).cells[k]? = s.cells[k]? := by
  induction ts generalizing s with
  | nil => rfl
  | cons t rest ih =>
    obtain ⟨hne, hrest⟩ := not_or.mp (mt List.mem_cons.mpr h)
    rw [List.foldl_cons, ih hrest, RowState.change, Array.getElem?_modify, if_neg (Ne.symm hne)]

omit [Scalar α] in
theorem getElem?_foldl_change {ts : List (Tightening α m n)}
    (hnodup : (ts.map (·.position)).Nodup) {t : Tightening α m n} (ht : t ∈ ts)
    (s : RowState α n) {c : Sparse.Cell α n} (hc : s.cells[t.position]? = some c) :
    (ts.foldl RowState.change s).cells[t.position]? = some { c with value := t.new } := by
  obtain ⟨before, after, rfl⟩ := List.append_of_mem ht
  rw [List.map_append, List.map_cons] at hnodup
  obtain ⟨-, hafter, hdisjoint⟩ := List.nodup_append.mp hnodup
  have hbefore : t.position ∉ before.map (·.position) :=
    fun hmem => hdisjoint _ hmem _ List.mem_cons_self rfl
  rw [List.foldl_append, List.foldl_cons,
    getElem?_foldl_change_of_notMem (List.nodup_cons.mp hafter).1, RowState.change,
    Array.getElem?_modify, if_pos rfl, getElem?_foldl_change_of_notMem hbefore, hc,
    Option.map_some]

namespace Formulation

open Tightening

variable {p : Formulation α m n} {t : Tightening α m n} {i : Fin m}

/-- The pass leaves each changed coefficient as its change says. -/
theorem getElem?_tighten [RoundedScalar α] (ht : t ∈ p.tightenings) :
    ∃ slot, (p.matrix.rows.get t.row)[t.position]? = some ⟨t.column, slot, t.old⟩ ∧
      (p.tighten.matrix.rows.get t.row)[t.position]? = some ⟨t.column, slot, t.new⟩ := by
  obtain ⟨e, he, _, -, hprop⟩ := exists_isProposed_of_mem_tightenings ht
  have hat : (p.matrix.rows.get t.row)[t.position]? = some ⟨t.column, e.1.slot, t.old⟩ := by
    rw [hprop.position_eq, hprop.column_eq, hprop.old_eq]
    exact getElem?_of_mem_entries he
  refine ⟨e.1.slot, hat, ?_⟩
  have hcells : p.tighten.matrix.rows.get t.row =
      ((p.rowTightenings t.row).foldl RowState.change (p.rowState t.row)).cells :=
    congrArg RowState.cells (p.rowState_tighten t.row)
  rw [hcells]
  exact getElem?_foldl_change (p.nodup_positions_rowTightenings t.row) (mem_tightenings.mp ht)
    (p.rowState t.row) hat

end Formulation

/-! ### Real changes -/

variable [RoundedScalar α]

namespace Reduction

/-- The new value of the record is another one than the old value. -/
def IsReal : Reduction α → Prop
  | tightenCoefficient _ _ old new => denote new ≠ denote old
  | zeroCoefficient _ _ old => denote (0 : α) ≠ denote old
  | tightenRowBound _ _ old new => denote new ≠ denote old
  | custom .. => False

end Reduction

namespace Tightening

variable {t : Tightening α m n} {a b : ℚ}

theorem IsCut.new_ne_old (h : t.IsCut a b) : denote t.new ≠ denote t.old := by
  rw [h.new_eq, h.old_eq, ne_eq, Extended.finite.injEq]
  rcases h.closer with ⟨-, hlt⟩ | ⟨hlt, -⟩
  · exact hlt.ne
  · exact hlt.ne'

theorem IsCut.isReal (h : t.IsCut a b) {r : Reduction α} (hr : r ∈ t.reductions) : r.IsReal := by
  have hcoef : t.coefficientRecord.IsReal := by
    unfold Tightening.coefficientRecord
    split
    · next hzero =>
      show denote (0 : α) ≠ denote t.old
      rw [denote_zero, ← beq_zero_iff.mp hzero]
      exact h.new_ne_old
    · exact h.new_ne_old
  cases hmoved : t.newBound == t.oldBound with
  | true =>
    rw [reductions_of_kept hmoved, List.mem_singleton] at hr
    rw [hr]
    exact hcoef
  | false =>
    rcases mem_reductions hr with rfl | rfl
    · exact hcoef
    · intro heq
      rw [beq_iff_denote.mpr ⟨heq, h.newBound_ne_nan⟩] at hmoved
      cases hmoved

end Tightening

namespace Formulation

open Tightening

/-- Every record of a pass has a new value other than the old one, and if there is a record then some
coefficient is another one after the pass. -/
structure ReportsRealChanges (p : Formulation α m n) : Prop where
  records : ∀ r ∈ p.tighteningPass.reductions, r.IsReal
  coefficient : p.tighteningPass.reductions ≠ [] →
    ∃ (i : Fin m) (k : Nat) (c c' : Sparse.Cell α n), (p.matrix.rows.get i)[k]? = some c ∧
      (p.tighteningPass.data.matrix.rows.get i)[k]? = some c' ∧ denote c'.value ≠ denote c.value

variable {p : Formulation α m n} {i : Fin m} {c : Sparse.Cell α n}

/-- A NaN coefficient that may be tightened is recorded as changed. -/
theorem exists_tightening_of_nan {side : Side} (hside : (p.rows.get i).range.onlySide? = some side)
    (hc : c ∈ (p.matrix.rows.get i).toList) (hcand : Tightening.isCandidate p.columns c = true)
    (hnan : denote c.value = nan) : ∃ t ∈ p.tightenings, t.old = c.value := by
  have hne : ∀ x : α, (c.value == x) = false ∧ (x == c.value) = false := by
    intro x
    rw [denote_beq c.value x, denote_beq x c.value, hnan]
    cases denote x <;> exact ⟨rfl, rfl⟩
  obtain ⟨e, he, rfl⟩ : ∃ e ∈ p.entries i, e.1 = c := by
    rw [← List.zipIdx_map_fst 0 (p.matrix.rows.get i).toList] at hc
    exact List.mem_map.mp hc
  have hpropose : ∀ bound total, ∃ t,
      propose? p.columns i side bound total e = some t ∧ t.old = e.1.value := by
    intro bound total
    simp only [propose?, hcand, hne, Bool.not_false, Bool.and_self, if_true, Bool.false_eq_true,
      if_false]
    exact ⟨_, rfl, rfl⟩
  obtain ⟨t, ht, hold⟩ := exists_mem_visit hpropose he ((p.rows.get i).range.bound side)
    (activity side ((p.entries i).map fun e => (e.1.value, (p.columns.get e.1.column).range)))
  refine ⟨t, ?_, hold⟩
  rw [tightenings_eq, List.mem_flatMap]
  refine ⟨i, List.mem_finRange i, ?_⟩
  rw [rowTightenings_eq, rowTighteningsIn_eq_visit hside]
  exact ht

/-- A pass reports real changes exactly if no coefficient that may be tightened is a NaN. -/
theorem reportsRealChanges_iff (p : Formulation α m n) :
    p.ReportsRealChanges ↔
      ∀ i, ∀ c ∈ (p.matrix.rows.get i).toList, (p.rows.get i).range.onlySide? ≠ none →
        Tightening.isCandidate p.columns c = true → denote c.value ≠ nan := by
  constructor
  · intro h i c hc hrow hcand hnan
    obtain ⟨side, hside⟩ := Option.ne_none_iff_exists'.mp hrow
    obtain ⟨t, ht, hold⟩ := exists_tightening_of_nan hside hc hcand hnan
    obtain ⟨hnew, -⟩ := eq_of_mem_tightenings_of_nan ht (hold ▸ hnan)
    have hrecord : t.coefficientRecord = .tightenCoefficient t.row t.column t.old t.old := by
      have hzero : (t.old == 0) = false := old_ne_zero_of_mem_tightenings ht
      rw [coefficientRecord, hnew, hzero]
      rfl
    have hmem : t.coefficientRecord ∈ p.tighteningPass.reductions :=
      List.mem_flatMap.mpr ⟨t, ht, List.mem_cons_self⟩
    rw [hrecord] at hmem
    exact h.records _ hmem rfl
  · intro hno
    have hcut : ∀ t ∈ p.tightenings, ∃ a b, t.IsCut a b := by
      intro t ht
      obtain ⟨e, he, _, -, hprop⟩ := exists_isProposed_of_mem_tightenings ht
      apply exists_isCut_of_mem_tightenings ht
      rw [hprop.old_eq]
      exact hno t.row e.1 (List.fst_mem_of_mem_zipIdx he)
        (by rw [onlySide?_of_mem_tightenings ht]; exact Option.some_ne_none _) hprop.candidate
    refine ⟨fun r hr => ?_, fun hsome => ?_⟩
    · obtain ⟨t, ht, hmem⟩ := List.mem_flatMap.mp hr
      obtain ⟨_, _, hcut⟩ := hcut t ht
      exact hcut.isReal hmem
    · obtain ⟨r, hr⟩ := List.exists_mem_of_ne_nil _ hsome
      obtain ⟨t, ht, -⟩ := List.mem_flatMap.mp hr
      obtain ⟨_, _, hcut⟩ := hcut t ht
      obtain ⟨slot, hbefore, hafter⟩ := getElem?_tighten ht
      exact ⟨t.row, t.position, _, _, hbefore, hafter, hcut.new_ne_old⟩

/-- The row `(∞ - ∞) x ≤ 1` with `x` whole in `[0, 1]`: two entries of one position that add up to a
NaN. -/
def nanRow : Formulation Extended 1 1 :=
  ofRanges (.ofRows (Sparse.Rows.canonical #v[[(Fin.last 0, infinite false), (Fin.last 0, infinite true)]]))
    #v[⟨infinite true, finite 1⟩] #v[⟨finite 0, finite 1⟩] #v[.integer] #v[true]

/-- A record without a change: the pass reports one and leaves everything as it was. -/
theorem nanRow_reports_nothing_real :
    nanRow.tighteningPass.reductions.length = 1 ∧ nanRow.tighteningPass.data = nanRow := by
  decide +kernel

end Formulation

end CoefficientTightening
