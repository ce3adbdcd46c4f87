import CoefficientTightening.Proofs.ConsistentPass
import Mathlib.Algebra.BigOperators.Fin
import Mathlib.Algebra.Order.BigOperators.Group.Finset

/-! How many nonzeros a run leaves. Every nonzero of a matrix is counted in its row and in its
column, so either counts add up to their number. A change that writes a zero replaces a nonzero; it
is counted off once in its row, once in its column, and recorded once. So the number of nonzeros
falls by the number of these records. The columns are counted in the row storage here, which needs
neither linked storages nor coefficients without a NaN. -/
namespace CoefficientTightening

variable {α : Type} [Scalar α] {m n : Nat}

/-! ### Totals -/

namespace Sparse.Matrix

theorem nonzeros_eq_sum_rows (M : Matrix α m n) : M.toRows.nonzeros = ∑ i, M.rowNonzeros i := by
  rw [Rows.nonzeros, List.countP_flatten, toList_eq_map_get, List.map_map, Fin.sum_univ_def]
  congr 1
  apply List.map_congr_left
  intro i _
  rw [Function.comp_apply, get_toRows, List.countP_map]
  rfl

theorem nonzeros_eq_sum_columns (M : Matrix α m n) :
    M.toRows.nonzeros = ∑ j, M.columnNonzeros.get j := by
  generalize hindices : (M.toRows.toList.flatten.filterMap fun t =>
    if t.2 == 0 then none else some t.1) = indices
  have hcount : ∀ j, M.columnNonzeros.get j = (indices : Multiset (Fin n)).count j := fun j => by
    rw [columnNonzeros, hindices, get_tally, Multiset.coe_count]
  have hlength : indices.length = M.toRows.nonzeros := by
    rw [← hindices, List.length_filterMap_eq_countP, Rows.nonzeros]
    apply List.countP_congr
    intro t _
    by_cases hzero : t.2 == 0 <;> simp [hzero]
  simp only [hcount]
  rw [Multiset.sum_count_eq_card fun j _ => Finset.mem_univ j, Multiset.coe_card, hlength]

end Sparse.Matrix

/-! ### One change -/

namespace Tightening

/-- Number of nonzeros that the change takes away. -/
def gone (t : Tightening α m n) : Nat := if t.new == 0 then 1 else 0

end Tightening

namespace Formulation

open Tightening

variable {p : Formulation α m n} {t : Tightening α m n} {i : Fin m} {j : Fin n}

/-- The nonzeros of a row, or those in some columns of it, before and after a change. -/
theorem countP_nonzero_commit (hfits : t.Fits p) (hold : (t.old == 0) = false) (Q : Fin n → Bool)
    (i : Fin m) :
    ((p.commit t).matrix.rows.get i).toList.countP (fun c => Q c.column && !(c.value == 0)) +
        (if t.row = i then if Q t.column then t.gone else 0 else 0) =
      (p.matrix.rows.get i).toList.countP fun c => Q c.column && !(c.value == 0) := by
  obtain ⟨slot, hc⟩ := hfits.cell
  rw [matrix_commit, get_rows_write]
  split
  · next hrow =>
    subst hrow
    have hcount := countP_modify (f := fun c => { c with value := t.new })
      (fun c : Sparse.Cell α n => Q c.column && !(c.value == 0)) hc
    simp only [hold, Bool.not_false, Bool.and_true] at hcount
    unfold gone
    cases hQ : Q t.column
    · simpa [hQ] using hcount
    · cases hzero : t.new == 0
      · simpa [hQ, hzero] using hcount
      · simpa [hQ, hzero] using hcount
  · rfl

theorem rowNonzeros_add_gone (hfits : t.Fits p) (hold : (t.old == 0) = false) (i : Fin m) :
    (p.commit t).matrix.rowNonzeros i + (if t.row = i then t.gone else 0) =
      p.matrix.rowNonzeros i :=
  countP_nonzero_commit hfits hold (fun _ => true) i

theorem columnNonzeros_add_gone (hfits : t.Fits p) (hold : (t.old == 0) = false) (j : Fin n) :
    (p.commit t).matrix.columnNonzeros.get j + (if t.column = j then t.gone else 0) =
      p.matrix.columnNonzeros.get j := by
  have hrow := countP_nonzero_commit hfits hold fun j' => decide (j' = j)
  rw [Sparse.Matrix.get_columnNonzeros, Sparse.Matrix.get_columnNonzeros, ← Fin.sum_univ_def,
    ← Fin.sum_univ_def]
  calc ∑ i, ((p.commit t).matrix.rows.get i).toList.countP (Sparse.Matrix.isNonzeroIn j) +
        (if t.column = j then t.gone else 0)
      = ∑ i, (((p.commit t).matrix.rows.get i).toList.countP (Sparse.Matrix.isNonzeroIn j) +
          if t.row = i then if decide (t.column = j) then t.gone else 0 else 0) := by
        rw [Finset.sum_add_distrib, Finset.sum_ite_eq, if_pos (Finset.mem_univ _)]
        simp only [decide_eq_true_eq]
    _ = ∑ i, (p.matrix.rows.get i).toList.countP (Sparse.Matrix.isNonzeroIn j) :=
        Finset.sum_congr rfl fun i _ => hrow i

theorem nonzeros_add_gone (hfits : t.Fits p) (hold : (t.old == 0) = false) :
    (p.commit t).matrix.toRows.nonzeros + t.gone = p.matrix.toRows.nonzeros := by
  rw [Sparse.Matrix.nonzeros_eq_sum_rows, Sparse.Matrix.nonzeros_eq_sum_rows,
    ← Finset.sum_congr rfl fun i _ => rowNonzeros_add_gone hfits hold i, Finset.sum_add_distrib,
    Finset.sum_ite_eq, if_pos (Finset.mem_univ _)]

/-- The counts of rows and columns are those of the nonzeros in the row storage. -/
structure CountsNonzeros (p : Formulation α m n) : Prop where
  row : ∀ i, (p.rows.get i).nonzeros = .ofNat (p.matrix.rowNonzeros i)
  column : ∀ j, (p.columns.get j).nonzeros = .ofNat (p.matrix.columnNonzeros.get j)

theorem ofNat_gone {before after : Nat} (h : after + t.gone = before) :
    (if t.new == 0 then Int64.ofNat before - 1 else Int64.ofNat before) = Int64.ofNat after := by
  unfold gone at h
  subst h
  split
  · rw [Int64.ofNat_add]
    exact Int64.add_sub_cancel _ _
  · rfl

theorem CountsNonzeros.commit (h : p.CountsNonzeros) (hfits : t.Fits p)
    (hold : (t.old == 0) = false) : (p.commit t).CountsNonzeros where
  row i := by
    have hcount := rowNonzeros_add_gone hfits hold i
    rw [rowNonzeros_commit, h.row]
    split
    · next hrow =>
      rw [if_pos hrow] at hcount
      exact ofNat_gone hcount
    · next hrow =>
      rw [if_neg hrow, Nat.add_zero] at hcount
      rw [hcount]
  column j := by
    have hcount := columnNonzeros_add_gone hfits hold j
    rw [columnNonzeros_commit, h.column]
    split
    · next hcolumn =>
      rw [if_pos hcolumn] at hcount
      exact ofNat_gone hcount
    · next hcolumn =>
      rw [if_neg hcolumn, Nat.add_zero] at hcount
      rw [hcount]

end Formulation

/-! ### A pass -/

/-- How many records tell of a coefficient that became zero. -/
def Reduction.zeroRecords (log : List (Reduction α)) : Nat :=
  log.countP fun r => r.kind == "zero_coefficient"

theorem Tightening.zeroRecords_reductions (t : Tightening α m n) :
    Reduction.zeroRecords t.reductions = t.gone := by
  unfold Reduction.zeroRecords reductions gone
  cases t.new == 0 <;> cases t.newBound == t.oldBound <;> rfl

namespace Formulation

variable {p : Formulation α m n}

theorem CountsNonzeros.foldl_commit {ts : List (Tightening α m n)} (h : p.CountsNonzeros)
    (htrace : p.Trace ts) (hold : ∀ t ∈ ts, (t.old == 0) = false) :
    (ts.foldl Formulation.commit p).CountsNonzeros ∧
      (ts.foldl Formulation.commit p).matrix.toRows.nonzeros +
        Reduction.zeroRecords (ts.flatMap Tightening.reductions) = p.matrix.toRows.nonzeros := by
  induction ts generalizing p with
  | nil => exact ⟨h, rfl⟩
  | cons t rest ih =>
    have hold_t := hold t List.mem_cons_self
    have hgone := nonzeros_add_gone htrace.1 hold_t
    obtain ⟨hcounts, hrest⟩ := ih (h.commit htrace.1 hold_t) htrace.2
      fun u hu => hold u (List.mem_cons_of_mem _ hu)
    refine ⟨hcounts, ?_⟩
    have hrecords := t.zeroRecords_reductions
    unfold Reduction.zeroRecords at hrest hrecords ⊢
    rw [List.flatMap_cons, List.countP_append, hrecords]
    rw [List.foldl_cons]
    omega

/-- A pass keeps the counts right, and takes away as many nonzeros as it records. -/
theorem CountsNonzeros.tighten [RoundedScalar α] (h : p.CountsNonzeros) :
    p.tighten.CountsNonzeros ∧
      p.tighten.matrix.toRows.nonzeros + Reduction.zeroRecords p.tighteningPass.reductions =
        p.matrix.toRows.nonzeros := by
  rw [← foldl_commit_tightenings, reductions_tighteningPass]
  exact h.foldl_commit p.trace_tightenings fun t ht => old_ne_zero_of_mem_tightenings ht

/-! ### Sums of the counts -/

omit [Scalar α] in
/-- Counts kept as words, added up as words and as the whole numbers that they are. -/
theorem sum_counts {γ : Type} {size : Nat} {records : Vector γ size} {count : γ → Int64}
    {f : Fin size → Nat} (h : ∀ k, count (records.get k) = .ofNat (f k)) :
    (records.toList.map count).sum = .ofNat (∑ k, f k) ∧
      (∑ k, f k < 2 ^ 63 →
        (records.toList.map fun x => (count x).toInt).sum = ((∑ k, f k : Nat) : Int)) := by
  rw [Sparse.Matrix.toList_eq_map_get, List.map_map, List.map_map]
  constructor
  · have hcount : (List.finRange size).map (count ∘ records.get) =
        (List.finRange size).map fun k => Int64.ofNat (f k) := List.map_congr_left fun k _ => h k
    rw [hcount, Fin.sum_univ_def]
    induction List.finRange size with
    | nil => rfl
    | cons k rest ih =>
      rw [List.map_cons, List.sum_cons, ih, List.map_cons, List.sum_cons, Int64.ofNat_add]
  · intro hsmall
    have hle : ∀ k, f k < 2 ^ 63 := fun k =>
      (Finset.single_le_sum_of_canonicallyOrdered (Finset.mem_univ k)).trans_lt hsmall
    rw [← Fin.sum_univ_def, Nat.cast_sum]
    refine Finset.sum_congr rfl fun k _ => ?_
    rw [Function.comp_apply, h, Int64.toInt_ofNat_of_lt (hle k)]

theorem CountsNonzeros.sum_rows (h : p.CountsNonzeros) :
    (p.rows.toList.map (·.nonzeros)).sum = .ofNat p.matrix.toRows.nonzeros ∧
      (p.matrix.toRows.nonzeros < 2 ^ 63 →
        (p.rows.toList.map (·.nonzeros.toInt)).sum = p.matrix.toRows.nonzeros) := by
  rw [Sparse.Matrix.nonzeros_eq_sum_rows]
  exact sum_counts h.row

theorem CountsNonzeros.sum_columns (h : p.CountsNonzeros) :
    (p.columns.toList.map (·.nonzeros)).sum = .ofNat p.matrix.toRows.nonzeros ∧
      (p.matrix.toRows.nonzeros < 2 ^ 63 →
        (p.columns.toList.map (·.nonzeros.toInt)).sum = p.matrix.toRows.nonzeros) := by
  rw [Sparse.Matrix.nonzeros_eq_sum_columns]
  exact sum_counts h.column

end Formulation

end CoefficientTightening
