import CoefficientTightening.Tightening

/-! What one pass does to one row. Tightening reads a row's entries and range and, of each column,
everything but the count of nonzeros; it writes the same parts of the same row and counts. So the
rows before a row do not change what happens in it: after the pass the row is what its own changes,
found on the formulation before the pass, make of it. This holds over every kind of scalar. -/
namespace CoefficientTightening

variable {α : Type} [Scalar α] {m n : Nat}

/-- Columns that differ at most in their count of nonzeros. -/
structure Column.Alike (c d : Column α) : Prop where
  range : d.range = c.range
  kind : d.kind = c.kind
  active : d.active = c.active

omit [Scalar α] in
theorem Column.Alike.refl (c : Column α) : c.Alike c := ⟨rfl, rfl, rfl⟩

omit [Scalar α] in
theorem Column.Alike.symm {c d : Column α} (h : c.Alike d) : d.Alike c :=
  ⟨h.range.symm, h.kind.symm, h.active.symm⟩

omit [Scalar α] in
theorem Column.Alike.trans {c d e : Column α} (h : c.Alike d) (k : d.Alike e) : c.Alike e :=
  ⟨k.range.trans h.range, k.kind.trans h.kind, k.active.trans h.active⟩

omit [Scalar α] in
theorem Column.Alike.isCandidate {c d : Column α} (h : c.Alike d) :
    d.isCandidate = c.isCandidate := by
  rw [Column.isCandidate, h.kind, h.active, Column.isCandidate]

/-- The part of a row that tightening reads and writes. -/
structure RowState (α : Type) (n : Nat) where
  cells : Array (Sparse.Cell α n)
  range : Interval α
  deriving DecidableEq

/-- Carry out one change of the row. -/
def RowState.change (s : RowState α n) (t : Tightening α m n) : RowState α n where
  cells := s.cells.modify t.position fun c => { c with value := t.new }
  range := s.range.setBound t.newBound t.side

namespace Formulation

def rowState (p : Formulation α m n) (i : Fin m) : RowState α n :=
  ⟨p.matrix.rows.get i, (p.rows.get i).range⟩

omit [Scalar α] in
theorem cells_eq {p q : Formulation α m n} {i : Fin m} (h : q.rowState i = p.rowState i) :
    q.matrix.rows.get i = p.matrix.rows.get i :=
  congrArg RowState.cells h

omit [Scalar α] in
theorem range_eq {p q : Formulation α m n} {i : Fin m} (h : q.rowState i = p.rowState i) :
    (q.rows.get i).range = (p.rows.get i).range :=
  congrArg RowState.range h

/-! ### One change -/

omit [Scalar α] in
theorem get_rows_write (M : Sparse.Matrix α m n) (i i' : Fin m) (k : Nat) (value : α) :
    (M.write i k value).rows.get i' =
      if i = i' then (M.rows.get i').modify k fun c => { c with value } else M.rows.get i' := by
  unfold Sparse.Matrix.write
  split
  · simp [Sparse.Matrix.writeColumn, Sparse.Matrix.writeRow]
  · next h =>
    -- nothing is stored at the position, and changing it changes nothing
    have hk : (M.rows.get i).size ≤ k := by simpa using h
    split
    · next heq =>
      subst heq
      apply Array.toList_inj.mp
      rw [Array.toList_modify, List.modify_eq_self (by simpa using hk)]
    · rfl

theorem rowState_commit (p : Formulation α m n) (t : Tightening α m n) (i : Fin m) :
    (p.commit t).rowState i = if t.row = i then (p.rowState i).change t else p.rowState i := by
  unfold commit rowState RowState.change setRow setColumn
  by_cases hrow : t.row = i <;> by_cases hzero : t.new == 0 <;>
    simp [get_rows_write, hrow, hzero]

theorem alike_commit (p : Formulation α m n) (t : Tightening α m n) (j : Fin n) :
    (p.columns.get j).Alike ((p.commit t).columns.get j) := by
  unfold commit setRow setColumn
  by_cases hzero : t.new == 0
  · by_cases hcol : t.column = j <;> simp [hzero, hcol] <;> constructor <;> rfl
  · simpa [hzero] using Column.Alike.refl _

theorem rowState_foldl_commit (ts : List (Tightening α m n)) (p : Formulation α m n) (i : Fin m)
    (h : ∀ t ∈ ts, t.row = i) :
    (ts.foldl commit p).rowState i = ts.foldl RowState.change (p.rowState i) := by
  induction ts generalizing p with
  | nil => rfl
  | cons t rest ih =>
    rw [List.foldl_cons, List.foldl_cons, ih _ fun u hu => h u (List.mem_cons_of_mem _ hu),
      rowState_commit, if_pos (h t List.mem_cons_self)]

theorem rowState_foldl_commit_of_ne (ts : List (Tightening α m n)) (p : Formulation α m n)
    (i : Fin m) (h : ∀ t ∈ ts, t.row ≠ i) : (ts.foldl commit p).rowState i = p.rowState i := by
  induction ts generalizing p with
  | nil => rfl
  | cons t rest ih =>
    rw [List.foldl_cons, ih _ fun u hu => h u (List.mem_cons_of_mem _ hu), rowState_commit,
      if_neg (h t List.mem_cons_self)]

theorem alike_foldl_commit (ts : List (Tightening α m n)) (p : Formulation α m n) (j : Fin n) :
    (p.columns.get j).Alike ((ts.foldl commit p).columns.get j) := by
  induction ts generalizing p with
  | nil => exact Column.Alike.refl _
  | cons t rest ih => exact (p.alike_commit t j).trans (ih _)

end Formulation

/-! ### The changes of a row -/

namespace Tightening

theorem row_of_mem_walk {columns : Vector (Column α) n} {row : Fin m} {side : Side}
    {cells : List (Sparse.Cell α n)} {position : Nat} {bound total : α} {t : Tightening α m n}
    (h : t ∈ walk columns row side position bound total cells) : t.row = row := by
  induction cells generalizing position bound total with
  | nil => cases h
  | cons c rest ih =>
    simp only [walk] at h
    split at h
    · split at h
      · exact ih h
      · rcases List.mem_cons.mp h with rfl | hmem
        · rfl
        · exact ih hmem
    · exact ih h

theorem walk_congr {columns columns' : Vector (Column α) n}
    (h : ∀ j, (columns.get j).Alike (columns'.get j)) (row : Fin m) (side : Side)
    (position : Nat) (bound total : α) (cells : List (Sparse.Cell α n)) :
    walk columns' row side position bound total cells =
      walk columns row side position bound total cells := by
  induction cells generalizing position bound total with
  | nil => rfl
  | cons c rest ih =>
    simp only [walk, (h c.column).range, (h c.column).isCandidate, ih]

end Tightening

namespace Formulation

theorem row_of_mem_rowTightenings {p : Formulation α m n} {i : Fin m} {t : Tightening α m n}
    (h : t ∈ p.rowTightenings i) : t.row = i := by
  simp only [rowTightenings] at h
  split at h
  · cases h
  · split at h
    · exact Tightening.row_of_mem_walk h
    · cases h

/-- The changes of a row depend on nothing but the row and what a pass reads of the columns. -/
theorem rowTightenings_congr {p q : Formulation α m n} {i : Fin m}
    (hrow : q.rowState i = p.rowState i)
    (hcols : ∀ j, (p.columns.get j).Alike (q.columns.get j)) :
    q.rowTightenings i = p.rowTightenings i := by
  unfold rowTightenings rowActivity rowTerms columnIsIntegral
  simp only [cells_eq hrow, range_eq hrow, (hcols _).range, (hcols _).kind, Tightening.walk_congr hcols]

/-! ### The pass -/

theorem data_tighteningPass (p : Formulation α m n) : p.tighteningPass.data = p.tighten := rfl

theorem alike_tightenRows (rows : List (Fin m)) (p : Formulation α m n) (j : Fin n) :
    (p.columns.get j).Alike ((p.tightenRows rows).1.columns.get j) := by
  induction rows generalizing p with
  | nil => exact Column.Alike.refl _
  | cons i rest ih => exact (alike_foldl_commit _ p j).trans (ih _)

theorem alike_tighten (p : Formulation α m n) (j : Fin n) :
    (p.columns.get j).Alike (p.tighten.columns.get j) :=
  alike_tightenRows _ p j

theorem rowState_tightenRows_of_notMem (rows : List (Fin m)) (p : Formulation α m n) (i : Fin m)
    (h : i ∉ rows) : (p.tightenRows rows).1.rowState i = p.rowState i := by
  induction rows generalizing p with
  | nil => rfl
  | cons i₀ rest ih =>
    obtain ⟨hne, hrest⟩ := not_or.mp (mt List.mem_cons.mpr h)
    have hhere : ∀ t ∈ p.rowTightenings i₀, t.row ≠ i :=
      fun t ht heq => hne (heq.symm.trans (row_of_mem_rowTightenings ht))
    exact (ih _ hrest).trans (rowState_foldl_commit_of_ne _ p i hhere)

theorem rowState_tightenRows (rows : List (Fin m)) (hnodup : rows.Nodup) (p : Formulation α m n)
    (i : Fin m) (h : i ∈ rows) :
    (p.tightenRows rows).1.rowState i =
      (p.rowTightenings i).foldl RowState.change (p.rowState i) := by
  induction rows generalizing p with
  | nil => cases h
  | cons i₀ rest ih =>
    obtain ⟨hfresh, hrest⟩ := List.nodup_cons.mp hnodup
    rcases List.mem_cons.mp h with rfl | hmem
    · -- the row itself: no later row touches it
      exact (rowState_tightenRows_of_notMem rest _ i hfresh).trans
        (rowState_foldl_commit _ p i fun _ => row_of_mem_rowTightenings)
    · -- an earlier row: it leaves the row and what is read of the columns as they were
      have hne : ∀ t ∈ p.rowTightenings i₀, t.row ≠ i := fun t ht heq =>
        hfresh (by rwa [← row_of_mem_rowTightenings ht, heq])
      have hsame := rowState_foldl_commit_of_ne _ p i hne
      refine (ih hrest _ hmem).trans ?_
      rw [hsame, rowTightenings_congr hsame (alike_foldl_commit _ p)]

/-- After a pass, a row is what its own changes make of it. -/
theorem rowState_tighten (p : Formulation α m n) (i : Fin m) :
    p.tighten.rowState i = (p.rowTightenings i).foldl RowState.change (p.rowState i) :=
  rowState_tightenRows _ (List.nodup_finRange m) p i (List.mem_finRange i)

/-! ### Formulations that agree on a row -/

section Agreement

variable {p q r : Formulation α m n} {i : Fin m}

/-- Formulations that tightening cannot tell apart when it comes to the row. -/
structure AgreesAt (i : Fin m) (p q : Formulation α m n) : Prop where
  row : q.rowState i = p.rowState i
  columns : ∀ j, (p.columns.get j).Alike (q.columns.get j)

omit [Scalar α] in
theorem AgreesAt.refl (i : Fin m) (p : Formulation α m n) : AgreesAt i p p :=
  ⟨rfl, fun _ => Column.Alike.refl _⟩

omit [Scalar α] in
theorem AgreesAt.symm (h : AgreesAt i p q) : AgreesAt i q p :=
  ⟨h.row.symm, fun j => (h.columns j).symm⟩

omit [Scalar α] in
theorem AgreesAt.trans (h : AgreesAt i p q) (k : AgreesAt i q r) : AgreesAt i p r :=
  ⟨k.row.trans h.row, fun j => (h.columns j).trans (k.columns j)⟩

/-- The row is the same again after a pass. -/
theorem AgreesAt.tighten (h : AgreesAt i p q) : AgreesAt i p.tighten q.tighten where
  row := by
    rw [rowState_tighten, rowState_tighten, rowTightenings_congr h.row h.columns, h.row]
  columns j := ((p.alike_tighten j).symm.trans (h.columns j)).trans (q.alike_tighten j)

/-- The changes of a row do to it what the whole pass does. -/
theorem agreesAt_foldl_commit (p : Formulation α m n) (i : Fin m) :
    AgreesAt i ((p.rowTightenings i).foldl commit p) p.tighten where
  row := by
    rw [rowState_tighten, rowState_foldl_commit _ p i fun _ => row_of_mem_rowTightenings]
  columns j := (alike_foldl_commit _ p j).symm.trans (p.alike_tighten j)

/-- What a pass has made of the formulation when it comes to the row. -/
def reached (p : Formulation α m n) (i : Fin m) : Formulation α m n :=
  (p.tightenRows ((List.finRange m).take i)).1

theorem tightenRows_append (rows later : List (Fin m)) (p : Formulation α m n) :
    (p.tightenRows (rows ++ later)).1 = ((p.tightenRows rows).1.tightenRows later).1 := by
  induction rows generalizing p with
  | nil => rfl
  | cons i rest ih => exact ih _

/-- From there the pass goes on with the changes of the row. -/
theorem tighten_eq_reached (p : Formulation α m n) (i : Fin m) :
    p.tighten = ((((p.reached i).rowTightenings i).foldl commit (p.reached i)).tightenRows
      ((List.finRange m).drop (i + 1))).1 := by
  have hlen : i.val < (List.finRange m).length := by
    rw [List.length_finRange]
    exact i.isLt
  have hdrop : (List.finRange m).drop i = i :: (List.finRange m).drop (i + 1) := by
    rw [List.drop_eq_getElem_cons hlen, List.getElem_finRange]
    rfl
  have happend := p.tightenRows_append ((List.finRange m).take i) ((List.finRange m).drop i)
  rw [List.take_append_drop] at happend
  rw [Formulation.tighten, happend, hdrop]
  rfl

theorem agreesAt_reached (p : Formulation α m n) (i : Fin m) : AgreesAt i p (p.reached i) where
  row := by
    refine rowState_tightenRows_of_notMem _ p i fun hmem => ?_
    obtain ⟨k, hk, heq⟩ := List.mem_iff_getElem.mp hmem
    rw [List.length_take] at hk
    rw [List.getElem_take, List.getElem_finRange] at heq
    have hval := congrArg Fin.val heq
    simp only [Fin.val_cast] at hval
    omega
  columns j := alike_tightenRows _ p j

end Agreement

end Formulation

end CoefficientTightening
