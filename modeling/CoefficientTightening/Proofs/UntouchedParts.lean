import CoefficientTightening.Proofs.IndependentRows
import CoefficientTightening.Proofs.ReachableStates

/-! What a pass leaves alone. It writes nothing but coefficients of integral active columns that are
not zero, in rows with one finite side; of such a row it moves the finite side, and it counts off
the coefficients that become zero. Since no two cells share an entry, the column storage changes at
the very same coefficients. Nothing here needs the parts to fit together: where the storages differ
or a count is wrong, a pass leaves the difference wherever it has nothing to write. -/
namespace CoefficientTightening

open Extended (finite infinite)
open Sparse (Cell)
open Sparse.Matrix (IsLinked)

variable {α : Type} [Scalar α] {m n : Nat}

namespace Formulation

variable {p q : Formulation α m n} {i : Fin m} {k : Nat} {c : Cell α n} {t : Tightening α m n}
  {ts : List (Tightening α m n)}

/-! ### Parts -/

/-- A coefficient that is not tightened: its column is no candidate, or it is zero. A pass reads
coefficients in the row storage, so the value is the one that stands there. -/
def IsProtected (p : Formulation α m n) (c : Cell α n) : Prop :=
  p.isCandidate c.column = false ∨ (c.value == 0) = true

/-- A row that is not tightened. -/
def IsIdle (p : Formulation α m n) (i : Fin m) : Prop :=
  (p.rows.get i).range.isRanged = true ∨ (p.rows.get i).range.isFree = true ∨
    ∀ c ∈ (p.matrix.rows.get i).toList, p.IsProtected c

/-- The cell is where it was, and its entry is as it was. The two need not agree. -/
structure KeepsCell (p q : Formulation α m n) (i : Fin m) (k : Nat) (c : Cell α n) : Prop where
  cell : (q.matrix.rows.get i)[k]? = some c
  entry : (q.matrix.columns.get c.column)[c.slot]? = (p.matrix.columns.get c.column)[c.slot]?

structure KeepsRow (p q : Formulation α m n) (i : Fin m) : Prop where
  row : q.rows.get i = p.rows.get i
  cells : q.matrix.rows.get i = p.matrix.rows.get i
  entries : ∀ c ∈ (p.matrix.rows.get i).toList,
    (q.matrix.columns.get c.column)[c.slot]? = (p.matrix.columns.get c.column)[c.slot]?

/-- What a formulation keeps on the way to another, of which the log tells what was done. -/
structure KeepsFrame (p q : Formulation α m n) (log : List (Reduction α)) : Prop where
  /-- Ranges, kinds and flags of the columns. -/
  columns : ∀ j, (p.columns.get j).Alike (q.columns.get j)
  /-- Columns and slots of the cells, and rows of the entries. -/
  shape : p.matrix.SameShape q.matrix
  idleRows : ∀ i, p.IsIdle i → p.KeepsRow q i
  sides : ∀ i side, (p.rows.get i).range.isFiniteAt side = false →
    (q.rows.get i).range.bound side = (p.rows.get i).range.bound side
  protectedCells : ∀ i k c, (p.matrix.rows.get i)[k]? = some c → p.IsProtected c →
    p.KeepsCell q i k c
  /-- A column that is no candidate keeps its count too. -/
  protectedColumns : ∀ j, p.isCandidate j = false → q.columns.get j = p.columns.get j
  unloggedCells : ∀ i k c, (p.matrix.rows.get i)[k]? = some c →
    (∀ r ∈ log, r.place? ≠ some (i.val, c.column.val)) → p.KeepsCell q i k c
  unloggedRowCounts : ∀ i : Fin m, (∀ j old, .zeroCoefficient i.val j old ∉ log) →
    (q.rows.get i).nonzeros = (p.rows.get i).nonzeros
  unloggedColumnCounts : ∀ j : Fin n, (∀ i old, .zeroCoefficient i j.val old ∉ log) →
    (q.columns.get j).nonzeros = (p.columns.get j).nonzeros

/-! ### Where changes are made -/

/-- A change is made at an unprotected cell. -/
theorem exists_cell_of_change (ht : t ∈ p.tightenings) :
    ∃ c, (p.matrix.rows.get t.row)[t.position]? = some c ∧ c.column = t.column ∧
      ¬ p.IsProtected c := by
  have hside := onlySide?_of_mem_tightenings ht
  rw [mem_tightenings, rowTightenings_eq, rowTighteningsIn_eq_visit hside] at ht
  obtain ⟨e, he, _, _, -, hprop⟩ := Tightening.exists_isProposed_of_mem_visit
    (I := fun _ _ => True) trivial (fun _ _ _ _ _ _ _ => trivial) ht
  refine ⟨e.1, ?_, hprop.column_eq.symm, ?_⟩
  · rw [hprop.position_eq]
    exact getElem?_of_mem_entries he
  · have hnonzero := hprop.nonzero
    rw [hprop.old_eq] at hnonzero
    rintro (hcolumn | hzero)
    · exact absurd (hprop.candidate.symm.trans hcolumn) (by decide)
    · exact absurd (hnonzero.symm.trans hzero) (by decide)

theorem coefficientRecord_mem_reductions (ht : t ∈ p.tightenings) :
    t.coefficientRecord ∈ p.tighteningPass.reductions :=
  List.mem_flatMap.mpr ⟨t, ht, List.mem_cons_self⟩

/-- A coefficient that becomes zero is recorded as such. -/
theorem zeroCoefficient_mem_reductions (ht : t ∈ p.tightenings) (hzero : (t.new == 0) = true) :
    .zeroCoefficient t.row t.column t.old ∈ p.tighteningPass.reductions := by
  have hmem := coefficientRecord_mem_reductions ht
  rwa [Tightening.coefficientRecord, if_pos hzero] at hmem

theorem rowTightenings_eq_nil_of_isIdle (h : p.IsIdle i) : p.rowTightenings i = [] := by
  rw [List.eq_nil_iff_forall_not_mem]
  intro t ht
  obtain rfl := row_of_mem_rowTightenings ht
  have ht := mem_tightenings.mpr ht
  have hside := onlySide?_of_mem_tightenings ht
  rcases h with hranged | hfree | hcells
  · simp [Interval.onlySide?, hranged] at hside
  · simp [Interval.onlySide?, hfree] at hside
  · obtain ⟨c, hc, -, hnot⟩ := exists_cell_of_change ht
    exact hnot (hcells c (mem_toList_of_getElem? hc))

/-! ### Coefficients -/

/-- Changes elsewhere leave a cell and its entry alone. -/
theorem keepsCell_foldl_commit (hlinked : p.matrix.IsLinked) (htrace : p.Trace ts)
    (hc : (p.matrix.rows.get i)[k]? = some c) (hts : ∀ t ∈ ts, ¬ (t.row = i ∧ t.position = k)) :
    p.KeepsCell (ts.foldl commit p) i k c := by
  induction ts generalizing p with
  | nil => exact ⟨hc, rfl⟩
  | cons t rest ih =>
    obtain ⟨slot, hat⟩ := htrace.1.cell
    have hne := hts t List.mem_cons_self
    have hcell : ((p.commit t).matrix.rows.get i)[k]? = some c := by
      rw [matrix_commit, Sparse.Matrix.getElem?_rows_write hat, if_neg hne, hc]
    have hlater := ih ((p.sameShape_commit t).isLinked hlinked) htrace.2 hcell
      fun u hu => hts u (List.mem_cons_of_mem _ hu)
    refine ⟨hlater.cell, hlater.entry.trans ?_⟩
    rw [matrix_commit, hlinked.getElem?_columns_write hat hc, if_neg hne]

theorem keepsCell_tighten (hlinked : p.matrix.IsLinked)
    (hc : (p.matrix.rows.get i)[k]? = some c)
    (h : ∀ t ∈ p.tightenings, ¬ (t.row = i ∧ t.position = k)) : p.KeepsCell p.tighten i k c := by
  rw [← foldl_commit_tightenings]
  exact keepsCell_foldl_commit hlinked p.trace_tightenings hc h

/-! ### Counts -/

/-- A count stays if no change that it is about makes a coefficient zero. -/
theorem count_tighten_of_kept (count : Formulation α m n → Int64) (hit : Tightening α m n → Bool)
    (hcommit : ∀ p t, count (p.commit t) = if hit t && t.new == 0 then count p - 1 else count p)
    (h : ∀ t ∈ p.tightenings, hit t = true → (t.new == 0) = false) :
    count p.tighten = count p := by
  have hnone : p.tightenings.countP (fun t => hit t && t.new == 0) = 0 := by
    rw [List.countP_eq_zero]
    intro t ht hzero
    obtain ⟨hhit, hzero⟩ := Bool.and_eq_true_iff.mp hzero
    exact absurd (hzero.symm.trans (h t ht hhit)) (by decide)
  rw [← foldl_commit_tightenings, count_foldl_commit count hit hcommit, hnone]
  exact Int64.sub_zero _

theorem rowCount_tighten_of_kept (h : ∀ t ∈ p.tightenings, t.row = i → (t.new == 0) = false) :
    (p.tighten.rows.get i).nonzeros = (p.rows.get i).nonzeros := by
  refine count_tighten_of_kept (fun p => (p.rows.get i).nonzeros) (fun t => decide (t.row = i))
    (fun p t => ?_) fun t ht hrow => h t ht (of_decide_eq_true hrow)
  rw [rowNonzeros_commit]
  by_cases hrow : t.row = i <;> simp [hrow]

theorem columnCount_tighten_of_kept {j : Fin n}
    (h : ∀ t ∈ p.tightenings, t.column = j → (t.new == 0) = false) :
    (p.tighten.columns.get j).nonzeros = (p.columns.get j).nonzeros := by
  refine count_tighten_of_kept (fun p => (p.columns.get j).nonzeros)
    (fun t => decide (t.column = j)) (fun p t => ?_)
    fun t ht hcolumn => h t ht (of_decide_eq_true hcolumn)
  rw [columnNonzeros_commit]
  by_cases hcolumn : t.column = j <;> simp [hcolumn]

/-! ### Rows -/

omit [Scalar α] in
theorem row_ext {r s : Row α} (hrange : s.range = r.range) (hcount : s.nonzeros = r.nonzeros) :
    s = r := by
  cases r
  cases s
  rw [Row.mk.injEq]
  exact ⟨hrange, hcount⟩

/-- A row without changes stays as it is, and so do its entries in the columns. -/
theorem keepsRow_tighten (hlinked : p.matrix.IsLinked) (h : p.rowTightenings i = []) :
    p.KeepsRow p.tighten i := by
  have hno : ∀ t ∈ p.tightenings, t.row ≠ i := by
    rintro t ht rfl
    rw [mem_tightenings, h] at ht
    cases ht
  have hstate : p.tighten.rowState i = p.rowState i := by
    rw [rowState_tighten, h]
    rfl
  refine ⟨row_ext (range_eq hstate) ?_, cells_eq hstate, fun c hc => ?_⟩
  · exact rowCount_tighten_of_kept fun t ht hrow => absurd hrow (hno t ht)
  · obtain ⟨k, hk⟩ := Array.getElem?_of_mem (Array.mem_toList_iff.mp hc)
    exact (keepsCell_tighten hlinked hk fun t ht hat => hno t ht hat.1).entry

theorem bound_tighten_of_not_finite {side : Side}
    (h : (p.rows.get i).range.isFiniteAt side = false) :
    (p.tighten.rows.get i).range.bound side = (p.rows.get i).range.bound side := by
  rcases p.range_tighten_cases i with hsame | ⟨side', value, honly, hset⟩
  · rw [hsame]
  · obtain ⟨hfinite, -⟩ := Interval.onlySide?_eq_some_iff.mp honly
    have hside : side = side'.opposite := by
      cases side <;> cases side' <;> simp_all [Side.opposite]
    rw [hset, hside, Interval.bound_setBound_opposite]

/-! ### The frame -/

/-- The frame of a pass, for every formulation that can come up. -/
theorem keepsFrame_tighteningPass (h : p.IsReachable) :
    p.KeepsFrame p.tighteningPass.data p.tighteningPass.reductions where
  columns := p.alike_tighten
  shape := p.sameShape_tighten
  idleRows i hidle := keepsRow_tighten h.isLinked (rowTightenings_eq_nil_of_isIdle hidle)
  sides i side := bound_tighten_of_not_finite
  protectedCells i k c hc hprotected := by
    refine keepsCell_tighten h.isLinked hc fun t ht hat => ?_
    obtain ⟨c', hc', -, hnot⟩ := exists_cell_of_change ht
    rw [hat.1, hat.2, hc] at hc'
    exact hnot (Option.some.inj hc' ▸ hprotected)
  protectedColumns j hj := by
    refine (p.alike_tighten j).ext (columnCount_tighten_of_kept fun t ht hcolumn => ?_)
    obtain ⟨c, -, hc, hnot⟩ := exists_cell_of_change ht
    exact absurd (.inl (by rw [hc, hcolumn, hj])) hnot
  unloggedCells i k c hc hlog := by
    refine keepsCell_tighten h.isLinked hc fun t ht hat => ?_
    obtain ⟨c', hc', hcolumn, -⟩ := exists_cell_of_change ht
    rw [hat.1, hat.2, hc] at hc'
    obtain rfl := Option.some.inj hc'
    apply hlog _ (coefficientRecord_mem_reductions ht)
    rw [Tightening.place?_coefficientRecord, hat.1, hcolumn]
  unloggedRowCounts i hlog := by
    refine rowCount_tighten_of_kept fun t ht hrow => Bool.eq_false_iff.mpr fun hzero => ?_
    subst hrow
    exact hlog _ _ (zeroCoefficient_mem_reductions ht hzero)
  unloggedColumnCounts j hlog := by
    refine columnCount_tighten_of_kept fun t ht hcolumn => Bool.eq_false_iff.mpr fun hzero => ?_
    subst hcolumn
    exact hlog _ _ (zeroCoefficient_mem_reductions ht hzero)

/-- The mixed row after someone wrote 7 for the coefficient of `x₂` into the column storage alone,
and 9 for the count of the row. -/
def brokenRow : Formulation Extended 1 3 :=
  let p := mixedRow 10 2
  { p with matrix := p.matrix.writeColumn (Fin.last 2) 0 (finite 7) }.setRow (Fin.last 0)
    fun r => { r with nonzeros := 9 }

theorem isReachable_brokenRow : brokenRow.IsReachable :=
  .changed (.rowNonzeros 0 9)
    (.changed (.columnEntry 2 0 (finite 7)) (isReachable_mixedRow 10 2) rfl) rfl

/-- The pass cuts the other two coefficients, and what was broken stays broken. -/
theorem brokenRow_keepsFrame :
    let q := brokenRow.tighteningPass.data
    (q.matrix.rows.get (Fin.last 0))[2]? = some ⟨Fin.last 2, 0, finite 1⟩ ∧
      (q.matrix.columns.get (Fin.last 2))[0]? = some ⟨Fin.last 0, finite 7⟩ ∧
      q.columns.get (Fin.last 2) = brokenRow.columns.get (Fin.last 2) ∧
      (q.rows.get (Fin.last 0)).range = ⟨infinite true, finite 5⟩ := by
  have hframe := keepsFrame_tighteningPass isReachable_brokenRow
  obtain ⟨hcell, hentry⟩ := hframe.protectedCells (Fin.last 0) 2 ⟨Fin.last 2, 0, finite 1⟩
    (by decide +kernel) (.inl (by decide +kernel))
  exact ⟨hcell, hentry.trans (by decide +kernel),
    hframe.protectedColumns _ (by decide +kernel), by decide +kernel⟩

end Formulation

end CoefficientTightening
