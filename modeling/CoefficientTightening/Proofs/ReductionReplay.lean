import CoefficientTightening.Proofs.ConsistentPass

/-! Carrying out records again. A record of a coefficient writes the number at its position in both
storages, wherever the position is stored; a coefficient that became zero is counted off as well; a
record of a bound writes the bound. Replayed where a change fits, the change's records do what the
change did, read as exact values: a record of a zero writes the zero of the numbers, and a bound that
is left out of the records has not moved. -/
namespace CoefficientTightening

open RoundedScalar (denote denote_zero beq_zero_iff beq_iff_denote)

/-! ### Reading numbers as other numbers -/

section Map

variable {α β : Type} {m n : Nat}

@[simp] theorem get_map {k : Nat} (f : α → β) (xs : Vector α k) (i : Fin k) :
    (xs.map f).get i = f (xs.get i) := by
  simp [get_eq_getElem]

def Interval.map (f : α → β) (r : Interval α) : Interval β := ⟨f r.lower, f r.upper⟩

theorem Interval.map_setBound (f : α → β) (r : Interval α) (value : α) (side : Side) :
    (r.setBound value side).map f = (r.map f).setBound (f value) side := by
  cases side <;> rfl

theorem Interval.bound_map (f : α → β) (r : Interval α) (side : Side) :
    (r.map f).bound side = f (r.bound side) := by
  cases side <;> rfl

namespace Sparse

def Cell.map (f : α → β) (c : Cell α n) : Cell β n := ⟨c.column, c.slot, f c.value⟩

def ColumnEntry.map (f : α → β) (e : ColumnEntry α m) : ColumnEntry β m := ⟨e.row, f e.value⟩

def Matrix.map (f : α → β) (M : Matrix α m n) : Matrix β m n where
  rows := M.rows.map (·.map (Cell.map f))
  columns := M.columns.map (·.map (ColumnEntry.map f))

theorem Matrix.get_rows_map (f : α → β) (M : Matrix α m n) (i : Fin m) :
    (M.map f).rows.get i = (M.rows.get i).map (Cell.map f) := get_map _ _ _

theorem Matrix.get_columns_map (f : α → β) (M : Matrix α m n) (j : Fin n) :
    (M.map f).columns.get j = (M.columns.get j).map (ColumnEntry.map f) := get_map _ _ _

end Sparse

def Row.map (f : α → β) (r : Row α) : Row β := ⟨r.range.map f, r.nonzeros⟩

def Column.map (f : α → β) (c : Column α) : Column β :=
  ⟨c.range.map f, c.kind, c.active, c.nonzeros⟩

/-- The formulation with each number read as another one. -/
def Formulation.map (f : α → β) (p : Formulation α m n) : Formulation β m n where
  matrix := p.matrix.map f
  rows := p.rows.map (Row.map f)
  columns := p.columns.map (Column.map f)

theorem Formulation.map_eq_map_iff {f : α → β} {p q : Formulation α m n} :
    p.map f = q.map f ↔ p.matrix.map f = q.matrix.map f ∧
      (∀ i, (p.rows.get i).map f = (q.rows.get i).map f) ∧
      ∀ j, (p.columns.get j).map f = (q.columns.get j).map f := by
  constructor
  · intro h
    refine ⟨congrArg matrix h, fun i => ?_, fun j => ?_⟩
    · simpa [map] using congrArg (fun q => q.rows.get i) h
    · simpa [map] using congrArg (fun q => q.columns.get j) h
  · rintro ⟨hmatrix, hrows, hcolumns⟩
    have hrows' : p.rows.map (Row.map f) = q.rows.map (Row.map f) :=
      vector_ext fun i => by rw [get_map, get_map, hrows]
    have hcolumns' : p.columns.map (Column.map f) = q.columns.map (Column.map f) :=
      vector_ext fun j => by rw [get_map, get_map, hcolumns]
    unfold map
    rw [hmatrix, hrows', hcolumns']

/-- Change one component in place, if there is one of that number. -/
def updateAt {k : Nat} (xs : Vector β k) (i : Nat) (f : β → β) : Vector β k :=
  .ofFn fun i' => if i'.val = i then f (xs.get i') else xs.get i'

@[simp] theorem get_updateAt {k : Nat} (xs : Vector β k) (i : Nat) (f : β → β) (i' : Fin k) :
    (updateAt xs i f).get i' = if i'.val = i then f (xs.get i') else xs.get i' := by
  simp [updateAt, get_eq_getElem]

end Map

variable {α : Type} [Scalar α] {m n : Nat}

/-! ### Writing a position -/

namespace Sparse.Matrix

variable {M : Matrix α m n}

/-- Write the coefficient at a position, in both storages. -/
def put (M : Matrix α m n) (i j : Nat) (value : α) : Matrix α m n where
  rows := updateAt M.rows i (·.map fun c => if c.column.val = j then { c with value } else c)
  columns := updateAt M.columns j (·.map fun e => if e.row.val = i then { e with value } else e)

omit [Scalar α] in
theorem map_put {β : Type} (f : α → β) (M : Matrix α m n) (i j : Nat) (value : α) :
    (M.put i j value).map f = (M.map f).put i j (f value) := by
  unfold put map
  congr 1
  · apply vector_ext
    intro i'
    rw [get_map, get_updateAt, get_updateAt, get_map]
    split
    · rw [Array.map_map, Array.map_map]
      congr 1
      funext c
      by_cases hc : c.column.val = j <;> simp [Cell.map, hc]
    · rfl
  · apply vector_ext
    intro j'
    rw [get_map, get_updateAt, get_updateAt, get_map]
    split
    · rw [Array.map_map, Array.map_map]
      congr 1
      funext e
      by_cases he : e.row.val = i <;> simp [ColumnEntry.map, he]
    · rfl

omit [Scalar α] in
/-- In a linked matrix a position has one cell and one entry. -/
theorem IsLinked.put_eq_write (hM : M.IsLinked) {i : Fin m} {k : Nat} {c : Cell α n}
    (hc : (M.rows.get i)[k]? = some c) (value : α) :
    M.put i c.column value = M.write i k value := by
  obtain ⟨e, he, hrow⟩ := hM.exists_entry (mem_toList_of_getElem? hc)
  have hrows : (M.put i c.column value).rows = (M.write i k value).rows := by
    apply vector_ext
    intro i'
    rw [Formulation.get_rows_write, put, get_updateAt]
    by_cases hi : i = i'
    · subst hi
      rw [if_pos rfl, if_pos rfl]
      apply Array.ext_getElem?
      intro k'
      rw [Array.getElem?_map, Array.getElem?_modify]
      by_cases hk : k = k'
      · subst hk
        rw [if_pos rfl, hc, Option.map_some, Option.map_some, if_pos rfl]
      · rw [if_neg hk]
        cases hc' : (M.rows.get i)[k']? with
        | none => rfl
        | some c' =>
          -- another position of the row holds another column
          have hcolumn : ¬ c'.column.val = c.column.val := fun heq =>
            hk (eq_of_getElem?_of_nodup (hM.columns_nodup i) hc hc' (Fin.ext heq.symm))
          rw [Option.map_some, if_neg hcolumn]
    · rw [if_neg (fun h => hi (Fin.ext h.symm)), if_neg hi]
  have hcolumns : (M.put i c.column value).columns = (M.write i k value).columns := by
    apply vector_ext
    intro j
    rw [get_columns_write hc, put, get_updateAt]
    by_cases hj : c.column = j
    · subst hj
      rw [if_pos rfl, if_pos rfl]
      apply Array.ext_getElem?
      intro slot
      rw [Array.getElem?_map, Array.getElem?_modify]
      by_cases hslot : c.slot = slot
      · subst hslot
        rw [if_pos rfl, he, Option.map_some, Option.map_some, if_pos (congrArg Fin.val hrow)]
      · rw [if_neg hslot]
        cases he' : (M.columns.get c.column)[slot]? with
        | none => rfl
        | some e' =>
          -- another slot of the column belongs to another row
          have hne : ¬ e'.row.val = i.val := fun heq =>
            hslot (eq_of_getElem?_of_nodup (hM.owners_nodup c.column) he he'
              (hrow.trans (Fin.ext heq.symm)))
          rw [Option.map_some, if_neg hne]
    · rw [if_neg (fun h => hj (Fin.ext h.symm)), if_neg hj]
  calc M.put i c.column value
      = ⟨(M.put i c.column value).rows, (M.put i c.column value).columns⟩ := rfl
    _ = ⟨(M.write i k value).rows, (M.write i k value).columns⟩ := by rw [hrows, hcolumns]

end Sparse.Matrix

/-! ### Replaying records -/

namespace Reduction

/-- Carry out a record. A record of an unknown kind does nothing. -/
def replay (p : Formulation α m n) : Reduction α → Formulation α m n
  | tightenCoefficient i j _ new => { p with matrix := p.matrix.put i j new }
  | zeroCoefficient i j _ =>
    { matrix := p.matrix.put i j 0
      rows := updateAt p.rows i fun r => { r with nonzeros := r.nonzeros - 1 }
      columns := updateAt p.columns j fun c => { c with nonzeros := c.nonzeros - 1 } }
  | tightenRowBound i side _ new =>
    { p with rows := updateAt p.rows i fun r => { r with range := r.range.setBound new side } }
  | custom .. => p

theorem get_rows_replay_bound (p : Formulation α m n) (i : Nat) (side : Side) (old new : α)
    (i' : Fin m) : (replay p (.tightenRowBound i side old new)).rows.get i' =
      if i'.val = i then
        { p.rows.get i' with range := (p.rows.get i').range.setBound new side }
      else p.rows.get i' :=
  get_updateAt _ _ _ _

/-- A replay depends on what the numbers are read as. -/
theorem replay_congr {β : Type} {f : α → β} {p q : Formulation α m n} (h : p.map f = q.map f)
    (r : Reduction α) : (replay p r).map f = (replay q r).map f := by
  obtain ⟨hmatrix, hrows, hcolumns⟩ := Formulation.map_eq_map_iff.mp h
  have hput : ∀ i j value, (p.matrix.put i j value).map f = (q.matrix.put i j value).map f := by
    intro i j value
    rw [Sparse.Matrix.map_put, Sparse.Matrix.map_put, hmatrix]
  have hcount : ∀ i, (p.rows.get i).nonzeros = (q.rows.get i).nonzeros :=
    fun i => (congrArg Row.nonzeros (hrows i) : ((p.rows.get i).map f).nonzeros = _)
  have hrange : ∀ i, (p.rows.get i).range.map f = (q.rows.get i).range.map f :=
    fun i => (congrArg Row.range (hrows i) : ((p.rows.get i).map f).range = _)
  rw [Formulation.map_eq_map_iff]
  cases r with
  | tightenCoefficient i j old new => exact ⟨hput i j new, hrows, hcolumns⟩
  | zeroCoefficient i j old =>
    refine ⟨hput i j 0, fun i' => ?_, fun j' => ?_⟩
    · simp only [replay, get_updateAt]
      split
      · simp only [Row.map, hcount, hrange]
      · exact hrows i'
    · simp only [replay, get_updateAt]
      split
      · have hcolumn := hcolumns j'
        simp only [Column.map, Column.mk.injEq] at hcolumn ⊢
        obtain ⟨hrange, hkind, hactive, hnonzeros⟩ := hcolumn
        exact ⟨hrange, hkind, hactive, by rw [hnonzeros]⟩
      · exact hcolumns j'
  | tightenRowBound i side old new =>
    refine ⟨hmatrix, fun i' => ?_, hcolumns⟩
    simp only [replay, get_updateAt]
    split
    · simp only [Row.map, Interval.map_setBound, hcount, hrange]
    · exact hrows i'
  | custom kind target value => exact ⟨hmatrix, hrows, hcolumns⟩

theorem foldl_replay_congr {β : Type} {f : α → β} (log : List (Reduction α))
    {p q : Formulation α m n} (h : p.map f = q.map f) :
    (log.foldl replay p).map f = (log.foldl replay q).map f := by
  induction log generalizing p q with
  | nil => exact h
  | cons r rest ih => exact ih (replay_congr h r)

end Reduction

namespace Tightening

variable {p q : Formulation α m n} {t : Tightening α m n}

/-- The record of the coefficient. -/
def coefficientRecord (t : Tightening α m n) : Reduction α :=
  if t.new == 0 then .zeroCoefficient t.row t.column t.old
  else .tightenCoefficient t.row t.column t.old t.new

theorem reductions_of_moved (h : (t.newBound == t.oldBound) = false) :
    t.reductions = [t.coefficientRecord, .tightenRowBound t.row t.side t.oldBound t.newBound] := by
  simp [reductions, coefficientRecord, h]

theorem reductions_of_kept (h : (t.newBound == t.oldBound) = true) :
    t.reductions = [t.coefficientRecord] := by
  simp [reductions, coefficientRecord, h]

variable [RoundedScalar α]

/-- The record of the coefficient carries out the change but for the bound. -/
theorem map_replay_coefficientRecord (hlinked : p.matrix.IsLinked) (hfits : t.Fits p) :
    (t.coefficientRecord.replay p).matrix.map denote = (p.commit t).matrix.map denote ∧
    (∀ i, ((t.coefficientRecord.replay p).rows.get i).nonzeros =
      ((p.commit t).rows.get i).nonzeros) ∧
    (∀ i, ((t.coefficientRecord.replay p).rows.get i).range = (p.rows.get i).range) ∧
    ∀ j, (t.coefficientRecord.replay p).columns.get j = (p.commit t).columns.get j := by
  obtain ⟨slot, hc⟩ := hfits.cell
  have hwrite : (p.commit t).matrix.map denote =
      (p.matrix.map denote).put t.row t.column (denote t.new) := by
    rw [Formulation.matrix_commit, ← hlinked.put_eq_write hc, Sparse.Matrix.map_put]
  rw [hwrite]
  unfold coefficientRecord
  by_cases hzero : t.new == 0
  · have hvalue : denote (0 : α) = denote t.new := by rw [beq_zero_iff.mp hzero, denote_zero]
    rw [if_pos hzero]
    refine ⟨?_, fun i => ?_, fun i => ?_, fun j => ?_⟩
    · rw [← hvalue]
      exact Sparse.Matrix.map_put _ _ _ _ _
    · rw [Formulation.rowNonzeros_commit]
      simp only [Reduction.replay, get_updateAt, hzero, if_true, Fin.val_inj, eq_comm (a := i)]
      split <;> rfl
    · simp only [Reduction.replay, get_updateAt]
      split <;> rfl
    · unfold Formulation.commit Formulation.setRow Formulation.setColumn
      simp only [Reduction.replay, get_updateAt, hzero, if_true, get_modifyAt, Fin.val_inj,
        eq_comm (a := j)]
  · rw [if_neg hzero]
    refine ⟨Sparse.Matrix.map_put _ _ _ _ _, fun i => ?_, fun i => rfl, fun j => ?_⟩
    · rw [Formulation.rowNonzeros_commit]
      simp only [hzero, Bool.false_eq_true, if_false, ite_self]
      rfl
    · unfold Formulation.commit Formulation.setRow
      simp only [hzero, Bool.false_eq_true, if_false]
      rfl

/-- The records of a change carry it out. -/
theorem map_replay_reductions (hlinked : p.matrix.IsLinked) (hfits : t.Fits p) :
    (t.reductions.foldl Reduction.replay p).map denote = (p.commit t).map denote := by
  obtain ⟨hmatrix, hcount, hrange, hcolumns⟩ := map_replay_coefficientRecord hlinked hfits
  have hcommit : ∀ i, ((p.commit t).rows.get i).range =
      if t.row = i then (p.rows.get i).range.setBound t.newBound t.side
      else (p.rows.get i).range := by
    intro i
    have hstate := congrArg RowState.range (p.rowState_commit t i)
    rw [apply_ite RowState.range] at hstate
    exact hstate
  rw [Formulation.map_eq_map_iff]
  cases hmoved : t.newBound == t.oldBound with
  | true =>
    rw [reductions_of_kept hmoved]
    refine ⟨hmatrix, fun i => ?_, fun j => congrArg _ (hcolumns j)⟩
    simp only [List.foldl_cons, List.foldl_nil, Row.map, hcount, hrange, hcommit]
    congr 1
    split
    · next hrow =>
      -- the bound that is left out of the records is read as before
      subst hrow
      rw [Interval.map_setBound, (beq_iff_denote.mp hmoved).1, ← hfits.bound,
        ← Interval.map_setBound, Interval.setBound_bound]
    · rfl
  | false =>
    rw [reductions_of_moved hmoved]
    refine ⟨hmatrix, fun i => ?_, fun j => congrArg _ (hcolumns j)⟩
    have hrow := hcommit i
    rw [List.foldl_cons, List.foldl_cons, List.foldl_nil, Reduction.get_rows_replay_bound]
    by_cases heq : t.row = i
    · rw [if_pos heq] at hrow
      rw [if_pos (congrArg Fin.val heq.symm)]
      simp only [Row.map, hcount, hrange, hrow]
    · rw [if_neg heq] at hrow
      rw [if_neg fun h => heq (Fin.ext h.symm)]
      simp only [Row.map, hcount, hrange, hrow]

/-- The records of changes that fit one after the other carry them all out. -/
theorem map_replay_flatMap {ts : List (Tightening α m n)} (hlinked : p.matrix.IsLinked)
    (htrace : p.Trace ts) :
    ((ts.flatMap reductions).foldl Reduction.replay p).map denote =
      (ts.foldl Formulation.commit p).map denote := by
  induction ts generalizing p with
  | nil => rfl
  | cons t rest ih =>
    rw [List.flatMap_cons, List.foldl_append, List.foldl_cons,
      Reduction.foldl_replay_congr _ (map_replay_reductions hlinked htrace.1)]
    exact ih ((p.sameShape_commit t).isLinked hlinked) htrace.2

end Tightening

end CoefficientTightening
