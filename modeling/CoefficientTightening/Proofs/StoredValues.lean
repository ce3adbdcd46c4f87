import CoefficientTightening.Proofs.StructuralZeros

/-! What a pass leaves at the stored positions, in each of the two storages on its own. A change
writes its new coefficient at one position, into the map of the rows and into that of the columns,
whether or not the two held the same there. So the values after a pass are the old ones with the
changes written over them, and of all changes only those of its row count for a position. -/
namespace CoefficientTightening

open Sparse (PositionMap)
open Sparse.Matrix (IsLinked)

variable {α : Type} {m n : Nat}

/-- Of what is collected from a list, one part is picked out by a test that no other part meets. -/
theorem filter_flatMap_eq {β γ : Type} {l : List β} (hnodup : l.Nodup) {x : β} (hx : x ∈ l)
    {f : β → List γ} {P : γ → Bool} (h : ∀ y ∈ l, ∀ z ∈ f y, P z = true ↔ y = x) :
    (l.flatMap f).filter P = f x := by
  induction l with
  | nil => cases hx
  | cons y rest ih =>
    obtain ⟨hfresh, hrest⟩ := List.nodup_cons.mp hnodup
    obtain ⟨hhere, hlater⟩ := List.forall_mem_cons.mp h
    rw [List.flatMap_cons, List.filter_append]
    rcases List.mem_cons.mp hx with rfl | hmem
    · have hall : (f x).filter P = f x :=
        List.filter_eq_self.mpr fun z hz => (hhere z hz).mpr rfl
      have hnone : (rest.flatMap f).filter P = [] := by
        rw [List.filter_eq_nil_iff]
        intro z hz hP
        obtain ⟨y, hy, hz⟩ := List.mem_flatMap.mp hz
        exact hfresh ((hlater y hy z hz).mp hP ▸ hy)
      rw [hall, hnone, List.append_nil]
    · have hnone : (f y).filter P = [] :=
        List.filter_eq_nil_iff.mpr fun z hz hP => hfresh ((hhere z hz).mp hP ▸ hmem)
      rw [hnone, List.nil_append, ih hrest hmem hlater]

/-! ### Changes written into a map -/

namespace Tightening

/-- The map with the new coefficients written in, one after the other. -/
def writeAll (ts : List (Tightening α m n)) (f : PositionMap α m n) : PositionMap α m n :=
  ts.foldl (fun f t => Function.update f (t.row, t.column) (some t.new)) f

variable {f g : PositionMap α m n} {ts : List (Tightening α m n)} {place : Fin m × Fin n}

@[simp] theorem writeAll_cons (t : Tightening α m n) (rest : List (Tightening α m n))
    (f : PositionMap α m n) :
    writeAll (t :: rest) f = writeAll rest (Function.update f (t.row, t.column) (some t.new)) := rfl

/-- A position does not depend on what is stored elsewhere. -/
theorem writeAll_congr (ts : List (Tightening α m n)) (h : f place = g place) :
    writeAll ts f place = writeAll ts g place := by
  induction ts generalizing f g with
  | nil => exact h
  | cons t rest ih =>
    rw [writeAll_cons, writeAll_cons]
    apply ih
    simp only [Function.update_apply, h]

theorem writeAll_of_forall_ne (f : PositionMap α m n)
    (h : ∀ t ∈ ts, place ≠ (t.row, t.column)) : writeAll ts f place = f place := by
  induction ts generalizing f with
  | nil => rfl
  | cons t rest ih =>
    rw [writeAll_cons, ih _ fun u hu => h u (List.mem_cons_of_mem _ hu),
      Function.update_of_ne (h t List.mem_cons_self)]

/-- For a position only the changes of its row count. -/
theorem writeAll_filter (ts : List (Tightening α m n)) (f : PositionMap α m n) (i : Fin m)
    (j : Fin n) : writeAll (ts.filter fun t => t.row = i) f (i, j) = writeAll ts f (i, j) := by
  induction ts generalizing f with
  | nil => rfl
  | cons t rest ih =>
    by_cases hrow : t.row = i
    · rw [List.filter_cons_of_pos (by simpa using hrow), writeAll_cons, writeAll_cons, ih]
    · rw [List.filter_cons_of_neg (by simpa using hrow), ih, writeAll_cons]
      apply writeAll_congr
      rw [Function.update_of_ne]
      exact fun heq => hrow (congrArg Prod.fst heq).symm

end Tightening

/-! ### One write -/

theorem Sparse.lookup_overwrite (row : List (Fin n × α)) (j j' : Fin n) (value : α) :
    (Sparse.overwrite j value row).lookup j' =
      if j' = j then (row.lookup j).map fun _ => value else row.lookup j' := by
  induction row with
  | nil => simp [Sparse.overwrite]
  | cons t rest ih =>
    obtain ⟨k, v⟩ := t
    rw [Sparse.overwrite, List.map_cons, ← Sparse.overwrite]
    by_cases hk : k = j
    · subst hk
      by_cases hj : j' = k
      · subst hj
        simp
      · have hbeq : (j' == k) = false := beq_eq_false_iff_ne.mpr hj
        simp [List.lookup_cons, hbeq, hj, ih]
    · by_cases hj : j' = j
      · subst hj
        have hbeq : (j' == k) = false := beq_eq_false_iff_ne.mpr (Ne.symm hk)
        simp [List.lookup_cons, hbeq, hk, ih]
      · simp [List.lookup_cons, hk, hj, ih]

/-- A write changes the column storage at the position of its cell and nowhere else. -/
theorem Sparse.Matrix.IsLinked.columnMap_write {M : Sparse.Matrix α m n} {i : Fin m} {k : Nat}
    {c : Sparse.Cell α n} (hM : M.IsLinked) (hc : (M.rows.get i)[k]? = some c) (value : α) :
    (M.write i k value).columnMap = Function.update M.columnMap (i, c.column) (some value) := by
  obtain ⟨e, he, hrow⟩ := hM.exists_entry (mem_toList_of_getElem? hc)
  have hstored : M.columnMap (i, c.column) = some e.value :=
    hM.columnMap_eq_some_iff.mpr ⟨e, mem_toList_of_getElem? he, hrow, rfl⟩
  rw [← hM.put_eq_write hc]
  funext ⟨i', j⟩
  rw [Sparse.Matrix.columnMap, Sparse.Matrix.put, get_updateAt, Function.update_apply]
  by_cases hj : j = c.column
  · subst hj
    have hentries : ((M.columns.get c.column).map fun e =>
        if e.row.val = i.val then { e with value } else e).toList.map (fun e => (e.row, e.value)) =
          Sparse.overwrite i value
            ((M.columns.get c.column).toList.map fun e => (e.row, e.value)) := by
      rw [Sparse.overwrite, Array.toList_map, List.map_map, List.map_map]
      congr 1
      funext e
      by_cases hi : e.row = i <;> simp [hi, Fin.val_inj]
    rw [if_pos rfl, hentries, Sparse.lookup_overwrite]
    by_cases hi : i' = i
    · subst hi
      rw [if_pos rfl, if_pos rfl]
      exact congrArg (Option.map fun _ => value) hstored
    · rw [if_neg hi, if_neg fun heq => hi (congrArg Prod.fst heq)]
      rfl
  · rw [if_neg fun heq => hj (Fin.ext heq), if_neg fun heq => hj (congrArg Prod.snd heq)]
    rfl

/-! ### A pass -/

namespace Formulation

open Tightening

variable [Scalar α] {p : Formulation α m n} {t : Tightening α m n} {ts : List (Tightening α m n)}

theorem rowMap_commit (hp : p.matrix.IsLinked) (ht : t.Fits p) :
    (p.commit t).matrix.rowMap =
      Function.update p.matrix.rowMap (t.row, t.column) (some t.new) := by
  obtain ⟨slot, hc⟩ := ht.cell
  rw [matrix_commit]
  exact hp.rowMap_write hc t.new

theorem columnMap_commit (hp : p.matrix.IsLinked) (ht : t.Fits p) :
    (p.commit t).matrix.columnMap =
      Function.update p.matrix.columnMap (t.row, t.column) (some t.new) := by
  obtain ⟨slot, hc⟩ := ht.cell
  rw [matrix_commit]
  exact hp.columnMap_write hc t.new

theorem maps_foldl_commit (hp : p.matrix.IsLinked) (hts : p.Trace ts) :
    (ts.foldl commit p).matrix.rowMap = writeAll ts p.matrix.rowMap ∧
      (ts.foldl commit p).matrix.columnMap = writeAll ts p.matrix.columnMap := by
  induction ts generalizing p with
  | nil => exact ⟨rfl, rfl⟩
  | cons t rest ih =>
    obtain ⟨hrows, hcolumns⟩ := ih ((p.sameShape_commit t).isLinked hp) hts.2
    rw [List.foldl_cons, hrows, hcolumns, rowMap_commit hp hts.1, columnMap_commit hp hts.1]
    exact ⟨rfl, rfl⟩

theorem rowMap_tighten (hp : p.matrix.IsLinked) :
    p.tighten.matrix.rowMap = writeAll p.tightenings p.matrix.rowMap := by
  rw [← foldl_commit_tightenings]
  exact (maps_foldl_commit hp p.trace_tightenings).1

theorem columnMap_tighten (hp : p.matrix.IsLinked) :
    p.tighten.matrix.columnMap = writeAll p.tightenings p.matrix.columnMap := by
  rw [← foldl_commit_tightenings]
  exact (maps_foldl_commit hp p.trace_tightenings).2

/-- What a change finds is a nonzero of its row. -/
theorem exists_cell_of_mem_rowTightenings {i : Fin m} (ht : t ∈ p.rowTightenings i) :
    (∃ slot, (p.matrix.rows.get i)[t.position]? = some ⟨t.column, slot, t.old⟩) ∧
      (t.old == 0) = false := by
  rw [rowTightenings_eq] at ht
  cases hside : (p.rows.get i).range.onlySide? with
  | none =>
    simp only [rowTighteningsIn, hside] at ht
    cases ht
  | some side =>
    rw [rowTighteningsIn_eq_visit hside] at ht
    obtain ⟨e, he, _, _, -, hprop⟩ := exists_isProposed_of_mem_visit (I := fun _ _ => True) trivial
      (fun _ _ _ _ _ _ _ => trivial) ht
    refine ⟨⟨e.1.slot, ?_⟩, hprop.nonzero⟩
    rw [hprop.position_eq, hprop.column_eq, hprop.old_eq]
    exact getElem?_of_mem_entries he

/-- Where a change is made, something was stored. -/
theorem rowMap_of_mem_tightenings (hp : p.matrix.IsLinked) (ht : t ∈ p.tightenings) :
    p.matrix.rowMap (t.row, t.column) = some t.old := by
  obtain ⟨slot, hc⟩ := (exists_cell_of_mem_rowTightenings (mem_tightenings.mp ht)).1
  exact hp.rowMap_eq_some_iff.mpr ⟨_, mem_toList_of_getElem? hc, rfl, rfl⟩

/-- The changes of a pass in one row are the changes of the row. -/
theorem filter_tightenings (p : Formulation α m n) (i : Fin m) :
    (p.tightenings.filter fun t => t.row = i) = p.rowTightenings i := by
  rw [tightenings_eq]
  apply filter_flatMap_eq (List.nodup_finRange m) (List.mem_finRange i)
  intro i' _ t ht
  rw [decide_eq_true_eq, row_of_mem_rowTightenings ht]

end Formulation

end CoefficientTightening
