import CoefficientTightening.Proofs.NonzeroCounts
import CoefficientTightening.Proofs.StoredValues

/-! Rows on their own. What a pass does to a row, the records that it makes there and the nonzeros
that it counts off depend on the entries of the row, its range, and the range, kind and flag of the
columns in which it has entries; neither the other rows, nor the other columns, nor the numbers of
either play a part. So equal rows of two formulations come out equal, formulations with their rows
in another order come out with their rows in that order, and the count of a column falls by what the
rows lose in it. This holds over every kind of scalar. -/
namespace CoefficientTightening

open Extended (nan)

variable {α : Type} {m n m' n' : Nat}

theorem map_modify_comm {β γ : Type} {f : β → β} {f' : γ → γ} {g : β → γ}
    (h : ∀ x, g (f x) = f' (g x)) (l : List β) (k : Nat) :
    (l.modify k f).map g = (l.map g).modify k f' := by
  apply List.ext_getElem?
  intro k'
  rw [List.getElem?_map, List.getElem?_modify, List.getElem?_modify, List.getElem?_map]
  by_cases hk : k = k'
  · cases l[k']? <;> simp [hk, h]
  · simp [hk]

theorem Column.Alike.ext {c d : Column α} (h : c.Alike d) (hcount : d.nonzeros = c.nonzeros) :
    d = c := by
  cases c
  cases d
  rw [Column.mk.injEq]
  exact ⟨h.range, h.kind, h.active, hcount⟩

/-! ### What is read of a row -/

section Definitions

/-- What a pass reads of an entry and of its column. -/
structure EntryView (α : Type) where
  column : Nat
  value : α
  range : Interval α
  kind : VarKind
  active : Bool
  deriving DecidableEq

structure RowView (α : Type) where
  entries : List (EntryView α)
  range : Interval α
  deriving DecidableEq

/-- A change of a row, without the number of the row. -/
structure Edit (α : Type) where
  side : Side
  position : Nat
  column : Nat
  old : α
  new : α
  oldBound : α
  newBound : α

namespace RowView

/-- Carry out one change of the row. -/
def edit (v : RowView α) (e : Edit α) : RowView α where
  entries := v.entries.modify e.position fun x => { x with value := e.new }
  range := v.range.setBound e.newBound e.side

/-- Columns of the entries that were not zero before and are zero after. -/
def zeroed [Scalar α] (before after : RowView α) : List Nat :=
  (before.entries.zip after.entries).filterMap fun x =>
    if !(x.1.value == 0) && x.2.value == 0 then some x.1.column else none

end RowView

namespace Tightening

def edit (t : Tightening α m n) : Edit α where
  side := t.side
  position := t.position
  column := t.column
  old := t.old
  new := t.new
  oldBound := t.oldBound
  newBound := t.newBound

end Tightening

def Edit.reductions [Scalar α] (row : Nat) (e : Edit α) : List (Reduction α) :=
  (if e.new == 0 then .zeroCoefficient row e.column e.old
    else .tightenCoefficient row e.column e.old e.new) ::
  (if e.newBound == e.oldBound then []
    else [.tightenRowBound row e.side e.oldBound e.newBound])

/-- The record with another number of the row. -/
def Reduction.inRow (row : Nat) : Reduction α → Reduction α
  | .tightenCoefficient _ j old new => .tightenCoefficient row j old new
  | .zeroCoefficient _ j old => .zeroCoefficient row j old
  | .tightenRowBound _ side old new => .tightenRowBound row side old new
  | .custom kind target value => .custom kind target value

namespace Formulation

def entryView (columns : Vector (Column α) n) (c : Sparse.Cell α n) : EntryView α where
  column := c.column
  value := c.value
  range := (columns.get c.column).range
  kind := (columns.get c.column).kind
  active := (columns.get c.column).active

def rowView (p : Formulation α m n) (i : Fin m) : RowView α where
  entries := (p.matrix.rows.get i).toList.map (entryView p.columns)
  range := (p.rows.get i).range

def edits [Scalar α] (p : Formulation α m n) (i : Fin m) : List (Edit α) :=
  (p.rowTightenings i).map Tightening.edit

end Formulation

end Definitions

variable [Scalar α]

/-! ### Equal rows -/

namespace Tightening

open Formulation (entryView)

variable {columns : Vector (Column α) n} {columns' : Vector (Column α) n'}

theorem extremeBound_of_view {c : Sparse.Cell α n} {c' : Sparse.Cell α n'}
    (h : entryView columns' c' = entryView columns c) (side : Side) :
    extremeBound columns' side c' = extremeBound columns side c := by
  have hvalue : c'.value = c.value := congrArg EntryView.value h
  have hrange : (columns'.get c'.column).range = (columns.get c.column).range :=
    congrArg EntryView.range h
  rw [extremeBound, extremeBound, hvalue, hrange]

theorem map_edit_propose? {c : Sparse.Cell α n} {c' : Sparse.Cell α n'}
    (h : entryView columns' c' = entryView columns c) (i : Fin m) (i' : Fin m') (side : Side)
    (bound total : α) (k : Nat) :
    (propose? columns' i' side bound total (c', k)).map edit =
      (propose? columns i side bound total (c, k)).map edit := by
  have hextreme := extremeBound_of_view h side
  simp only [entryView, EntryView.mk.injEq] at h
  obtain ⟨hcolumn, hvalue, hrange, hkind, hactive⟩ := h
  have hcandidate : isCandidate columns' c' = isCandidate columns c := by
    rw [isCandidate, Column.isCandidate, hkind, hactive, isCandidate, Column.isCandidate]
  unfold propose?
  dsimp only
  rw [hcandidate, hvalue, hrange, hextreme]
  generalize shrink side c.value bound (columns.get c.column).range
    (total - c.value * extremeBound columns side c) = new
  cases isCandidate columns c && !(c.value == 0) with
  | false => rfl
  | true =>
    cases new.1 == c.value with
    | true => rfl
    | false => simp [edit, hcolumn]

/-- Two loops that read the same make the same changes. -/
theorem map_edit_visit {order : List (Sparse.Cell α n × Nat)}
    {order' : List (Sparse.Cell α n' × Nat)}
    (h : order'.map (fun e => (entryView columns' e.1, e.2)) =
      order.map fun e => (entryView columns e.1, e.2))
    (i : Fin m) (i' : Fin m') (side : Side) (bound total : α) :
    (visit columns' i' side bound total order').map edit =
      (visit columns i side bound total order).map edit := by
  induction order generalizing order' bound total with
  | nil =>
    obtain rfl := List.map_eq_nil_iff.mp h
    rfl
  | cons e rest ih =>
    obtain ⟨e', rest', rfl, he, hrest⟩ := List.map_eq_cons_iff.mp h
    obtain ⟨c, k⟩ := e
    obtain ⟨c', k'⟩ := e'
    obtain ⟨hview, rfl⟩ := Prod.mk.inj he
    have hextreme := extremeBound_of_view hview side
    have hstep := map_edit_propose? hview i i' side bound total k'
    rw [visit, visit]
    cases ht : propose? columns i side bound total (c, k') with
    | none =>
      rw [ht, Option.map_none, Option.map_eq_none_iff] at hstep
      rw [hstep]
      exact ih hrest bound total
    | some t =>
      rw [ht, Option.map_some, Option.map_eq_some_iff] at hstep
      obtain ⟨t', ht', hedit⟩ := hstep
      have hbound : t'.newBound = t.newBound := congrArg Edit.newBound hedit
      have hold : t'.old = t.old := congrArg Edit.old hedit
      have hnew : t'.new = t.new := congrArg Edit.new hedit
      rw [ht']
      dsimp only
      rw [List.map_cons, List.map_cons, hedit, hbound, hold, hnew, hextreme, ih hrest]

end Tightening

namespace Formulation

open Tightening

variable {p : Formulation α m n} {q : Formulation α m' n'} {i : Fin m} {i' : Fin m'}

omit [Scalar α] in
theorem map_entries_view (p : Formulation α m n) (i : Fin m) :
    ((p.entries i).map fun e => (entryView p.columns e.1, e.2)) = (p.rowView i).entries.zipIdx := by
  rw [rowView, List.zipIdx_map]
  rfl

/-- The changes of a row, up to its number, depend on nothing but what is read of it. -/
theorem edits_congr (h : q.rowView i' = p.rowView i) : q.edits i' = p.edits i := by
  have hrange : (q.rows.get i').range = (p.rows.get i).range := congrArg RowView.range h
  have hentries : (q.entries i').map (fun e => (entryView q.columns e.1, e.2)) =
      (p.entries i).map fun e => (entryView p.columns e.1, e.2) := by
    rw [map_entries_view, map_entries_view, h]
  have hterms : (q.entries i').map (fun e => (e.1.value, (q.columns.get e.1.column).range)) =
      (p.entries i).map fun e => (e.1.value, (p.columns.get e.1.column).range) := by
    have hmap := congrArg (List.map fun x : EntryView α × Nat => (x.1.value, x.1.range)) hentries
    rwa [List.map_map, List.map_map] at hmap
  rw [edits, edits, rowTightenings_eq, rowTightenings_eq]
  cases hside : (p.rows.get i).range.onlySide? with
  | none => simp only [rowTighteningsIn, hrange, hside, List.map_nil]
  | some side =>
    rw [rowTighteningsIn_eq_visit hside, rowTighteningsIn_eq_visit (hrange ▸ hside), hrange, hterms]
    exact map_edit_visit hentries _ _ _ _ _

/-! ### The outcome of a row -/

omit [Scalar α] in
theorem rowView_congr {r : Formulation α m n} (hrow : r.rowState i = p.rowState i)
    (hcolumns : ∀ j, (p.columns.get j).Alike (r.columns.get j)) : r.rowView i = p.rowView i := by
  have hview : entryView r.columns = entryView p.columns := by
    funext c
    simp only [entryView, (hcolumns _).range, (hcolumns _).kind, (hcolumns _).active]
  rw [rowView, rowView, cells_eq hrow, range_eq hrow, hview]

theorem rowView_commit {t : Tightening α m n} (ht : t.row = i) :
    (p.commit t).rowView i = (p.rowView i).edit t.edit := by
  have hstate : (p.commit t).rowState i = (p.rowState i).change t := by
    rw [rowState_commit, if_pos ht]
  have hcells : (p.commit t).matrix.rows.get i =
      (p.matrix.rows.get i).modify t.position fun c => { c with value := t.new } :=
    congrArg RowState.cells hstate
  have hrange : ((p.commit t).rows.get i).range =
      (p.rows.get i).range.setBound t.newBound t.side := congrArg RowState.range hstate
  have hview : entryView (p.commit t).columns = entryView p.columns := by
    funext c
    simp only [entryView, (p.alike_commit t _).range, (p.alike_commit t _).kind,
      (p.alike_commit t _).active]
  have hentries : ((p.matrix.rows.get i).toList.modify t.position fun c =>
      { c with value := t.new }).map (entryView p.columns) =
        ((p.matrix.rows.get i).toList.map (entryView p.columns)).modify t.position fun x =>
          { x with value := t.new } := by
    apply map_modify_comm
    exact fun _ => rfl
  rw [rowView, hcells, hrange, hview, Array.toList_modify, hentries]
  rfl

/-- After a pass, what is read of a row is what its own changes make of it. -/
theorem rowView_tighten (p : Formulation α m n) (i : Fin m) :
    p.tighten.rowView i = (p.edits i).foldl RowView.edit (p.rowView i) := by
  have hrun : ∀ (ts : List (Tightening α m n)) (q : Formulation α m n), (∀ t ∈ ts, t.row = i) →
      (ts.foldl commit q).rowView i = (ts.map edit).foldl RowView.edit (q.rowView i) := by
    intro ts
    induction ts with
    | nil => exact fun _ _ => rfl
    | cons t rest ih =>
      intro q hts
      rw [List.foldl_cons, ih _ fun u hu => hts u (List.mem_cons_of_mem _ hu),
        rowView_commit (hts t List.mem_cons_self)]
      rfl
  have hagrees := p.agreesAt_foldl_commit i
  rw [rowView_congr hagrees.row hagrees.columns, hrun _ p fun t => row_of_mem_rowTightenings]
  rfl

theorem flatMap_reductions (p : Formulation α m n) (i : Fin m) :
    (p.rowTightenings i).flatMap Tightening.reductions =
      (p.edits i).flatMap (Edit.reductions i) := by
  rw [edits, List.flatMap_map]
  apply List.flatMap_congr
  intro t ht
  rw [← row_of_mem_rowTightenings ht]
  rfl

/-- The records of a row in the log of the pass are those of its changes. -/
theorem filter_reductions (p : Formulation α m n) (i : Fin m) :
    (p.tighteningPass.reductions.filter fun r => r.row? = some i.val) =
      (p.edits i).flatMap (Edit.reductions i) := by
  rw [reductions_tighteningPass, tightenings_eq, List.flatMap_assoc, ← flatMap_reductions]
  apply filter_flatMap_eq (List.nodup_finRange m) (List.mem_finRange i)
  intro i' _ r hr
  obtain ⟨t, ht, hr⟩ := List.mem_flatMap.mp hr
  rw [decide_eq_true_eq, row?_of_mem_reductions hr, row_of_mem_rowTightenings ht, Option.some_inj,
    Fin.val_inj]

theorem map_inRow_reductions (row row' : Nat) (e : Edit α) :
    (e.reductions row).map (Reduction.inRow row') = e.reductions row' := by
  unfold Edit.reductions
  split <;> split <;> rfl

/-! ### Counts -/

theorem count_foldl_commit (count : Formulation α m n → Int64) (hit : Tightening α m n → Bool)
    (h : ∀ p t, count (p.commit t) = if hit t && t.new == 0 then count p - 1 else count p)
    (ts : List (Tightening α m n)) (p : Formulation α m n) :
    count (ts.foldl commit p) = count p - .ofNat (ts.countP fun t => hit t && t.new == 0) := by
  induction ts generalizing p with
  | nil => exact (Int64.sub_zero _).symm
  | cons t rest ih =>
    rw [List.foldl_cons, ih, h, List.countP_cons]
    split
    · rw [Int64.sub_sub, Int64.ofNat_add, Int64.add_comm]
      rfl
    · rfl

/-- The count of a row falls by the changes of the row to zero. -/
theorem rowCount_tighten (p : Formulation α m n) (i : Fin m) :
    (p.tighten.rows.get i).nonzeros =
      (p.rows.get i).nonzeros - .ofNat ((p.edits i).countP fun e => e.new == 0) := by
  have hcount := count_foldl_commit (fun p => (p.rows.get i).nonzeros)
    (fun t : Tightening α m n => decide (t.row = i)) (fun p t => by
      rw [rowNonzeros_commit]
      by_cases hrow : t.row = i <;> simp [hrow]) p.tightenings p
  rw [foldl_commit_tightenings] at hcount
  have hrow : (p.edits i).countP (fun e => e.new == 0) =
      p.tightenings.countP fun t => decide (t.row = i) && t.new == 0 := by
    rw [edits, List.countP_map, ← filter_tightenings, List.countP_filter]
    simp only [Bool.and_comm]
    rfl
  rw [hrow]
  exact hcount

/-- The count of a column falls by the changes to zero that all rows make in it. -/
theorem columnCount_tighten (p : Formulation α m n) (j : Fin n) :
    (p.tighten.columns.get j).nonzeros =
      (p.columns.get j).nonzeros -
        .ofNat (∑ i, (p.edits i).countP fun e => e.column == j.val && e.new == 0) := by
  have hcount := count_foldl_commit (fun p => (p.columns.get j).nonzeros)
    (fun t : Tightening α m n => t.column.val == j.val) (fun p t => by
      rw [columnNonzeros_commit]
      by_cases hcolumn : t.column = j <;> simp [hcolumn, Fin.val_inj]) p.tightenings p
  rw [foldl_commit_tightenings] at hcount
  have hcolumn : ∑ i, (p.edits i).countP (fun e => e.column == j.val && e.new == 0) =
      p.tightenings.countP fun t => t.column.val == j.val && t.new == 0 := by
    rw [tightenings_eq, List.countP_flatMap, Fin.sum_univ_def]
    simp only [edits, List.countP_map]
    rfl
  rw [hcolumn]
  exact hcount

end Formulation

/-! ### Zeroed entries -/

theorem zip_modify_right {β γ : Type} (f : γ → γ) :
    ∀ (l : List β) (l' : List γ) (k : Nat),
      l.zip (l'.modify k f) = (l.zip l').modify k fun x => (x.1, f x.2)
  | [], _, _ => by simp
  | _ :: _, [], _ => by simp
  | _ :: _, _ :: _, 0 => by simp
  | _ :: l, _ :: l', k + 1 => by simp [zip_modify_right f l l' k]

namespace RowView

variable {before v : RowView α} {e : Edit α} {x : EntryView α}

theorem countP_zeroed_eq (before after : RowView α) (Q : Nat → Bool) :
    (before.zeroed after).countP Q = (before.entries.zip after.entries).countP fun x =>
      !(x.1.value == 0) && x.2.value == 0 && Q x.1.column := by
  rw [zeroed, List.countP_filterMap]
  apply List.countP_congr
  intro x _
  by_cases hzero : (!(x.1.value == 0) && x.2.value == 0) = true <;> simp [hzero]

theorem countP_zeroed_self (v : RowView α) (Q : Nat → Bool) : (v.zeroed v).countP Q = 0 := by
  rw [countP_zeroed_eq, List.zip, List.zipWith_self, List.countP_map, List.countP_eq_zero]
  intro x _
  cases hx : x.value == 0 <;> simp [hx]

/-- A change of a nonzero that is as it was before adds its own entry if it writes a zero. -/
theorem countP_zeroed_edit (Q : Nat → Bool) (hbefore : before.entries[e.position]? = some x)
    (hv : v.entries[e.position]? = some x) (hcolumn : x.column = e.column)
    (hx : (x.value == 0) = false) :
    (before.zeroed (v.edit e)).countP Q =
      (before.zeroed v).countP Q + if Q e.column && e.new == 0 then 1 else 0 := by
  have hzip : (before.entries.zip v.entries).toArray[e.position]? = some (x, x) := by
    simp [List.getElem?_zip_eq_some, hbefore, hv]
  have hcount := countP_modify (f := fun x => (x.1, { x.2 with value := e.new }))
    (fun x : EntryView α × EntryView α => !(x.1.value == 0) && x.2.value == 0 && Q x.1.column) hzip
  rw [Array.toList_modify] at hcount
  rw [countP_zeroed_eq, countP_zeroed_eq, RowView.edit, zip_modify_right]
  simpa [hx, hcolumn, Bool.and_comm] using hcount

theorem countP_zeroed_foldl (Q : Nat → Bool) {es : List (Edit α)}
    (hnodup : (es.map (·.position)).Nodup)
    (hfound : ∀ e ∈ es, ∃ x, before.entries[e.position]? = some x ∧ x.column = e.column ∧
      (x.value == 0) = false)
    (hv : ∀ e ∈ es, v.entries[e.position]? = before.entries[e.position]?) :
    (before.zeroed (es.foldl RowView.edit v)).countP Q =
      (before.zeroed v).countP Q + es.countP fun e => Q e.column && e.new == 0 := by
  induction es generalizing v with
  | nil => rfl
  | cons e rest ih =>
    obtain ⟨hfresh, hrest⟩ := List.nodup_cons.mp hnodup
    obtain ⟨⟨x, hx, hcolumn, hzero⟩, hlater⟩ := List.forall_mem_cons.mp hfound
    obtain ⟨hhere, hkept⟩ := List.forall_mem_cons.mp hv
    have hstep := countP_zeroed_edit Q hx (hhere.trans hx) hcolumn hzero
    -- no later change finds its entry changed
    have hnext : ∀ e' ∈ rest,
        (v.edit e).entries[e'.position]? = before.entries[e'.position]? := by
      intro e' he'
      have hne : e.position ≠ e'.position :=
        fun heq => hfresh (List.mem_map.mpr ⟨e', he', heq.symm⟩)
      exact (List.getElem?_modify_ne _ _ hne).trans (hkept e' he')
    rw [List.foldl_cons, ih hrest hlater hnext, hstep, List.countP_cons]
    omega

end RowView

namespace Formulation

open Tightening

/-- The entries of a row that a pass makes zero are those of its changes to zero. -/
theorem countP_zeroed (p : Formulation α m n) (i : Fin m) (Q : Nat → Bool) :
    ((p.rowView i).zeroed (p.tighten.rowView i)).countP Q =
      (p.edits i).countP fun e => Q e.column && e.new == 0 := by
  rw [rowView_tighten, RowView.countP_zeroed_foldl Q, RowView.countP_zeroed_self, Nat.zero_add]
  · rw [edits, List.map_map]
    exact p.nodup_positions_rowTightenings i
  · intro e he
    obtain ⟨t, ht, rfl⟩ := List.mem_map.mp he
    obtain ⟨⟨slot, hc⟩, hold⟩ := exists_cell_of_mem_rowTightenings ht
    refine ⟨entryView p.columns ⟨t.column, slot, t.old⟩, ?_, rfl, hold⟩
    rw [rowView, List.getElem?_map, Array.getElem?_toList]
    exact congrArg (Option.map _) hc
  · exact fun _ _ => rfl

/-! ### Rows in another order -/

/-- Row `i` of one formulation is row `σ i` of the other, with its count and in both storages. -/
structure IsReordered (σ : Equiv.Perm (Fin m)) (p q : Formulation α m n) : Prop where
  rows : ∀ i, q.rowView (σ i) = p.rowView i
  counts : ∀ i, (q.rows.get (σ i)).nonzeros = (p.rows.get i).nonzeros
  columns : q.columns = p.columns
  entries : ∀ i j, q.matrix.columnMap (σ i, j) = p.matrix.columnMap (i, j)

/-- What becomes of a position in the column storage, from the changes of its row. -/
theorem columnMap_tighten_eq (p : Formulation α m n) (hp : p.matrix.IsLinked) (i : Fin m)
    (j : Fin n) :
    p.tighten.matrix.columnMap (i, j) =
      (p.edits i).foldl (fun v e => if e.column = j.val then some e.new else v)
        (p.matrix.columnMap (i, j)) := by
  have hrun : ∀ (ts : List (Tightening α m n)) (f : Sparse.PositionMap α m n),
      (∀ t ∈ ts, t.row = i) → writeAll ts f (i, j) =
        (ts.map edit).foldl (fun v e => if e.column = j.val then some e.new else v) (f (i, j)) := by
    intro ts
    induction ts with
    | nil => exact fun _ _ => rfl
    | cons t rest ih =>
      intro f hts
      rw [writeAll_cons, ih _ fun u hu => hts u (List.mem_cons_of_mem _ hu), List.map_cons,
        List.foldl_cons, Function.update_apply, hts t List.mem_cons_self]
      by_cases hcolumn : t.column = j
      · subst hcolumn
        simp [edit]
      · simp [edit, Ne.symm hcolumn, Fin.val_inj, hcolumn]
  rw [columnMap_tighten hp, ← writeAll_filter, filter_tightenings,
    hrun _ _ fun t => row_of_mem_rowTightenings]
  rfl

variable {σ : Equiv.Perm (Fin m)} {p q : Formulation α m n}

theorem IsReordered.tighten (h : p.IsReordered σ q) (hp : p.matrix.IsLinked)
    (hq : q.matrix.IsLinked) : p.tighten.IsReordered σ q.tighten where
  rows i := by
    rw [rowView_tighten, rowView_tighten, edits_congr (h.rows i), h.rows]
  counts i := by
    rw [rowCount_tighten, rowCount_tighten, edits_congr (h.rows i), h.counts]
  columns := by
    apply vector_ext
    intro j
    have hcount : (q.tighten.columns.get j).nonzeros = (p.tighten.columns.get j).nonzeros := by
      rw [columnCount_tighten, columnCount_tighten, h.columns, ← Equiv.sum_comp σ]
      simp only [edits_congr (h.rows _)]
    have halike : (p.tighten.columns.get j).Alike (q.tighten.columns.get j) := by
      have hq' := q.alike_tighten j
      rw [h.columns] at hq'
      exact (p.alike_tighten j).symm.trans hq'
    exact halike.ext hcount
  entries i j := by
    rw [columnMap_tighten_eq q hq, columnMap_tighten_eq p hp, edits_congr (h.rows i), h.entries]

/-- The log of the reordered formulation lists the records of the rows in their new order. -/
theorem IsReordered.reductions (h : p.IsReordered σ q) :
    q.tighteningPass.reductions = (List.finRange m).flatMap fun i =>
      (p.tighteningPass.reductions.filter fun r => r.row? = some (σ.symm i).val).map
        (Reduction.inRow i) := by
  have hlog : q.tighteningPass.reductions =
      (List.finRange m).flatMap fun i => (q.edits i).flatMap (Edit.reductions i) := by
    rw [reductions_tighteningPass, tightenings_eq, List.flatMap_assoc]
    simp only [flatMap_reductions]
  rw [hlog]
  apply List.flatMap_congr
  intro i _
  have hrow := h.rows (σ.symm i)
  rw [σ.apply_symm_apply] at hrow
  rw [filter_reductions, List.map_flatMap, edits_congr hrow]
  simp only [map_inRow_reductions]

omit [Scalar α] in
theorem rowView_eq (p : Formulation α m n) (i : Fin m) :
    p.rowView i =
      { entries := (p.matrix.toRows.get i).map fun t => entryView p.columns ⟨t.1, 0, t.2⟩
        range := (p.rows.get i).range } := by
  rw [rowView, Sparse.Matrix.get_toRows, List.map_map]
  rfl

theorem columnNonzeros_of_reordered {M N : Sparse.Matrix α m n}
    (h : ∀ i, N.toRows.get (σ i) = M.toRows.get i) : N.columnNonzeros = M.columnNonzeros := by
  apply vector_ext
  intro j
  rw [Sparse.Matrix.get_columnNonzeros, Sparse.Matrix.get_columnNonzeros, ← Fin.sum_univ_def,
    ← Fin.sum_univ_def, ← Equiv.sum_comp σ]
  simp only [Sparse.Matrix.countP_isNonzeroIn, h]

theorem get_rows_ofRanges (M : Sparse.Matrix α m n) (rows : Vector (Interval α) m)
    (columns : Vector (Interval α) n) (kinds : Vector VarKind n) (active : Vector Bool n)
    (i : Fin m) :
    (ofRanges M rows columns kinds active).rows.get i =
      ⟨rows.get i, .ofNat (M.rowNonzeros i)⟩ := by
  simp [ofRanges, get_eq_getElem]

/-- A problem that is given with its rows in another order has its rows in that order. -/
theorem isReordered_ofRanges {rows rows' : Sparse.Rows α m n}
    {ranges ranges' : Vector (Interval α) m}
    (hrows : ∀ i, rows'.get (σ i) = rows.get i) (hranges : ∀ i, ranges'.get (σ i) = ranges.get i)
    (hincreasing : ∀ i, Sparse.HasIncreasingColumns (rows.get i))
    (columns : Vector (Interval α) n) (kinds : Vector VarKind n) (active : Vector Bool n) :
    (ofRanges (.ofRows rows) ranges columns kinds active).IsReordered σ
      (ofRanges (.ofRows rows') ranges' columns kinds active) := by
  have hlines : ∀ i, (Sparse.Matrix.ofRows rows').toRows.get (σ i) =
      (Sparse.Matrix.ofRows rows).toRows.get i := fun i => by
    rw [Sparse.Matrix.get_toRows_ofRows, Sparse.Matrix.get_toRows_ofRows, hrows]
  have hincreasing' : ∀ i, Sparse.HasIncreasingColumns (rows'.get i) := fun i => by
    rw [← σ.apply_symm_apply i, hrows]
    exact hincreasing _
  have hcolumns : (ofRanges (.ofRows rows') ranges' columns kinds active).columns =
      (ofRanges (.ofRows rows) ranges columns kinds active).columns := by
    simp only [ofRanges, columnNonzeros_of_reordered hlines]
  have hmap : ∀ {lines : Sparse.Rows α m n}, (∀ i, Sparse.HasIncreasingColumns (lines.get i)) →
      (Sparse.Matrix.ofRows lines).columnMap = (Sparse.Matrix.ofRows lines).rowMap := fun h =>
    (Sparse.Matrix.isMirrored_ofRows _).columnMap_eq (Sparse.Matrix.isLinked_ofRows h)
  refine ⟨fun i => ?_, fun i => ?_, hcolumns, fun i j => ?_⟩
  · rw [rowView_eq, rowView_eq, hcolumns, get_rows_ofRanges, get_rows_ofRanges, hranges]
    exact congrArg (RowView.mk · _) (congrArg (List.map _) (hlines i))
  · rw [get_rows_ofRanges, get_rows_ofRanges, Sparse.Matrix.rowNonzeros_eq_length,
      Sparse.Matrix.rowNonzeros_eq_length, hlines]
  · change (Sparse.Matrix.ofRows rows').columnMap (σ i, j) =
      (Sparse.Matrix.ofRows rows).columnMap (i, j)
    rw [hmap hincreasing', hmap hincreasing, Sparse.Matrix.rowMap, Sparse.Matrix.rowMap,
      Sparse.Rows.toMap, Sparse.Rows.toMap, hlines]

/-! ### Rows do not depend on each other -/

/-- Rows of two formulations of which the same is read come out the same and with the same records,
and as many nonzeros are counted off. A formulation with its rows in another order comes out with
its rows in that order. The count of a column falls by the entries that the rows lose in it. -/
theorem tighten_rows_independent (p : Formulation α m n) :
    (∀ {m' n' : Nat} (q : Formulation α m' n') (i : Fin m) (i' : Fin m'),
      q.rowView i' = p.rowView i →
      q.tighten.rowView i' = p.tighten.rowView i ∧
      (q.tighteningPass.reductions.filter fun r => r.row? = some i'.val) =
        (p.tighteningPass.reductions.filter fun r => r.row? = some i.val).map
          (Reduction.inRow i') ∧
      (q.rows.get i').nonzeros - (q.tighten.rows.get i').nonzeros =
        (p.rows.get i).nonzeros - (p.tighten.rows.get i).nonzeros) ∧
    (∀ (σ : Equiv.Perm (Fin m)) (q : Formulation α m n), p.matrix.IsLinked → q.matrix.IsLinked →
      p.IsReordered σ q →
      p.tighten.IsReordered σ q.tighten ∧
      q.tighteningPass.reductions = (List.finRange m).flatMap fun i =>
        (p.tighteningPass.reductions.filter fun r => r.row? = some (σ.symm i).val).map
          (Reduction.inRow i)) ∧
    ∀ j, (p.tighten.columns.get j).nonzeros = (p.columns.get j).nonzeros -
      .ofNat (∑ i, ((p.rowView i).zeroed (p.tighten.rowView i)).count j.val) := by
  refine ⟨fun q i i' h => ⟨?_, ?_, ?_⟩, fun σ q hp hq h => ⟨h.tighten hp hq, h.reductions⟩,
    fun j => ?_⟩
  · rw [rowView_tighten, rowView_tighten, edits_congr h, h]
  · rw [filter_reductions, filter_reductions, edits_congr h, List.map_flatMap]
    simp only [map_inRow_reductions]
  · have hloss : ∀ x y : Int64, x - (x - y) = y := fun x y => by
      rw [Int64.sub_eq_iff_eq_add, Int64.add_comm, Int64.sub_add_cancel]
    rw [rowCount_tighten, rowCount_tighten, edits_congr h, hloss, hloss]
  · rw [columnCount_tighten]
    simp only [List.count, countP_zeroed]

/-- The mixed row as the first or as the last of two rows; nothing is stored in the other one. -/
def mixedPair (first : Bool) : Formulation Extended 2 3 :=
  let row := mixedRow 10 2
  let isMixed : Fin 2 → Bool := fun i => (i.val == 0) == first
  ofRanges
    (.ofRows (.ofFn fun i => if isMixed i then row.matrix.toRows.get (Fin.last 0) else []))
    (.ofFn fun i => if isMixed i then (row.rows.get (Fin.last 0)).range else ⟨nan, nan⟩)
    (row.columns.map (·.range)) (row.columns.map (·.kind)) (row.columns.map (·.active))

theorem isLinked_mixedPair (first : Bool) : (mixedPair first).matrix.IsLinked := by
  apply Sparse.Matrix.isLinked_ofRows
  unfold Sparse.HasIncreasingColumns
  cases first <;> decide +kernel

/-- The mixed row comes out the same alone and in the pair, and the pair in either order. -/
theorem mixedPair_rows :
    (mixedPair false).tighten.rowView (Fin.last 1) = (mixedRow 10 2).tighten.rowView (Fin.last 0) ∧
    (mixedPair true).tighten.IsReordered Fin.revPerm (mixedPair false).tighten := by
  obtain ⟨hrow, -, -⟩ := (tighten_rows_independent (mixedRow 10 2)).1 (mixedPair false)
    (Fin.last 0) (Fin.last 1) (by decide +kernel)
  obtain ⟨hreordered, -⟩ := (tighten_rows_independent (mixedPair true)).2.1 Fin.revPerm
    (mixedPair false) (isLinked_mixedPair true) (isLinked_mixedPair false)
    (isReordered_ofRanges (by decide +kernel) (by decide +kernel)
      (by unfold Sparse.HasIncreasingColumns; decide +kernel) _ _ _)
  exact ⟨hrow, hreordered⟩

end Formulation

end CoefficientTightening
