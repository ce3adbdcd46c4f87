import CoefficientTightening.Proofs.Construction
import CoefficientTightening.Proofs.ReductionLog
import CoefficientTightening.Proofs.StoredValues

/-! Zeros that are stored besides. A formulation may store zeros where another one, otherwise equal,
stores nothing. Then every entry has another position in its row and another slot in its column, and
yet the passes over the two give the same reductions and the same events, and leave the same values
where both store one; the zeros stay as they were, in the rows and in the columns. An entry that a
pass made zero is such a zero: had it been taken out of both storages, nothing would be different
from then on. -/
namespace CoefficientTightening

open Sparse (PositionMap dropZeros)
open Sparse.Matrix (IsLinked)

variable {α : Type} {m n : Nat}

/-! ### Maps with more zeros -/

namespace Sparse

/-- A list without some of its entries holds the others still. -/
theorem lookup_filter {κ β : Type} [DecidableEq κ] {l : List (κ × β)} (h : (l.map (·.1)).Nodup)
    (keep : κ × β → Bool) (key : κ) :
    (l.filter keep).lookup key = (l.lookup key).filter fun value => keep (key, value) := by
  have hfilter : ((l.filter keep).map (·.1)).Nodup := h.sublist (List.filter_sublist.map _)
  apply Option.ext
  intro value
  rw [lookup_eq_some_iff_mem hfilter, List.mem_filter, Option.filter_eq_some_iff,
    lookup_eq_some_iff_mem h]

/-- The second map holds what the first one holds and, besides, zeros. -/
def PositionMap.AddsZeros [Scalar α] (f g : PositionMap α m n) : Prop :=
  ∀ place, g place = f place ∨ f place = none ∧ (g place).any (· == 0) = true

instance [Scalar α] [DecidableEq α] (f g : PositionMap α m n) :
    Decidable (PositionMap.AddsZeros f g) :=
  inferInstanceAs
    (Decidable (∀ place, g place = f place ∨ f place = none ∧ (g place).any (· == 0) = true))

section Maps

variable [Scalar α] {f g : PositionMap α m n}

theorem PositionMap.AddsZeros.update (h : PositionMap.AddsZeros f g) (place : Fin m × Fin n)
    (value : Option α) :
    PositionMap.AddsZeros (Function.update f place value) (Function.update g place value) := by
  intro place'
  by_cases hplace : place' = place
  · subst hplace
    simp
  · rw [Function.update_of_ne hplace, Function.update_of_ne hplace]
    exact h place'

theorem PositionMap.AddsZeros.writeAll (h : PositionMap.AddsZeros f g)
    (ts : List (Tightening α m n)) :
    PositionMap.AddsZeros (Tightening.writeAll ts f) (Tightening.writeAll ts g) := by
  induction ts generalizing f g with
  | nil => exact h
  | cons t rest ih => exact ih (h.update _ _)

/-- What is left of a map in which all that is taken out is zero. -/
theorem PositionMap.addsZeros_of_drops {drops : Fin m → Fin n → Bool}
    (hf : ∀ i j, f (i, j) = if drops i j then none else g (i, j))
    (hzero : ∀ i j, drops i j = true → (g (i, j)).any (· == 0) = true) :
    PositionMap.AddsZeros f g := by
  rintro ⟨i, j⟩
  rw [hf]
  cases hdrop : drops i j with
  | false => exact .inl rfl
  | true => exact .inr ⟨rfl, hzero i j hdrop⟩

/-- Rows by increasing column that differ in stored zeros have the same nonzeros, in order. -/
theorem HasIncreasingColumns.dropZeros_eq {row row' : List (Fin n × α)}
    (hrow : HasIncreasingColumns row) (hrow' : HasIncreasingColumns row')
    (h : ∀ j, row'.lookup j = row.lookup j ∨
      row.lookup j = none ∧ (row'.lookup j).any (· == 0) = true) :
    Sparse.dropZeros row' = Sparse.dropZeros row := by
  refine hrow'.dropZeros.ext hrow.dropZeros fun j => ?_
  rw [Sparse.dropZeros, Sparse.dropZeros, lookup_filter (hrow'.imp ne_of_lt),
    lookup_filter (hrow.imp ne_of_lt)]
  rcases h j with heq | ⟨hnone, hzero⟩
  · rw [heq]
  · obtain ⟨zero, hsome, hzero⟩ := (Option.any_eq_true _ _).mp hzero
    simp [hnone, hsome, hzero]

end Maps

/-! ### Taking entries out -/

namespace Matrix

variable {M : Matrix α m n} {i : Fin m} {j : Fin n}

theorem IsLinked.hasIncreasingColumns_toRows (hM : M.IsLinked) (i : Fin m) :
    HasIncreasingColumns (M.toRows.get i) := by
  have h := hM.rows_increasing i
  rw [places, HasIncreasingColumns, List.map_map] at h
  rw [get_toRows, HasIncreasingColumns, List.map_map]
  exact h

/-- A position is stored in the columns if it is stored in the rows. -/
theorem IsLinked.columnMap_eq_none_iff (hM : M.IsLinked) (place : Fin m × Fin n) :
    M.columnMap place = none ↔ M.rowMap place = none := by
  obtain ⟨i, j⟩ := place
  rw [Option.eq_none_iff_forall_ne_some, Option.eq_none_iff_forall_ne_some]
  simp only [ne_eq, hM.columnMap_eq_some_iff, hM.rowMap_eq_some_iff]
  constructor
  · rintro h value ⟨c, hc, rfl, -⟩
    obtain ⟨e, he, hrow⟩ := hM.exists_entry hc
    exact h e.value ⟨e, mem_toList_of_getElem? he, hrow, rfl⟩
  · rintro h value ⟨e, he, rfl, -⟩
    obtain ⟨slot, hslot⟩ := Array.getElem?_of_mem (Array.mem_toList_iff.mp he)
    obtain ⟨c, hc, hcolumn, -⟩ := hM.exists_cell hslot
    exact h c.value ⟨c, hc, hcolumn, rfl⟩

end Matrix

/-- The rows without the positions that meet the test. -/
def Rows.without (rows : Rows α m n) (drops : Fin m → Fin n → Bool) : Rows α m n :=
  .ofFn fun i => (rows.get i).filter fun t => !drops i t.1

variable (drops : Fin m → Fin n → Bool)

theorem Rows.get_without (rows : Rows α m n) (i : Fin m) :
    (rows.without drops).get i = (rows.get i).filter fun t => !drops i t.1 := by
  rw [get_eq_getElem]
  exact Vector.getElem_ofFn _

namespace Matrix

/-- The matrix without the positions that meet the test. It is built anew from its rows; the columns
keep their own values. -/
def unstore (M : Matrix α m n) (drops : Fin m → Fin n → Bool) : Matrix α m n :=
  let kept := ofRows (M.toRows.without drops)
  { kept with
    columns := .ofFn fun j => (kept.columns.get j).map fun e =>
      { e with value := (M.columnMap (e.row, j)).getD e.value } }

variable {M : Matrix α m n}

theorem get_columns_unstore (M : Matrix α m n) (j : Fin n) :
    (M.unstore drops).columns.get j =
      ((ofRows (M.toRows.without drops)).columns.get j).map fun e =>
        { e with value := (M.columnMap (e.row, j)).getD e.value } := by
  rw [get_eq_getElem]
  exact Vector.getElem_ofFn _

theorem sameShape_unstore (M : Matrix α m n) :
    (ofRows (M.toRows.without drops)).SameShape (M.unstore drops) where
  places_eq _ := rfl
  owners_eq j := by
    rw [owners, get_columns_unstore, Array.toList_map, List.map_map]
    rfl

theorem IsLinked.isLinked_kept (hM : M.IsLinked) : (ofRows (M.toRows.without drops)).IsLinked := by
  apply isLinked_ofRows
  intro i
  rw [Rows.get_without]
  exact (hM.hasIncreasingColumns_toRows i).sublist (List.filter_sublist.map _)

theorem IsLinked.unstore (hM : M.IsLinked) : (M.unstore drops).IsLinked :=
  (M.sameShape_unstore drops).isLinked (hM.isLinked_kept drops)

theorem IsLinked.rowMap_unstore (hM : M.IsLinked) (i : Fin m) (j : Fin n) :
    (M.unstore drops).rowMap (i, j) = if drops i j then none else M.rowMap (i, j) := by
  change ((ofRows (M.toRows.without drops)).toRows.get i).lookup j = _
  rw [get_toRows_ofRows, Rows.get_without, lookup_filter (hM.nodup_columns_toRows i)]
  change ((M.rowMap (i, j)).filter fun _ => !drops i j) = _
  cases M.rowMap (i, j) with
  | none => exact (ite_self none).symm
  | some value => cases drops i j <;> rfl

/-- The columns hold something where the rows do: their own value, if there is one. -/
theorem IsLinked.columnMap_unstore_eq_map (hM : M.IsLinked) (i : Fin m) (j : Fin n) :
    (M.unstore drops).columnMap (i, j) =
      ((M.unstore drops).rowMap (i, j)).map fun value => (M.columnMap (i, j)).getD value := by
  change _ = ((ofRows (M.toRows.without drops)).rowMap (i, j)).map _
  rw [← (isMirrored_ofRows _).columnMap_eq (hM.isLinked_kept drops)]
  apply Option.ext
  intro value
  rw [(hM.unstore drops).columnMap_eq_some_iff, get_columns_unstore, Array.toList_map,
    Option.map_eq_some_iff]
  simp only [(hM.isLinked_kept drops).columnMap_eq_some_iff, List.mem_map]
  constructor
  · rintro ⟨_, ⟨e, he, rfl⟩, rfl, rfl⟩
    exact ⟨e.value, ⟨e, he, rfl, rfl⟩, rfl⟩
  · rintro ⟨_, ⟨e, he, rfl, rfl⟩, rfl⟩
    exact ⟨_, ⟨e, he, rfl⟩, rfl, rfl⟩

theorem IsLinked.columnMap_unstore (hM : M.IsLinked) (i : Fin m) (j : Fin n) :
    (M.unstore drops).columnMap (i, j) = if drops i j then none else M.columnMap (i, j) := by
  rw [hM.columnMap_unstore_eq_map, hM.rowMap_unstore]
  cases drops i j with
  | true => rfl
  | false =>
    cases hrow : M.rowMap (i, j) with
    | none => exact ((hM.columnMap_eq_none_iff (i, j)).mpr hrow).symm
    | some value =>
      cases hcolumn : M.columnMap (i, j) with
      | none =>
        rw [(hM.columnMap_eq_none_iff (i, j)).mp hcolumn] at hrow
        cases hrow
      | some other => rfl

end Matrix

end Sparse

/-! ### One pass over more zeros -/

namespace Tightening

variable {ts us : List (Tightening α m n)}

/-- Where no two changes meet, each of them stays. -/
theorem writeAll_of_mem {t : Tightening α m n} (f : PositionMap α m n)
    (hnodup : (ts.map fun t => (t.row.val, t.column.val)).Nodup) (ht : t ∈ ts) :
    writeAll ts f (t.row, t.column) = some t.new := by
  induction ts generalizing f with
  | nil => cases ht
  | cons u rest ih =>
    obtain ⟨hfresh, hrest⟩ := List.nodup_cons.mp hnodup
    rw [writeAll_cons]
    rcases List.mem_cons.mp ht with rfl | hmem
    · rw [writeAll_of_forall_ne, Function.update_self]
      intro v hv heq
      obtain ⟨hrow, hcolumn⟩ := Prod.mk.inj heq
      exact hfresh (List.mem_map.mpr ⟨v, hv, by simp only [hrow, hcolumn]⟩)
    · exact ih _ hrest hmem

/-- The positions of the changes in their rows do not matter. -/
theorem writeAll_eq_of_map_unplaced (h : us.map unplaced = ts.map unplaced)
    (f : PositionMap α m n) : writeAll us f = writeAll ts f := by
  have hunplaced : ∀ (vs : List (Tightening α m n)) (f : PositionMap α m n),
      writeAll (vs.map unplaced) f = writeAll vs f := by
    intro vs f
    unfold writeAll
    rw [List.foldl_map]
    rfl
  rw [← hunplaced, h, hunplaced]

end Tightening

namespace Formulation

open Tightening

variable [Scalar α] {p q : Formulation α m n}

/-- The second formulation stores zeros where the first one stores nothing, in both storages, and is
equal to it otherwise, counts included. -/
structure AddsZeros (p q : Formulation α m n) : Prop where
  rows : q.rows = p.rows
  columns : q.columns = p.columns
  inRows : PositionMap.AddsZeros p.matrix.rowMap q.matrix.rowMap
  inColumns : PositionMap.AddsZeros p.matrix.columnMap q.matrix.columnMap

theorem AddsZeros.hasSameNonzeros (h : p.AddsZeros q) (hp : p.matrix.IsLinked)
    (hq : q.matrix.IsLinked) : p.HasSameNonzeros q where
  rows := h.rows
  columns := h.columns
  nonzeros i := (hp.hasIncreasingColumns_toRows i).dropZeros_eq (hq.hasIncreasingColumns_toRows i)
    fun j => h.inRows (i, j)

variable [RoundedScalar α]

theorem AddsZeros.tighten (h : p.AddsZeros q) (hp : p.matrix.IsLinked) (hq : q.matrix.IsLinked) :
    p.tighten.AddsZeros q.tighten := by
  have hsame := h.hasSameNonzeros hp hq
  have hafter := hsame.tighten hp hq
  refine ⟨hafter.rows, hafter.columns, ?_, ?_⟩
  · rw [rowMap_tighten hp, rowMap_tighten hq,
      writeAll_eq_of_map_unplaced hsame.map_unplaced_tightenings]
    exact h.inRows.writeAll _
  · rw [columnMap_tighten hp, columnMap_tighten hq,
      writeAll_eq_of_map_unplaced hsame.map_unplaced_tightenings]
    exact h.inColumns.writeAll _

/-! ### Positions without a nonzero -/

/-- In the rows the position holds nothing but, at most, a zero. -/
def IsZeroAt (p : Formulation α m n) (place : Fin m × Fin n) : Prop :=
  ∀ value ∈ p.matrix.rowMap place, (value == 0) = true

/-- A pass changes nonzeros only, so it leaves such a position alone in both storages. -/
theorem IsZeroAt.maps_tighten {place : Fin m × Fin n} (h : p.IsZeroAt place)
    (hp : p.matrix.IsLinked) :
    p.tighten.matrix.rowMap place = p.matrix.rowMap place ∧
      p.tighten.matrix.columnMap place = p.matrix.columnMap place := by
  have hne : ∀ t ∈ p.tightenings, place ≠ (t.row, t.column) := by
    rintro t ht rfl
    have hzero := h t.old (rowMap_of_mem_tightenings hp ht)
    rw [old_ne_zero_of_mem_tightenings ht] at hzero
    cases hzero
  rw [rowMap_tighten hp, columnMap_tighten hp]
  exact ⟨writeAll_of_forall_ne _ hne, writeAll_of_forall_ne _ hne⟩

theorem IsZeroAt.maps_iterate_tighten {place : Fin m × Fin n} (h : p.IsZeroAt place)
    (hp : p.matrix.IsLinked) (k : Nat) :
    (Formulation.tighten^[k] p).matrix.rowMap place = p.matrix.rowMap place ∧
      (Formulation.tighten^[k] p).matrix.columnMap place = p.matrix.columnMap place := by
  induction k generalizing p with
  | zero => exact ⟨rfl, rfl⟩
  | succ k ih =>
    obtain ⟨hrow, hcolumn⟩ := h.maps_tighten hp
    have hafter : p.tighten.IsZeroAt place := fun value hvalue => h value (hrow ▸ hvalue)
    rw [← hrow, ← hcolumn]
    exact ih hafter (p.sameShape_tighten.isLinked hp)

/-! ### Pass after pass -/

/-- Pass after pass the second formulation gives the reductions and the events of the first one. It
goes on storing what the first one stores and, besides, the zeros it stored at the start. -/
structure TightensLike (p q : Formulation α m n) : Prop where
  reductions (k : Nat) :
    (tighten^[k] q).tighteningPass.reductions = (tighten^[k] p).tighteningPass.reductions
  events (k : Nat) : (tighten^[k] q).tighteningPass.events = (tighten^[k] p).tighteningPass.events
  data (k : Nat) : (tighten^[k] p).AddsZeros (tighten^[k] q)
  zeros (k : Nat) (place : Fin m × Fin n) : p.matrix.rowMap place = none →
    (tighten^[k] q).matrix.rowMap place = q.matrix.rowMap place ∧
      (tighten^[k] q).matrix.columnMap place = q.matrix.columnMap place

theorem AddsZeros.iterate_tighten (h : p.AddsZeros q) (hp : p.matrix.IsLinked)
    (hq : q.matrix.IsLinked) (k : Nat) :
    (Formulation.tighten^[k] p).AddsZeros (Formulation.tighten^[k] q) := by
  induction k generalizing p q with
  | zero => exact h
  | succ k ih =>
    exact ih (h.tighten hp hq) (p.sameShape_tighten.isLinked hp) (q.sameShape_tighten.isLinked hq)

theorem AddsZeros.tightensLike (h : p.AddsZeros q) (hp : p.matrix.IsLinked)
    (hq : q.matrix.IsLinked) : p.TightensLike q := by
  have hsame (k : Nat) : (Formulation.tighten^[k] p).HasSameNonzeros (Formulation.tighten^[k] q) :=
    (h.iterate_tighten hp hq k).hasSameNonzeros ((p.sameShape_iterate_tighten k).isLinked hp)
      ((q.sameShape_iterate_tighten k).isLinked hq)
  refine ⟨fun k => (hsame k).reductions_tighteningPass, fun k => (hsame k).events_tighteningPass,
    fun k => h.iterate_tighten hp hq k, fun k place hnone => ?_⟩
  have hzero : q.IsZeroAt place := by
    intro value hvalue
    rcases h.inRows place with heq | ⟨-, hzero⟩
    · rw [heq, hnone] at hvalue
      cases hvalue
    · rw [hvalue] at hzero
      exact hzero
  exact hzero.maps_iterate_tighten hq k

/-! ### Zeros that a pass leaves -/

/-- One of the first `k` passes makes the entry zero. -/
def IsZeroedWithin (p : Formulation α m n) (k : Nat) (i : Fin m) (j : Fin n) : Prop :=
  ∃ l < k, ∃ t ∈ (tighten^[l] p).tightenings,
    t.row = i ∧ t.column = j ∧ (t.new == 0) = true

/-- An entry that was made zero is zero in both storages, and stays so. -/
theorem IsZeroedWithin.any_eq_zero {k : Nat} {i : Fin m} {j : Fin n} (h : p.IsZeroedWithin k i j)
    (hp : p.matrix.IsLinked) :
    ((Formulation.tighten^[k] p).matrix.rowMap (i, j)).any (· == 0) = true ∧
      ((Formulation.tighten^[k] p).matrix.columnMap (i, j)).any (· == 0) = true := by
  obtain ⟨l, hl, t, ht, rfl, rfl, hzero⟩ := h
  obtain ⟨later, rfl⟩ := Nat.exists_eq_add_of_lt hl
  have hlinked : (Formulation.tighten^[l] p).matrix.IsLinked :=
    (p.sameShape_iterate_tighten l).isLinked hp
  have hnodup := nodup_places_tightenings hlinked
  have hrow : (Formulation.tighten^[l] p).tighten.matrix.rowMap (t.row, t.column) = some t.new := by
    rw [rowMap_tighten hlinked]
    exact writeAll_of_mem _ hnodup ht
  have hcolumn : (Formulation.tighten^[l] p).tighten.matrix.columnMap (t.row, t.column) =
      some t.new := by
    rw [columnMap_tighten hlinked]
    exact writeAll_of_mem _ hnodup ht
  have hat : (Formulation.tighten^[l] p).tighten.IsZeroAt (t.row, t.column) := by
    intro value hvalue
    rw [hrow] at hvalue
    exact Option.some.inj hvalue ▸ hzero
  have hiterate : Formulation.tighten^[later] (Formulation.tighten^[l] p).tighten =
      Formulation.tighten^[l + later + 1] p := by
    rw [← Function.iterate_succ_apply' Formulation.tighten, ← Function.iterate_add_apply,
      Nat.add_succ, Nat.add_comm later]
  obtain ⟨hrows, hcolumns⟩ :=
    hat.maps_iterate_tighten ((sameShape_tighten _).isLinked hlinked) later
  rw [hiterate] at hrows hcolumns
  rw [hrows, hcolumns, hrow, hcolumn]
  exact ⟨hzero, hzero⟩

/-- The formulation without the entries that meet the test. -/
def unstore (p : Formulation α m n) (drops : Fin m → Fin n → Bool) : Formulation α m n :=
  { p with matrix := p.matrix.unstore drops }

omit [RoundedScalar α] in
/-- Entries that are zero in both storages can be taken out. -/
theorem addsZeros_unstore (hp : p.matrix.IsLinked) {drops : Fin m → Fin n → Bool}
    (h : ∀ i j, drops i j = true → (p.matrix.rowMap (i, j)).any (· == 0) = true ∧
      (p.matrix.columnMap (i, j)).any (· == 0) = true) :
    (p.unstore drops).AddsZeros p where
  rows := rfl
  columns := rfl
  inRows := PositionMap.addsZeros_of_drops (hp.rowMap_unstore drops) fun i j hdrop =>
    (h i j hdrop).1
  inColumns := PositionMap.addsZeros_of_drops (hp.columnMap_unstore drops) fun i j hdrop =>
    (h i j hdrop).2

/-! ### Stored zeros do not show -/

/-- A formulation that stores more zeros tightens like the one that does not. So it makes no
difference from then on if any of the entries that earlier passes made zero are taken out. -/
theorem tighten_added_zeros (p : Formulation α m n) (hp : p.matrix.IsLinked) :
    (∀ q : Formulation α m n, q.matrix.IsLinked → p.AddsZeros q → p.TightensLike q) ∧
    ∀ (k : Nat) (drops : Fin m → Fin n → Bool),
      (∀ i j, drops i j = true → p.IsZeroedWithin k i j) →
      ((tighten^[k] p).unstore drops).TightensLike (tighten^[k] p) := by
  refine ⟨fun q hq h => h.tightensLike hp hq, fun k drops h => ?_⟩
  have hlinked : (tighten^[k] p).matrix.IsLinked :=
    (p.sameShape_iterate_tighten k).isLinked hp
  have hadds := addsZeros_unstore hlinked fun i j hdrop => (h i j hdrop).any_eq_zero hp
  exact hadds.tightensLike (hlinked.unstore drops) hlinked

/-- The mixed row with the bound 11, and with nothing stored for its last column or with a zero. -/
def shortRow (padded : Bool) : Formulation Extended 1 3 :=
  let row := mixedRow 11 2
  let entries := Sparse.overwrite (Fin.last 2) 0 (row.matrix.toRows.get (Fin.last 0))
  ofRanges (.ofRows (Vector.replicate 1 (if padded then entries else dropZeros entries)))
    (row.rows.map (·.range)) (row.columns.map (·.range)) (row.columns.map (·.kind))
    (row.columns.map (·.active))

theorem isLinked_shortRow (padded : Bool) : (shortRow padded).matrix.IsLinked := by
  apply Sparse.Matrix.isLinked_ofRows
  unfold Sparse.HasIncreasingColumns
  cases padded <;> decide +kernel

/-- The bound 11 is never passed, so a pass makes both entries zero; they can then be taken out. -/
theorem shortRow_tightensLike :
    (shortRow false).TightensLike (shortRow true) ∧
      ((shortRow false).tighten.unstore fun _ j => j != Fin.last 2).TightensLike
        (shortRow false).tighten := by
  obtain ⟨hpadded, hzeroed⟩ := tighten_added_zeros (shortRow false) (isLinked_shortRow false)
  refine ⟨hpadded (shortRow true) (isLinked_shortRow true) ?_, hzeroed 1 _ ?_⟩
  · exact ⟨by decide +kernel, by decide +kernel, by decide +kernel, by decide +kernel⟩
  · unfold IsZeroedWithin
    decide +kernel

end Formulation

end CoefficientTightening
