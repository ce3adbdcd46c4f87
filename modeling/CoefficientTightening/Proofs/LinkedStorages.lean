import CoefficientTightening.Proofs.CanonicalRows
import CoefficientTightening.Proofs.RowPass
import Mathlib.Data.List.Sort

/-! How the two storages of a matrix are linked. Rows run by increasing column and columns by
increasing row, and a cell of a row points to a slot of a column exactly when the entry in that slot
is one of the row. So every entry has its cell, and no two cells point to one entry. A matrix built
from rows in canonical form is linked, and stays so whatever values are written. -/
namespace CoefficientTightening

section Places

variable {β γ : Type} {xs : Array β} {k k' : Nat} {x y : β}

theorem vector_ext {size : Nat} {xs ys : Vector β size}
    (h : ∀ i : Fin size, xs.get i = ys.get i) : xs = ys :=
  Vector.ext fun i hi => h ⟨i, hi⟩

theorem mem_toList_of_getElem? (hx : xs[k]? = some x) : x ∈ xs.toList :=
  Array.mem_toList_iff.mpr (Array.mem_of_getElem? hx)

/-- Where no two components have the same key, a key has one place. -/
theorem eq_of_getElem?_of_nodup {key : β → γ} (hnodup : (xs.toList.map key).Nodup)
    (hx : xs[k]? = some x) (hy : xs[k']? = some y) (h : key x = key y) : k = k' := by
  obtain ⟨hlt, -⟩ := Array.getElem?_eq_some_iff.mp hx
  apply (List.getElem?_inj (by simpa using hlt) hnodup).mp
  rw [List.getElem?_map, List.getElem?_map, Array.getElem?_toList, Array.getElem?_toList, hx, hy,
    Option.map_some, Option.map_some, h]

end Places

namespace Sparse

variable {α : Type} {m n : Nat}

/-! ### Rows by increasing column -/

def HasIncreasingColumns (row : List (Fin n × α)) : Prop :=
  (row.map (·.1)).Pairwise (· < ·)

theorem hasIncreasingColumns_cons {t : Fin n × α} {row : List (Fin n × α)} :
    HasIncreasingColumns (t :: row) ↔ (∀ u ∈ row, t.1 < u.1) ∧ HasIncreasingColumns row := by
  simp [HasIncreasingColumns]

theorem pairwise_insertByColumn (t : Fin n × α) {row : List (Fin n × α)}
    (h : row.Pairwise fun u v => u.1 ≤ v.1) :
    (insertByColumn t row).Pairwise fun u v => u.1 ≤ v.1 := by
  induction row with
  | nil => exact List.pairwise_singleton _ _
  | cons s rest ih =>
    obtain ⟨hhead, hrest⟩ := List.pairwise_cons.mp h
    rw [insertByColumn]
    split
    · next hle =>
      refine List.pairwise_cons.mpr ⟨fun u hu => ?_, h⟩
      rcases List.mem_cons.mp hu with rfl | hmem
      · exact hle
      · exact hle.trans (hhead u hmem)
    · next hgt =>
      refine List.pairwise_cons.mpr ⟨fun u hu => ?_, ih hrest⟩
      rcases List.mem_cons.mp ((insertByColumn_perm t rest).mem_iff.mp hu) with rfl | hmem
      · exact (not_le.mp hgt).le
      · exact hhead u hmem

theorem pairwise_sortByColumn (row : List (Fin n × α)) :
    (sortByColumn row).Pairwise fun u v => u.1 ≤ v.1 := by
  induction row with
  | nil => exact List.Pairwise.nil
  | cons t rest ih => exact pairwise_insertByColumn t ih

section Canonical

variable [Scalar α]

theorem hasIncreasingColumns_sumFrom {row : List (Fin n × α)} {j : Fin n} (value : α)
    (hle : ∀ t ∈ row, j ≤ t.1) (h : row.Pairwise fun u v => u.1 ≤ v.1) :
    HasIncreasingColumns (sumFrom j value row) ∧ ∀ t ∈ sumFrom j value row, j ≤ t.1 := by
  induction row generalizing j value with
  | nil => simp [sumFrom, HasIncreasingColumns]
  | cons s rest ih =>
    obtain ⟨k, v⟩ := s
    obtain ⟨hhead, hrest⟩ := List.pairwise_cons.mp h
    rw [sumFrom]
    split
    · next heq =>
      subst heq
      exact ih _ hhead hrest
    · next hne =>
      have hlt : j < k := lt_of_le_of_ne (hle (k, v) List.mem_cons_self) (Ne.symm hne)
      obtain ⟨hinc, hge⟩ := ih v hhead hrest
      have hall : ∀ t ∈ sumFrom k v rest, j < t.1 := fun t ht => hlt.trans_le (hge t ht)
      refine ⟨hasIncreasingColumns_cons.mpr ⟨hall, hinc⟩, fun t ht => ?_⟩
      rcases List.mem_cons.mp ht with rfl | hmem
      · exact le_refl _
      · exact (hall t hmem).le

/-- A row in canonical form runs by increasing column. -/
theorem hasIncreasingColumns_canonicalRow (row : List (Fin n × α)) :
    HasIncreasingColumns (canonicalRow row) := by
  have hsorted := pairwise_sortByColumn row
  rw [canonicalRow]
  cases hsort : sortByColumn row with
  | nil => exact List.Pairwise.nil
  | cons t rest =>
    rw [hsort] at hsorted
    obtain ⟨hhead, hrest⟩ := List.pairwise_cons.mp hsorted
    exact (hasIncreasingColumns_sumFrom t.2 hhead hrest).1

theorem sumFrom_of_increasing {row : List (Fin n × α)} {j : Fin n} {value : α}
    (h : HasIncreasingColumns ((j, value) :: row)) : sumFrom j value row = (j, value) :: row := by
  induction row generalizing j value with
  | nil => rfl
  | cons t rest ih =>
    obtain ⟨hlt, hrest⟩ := hasIncreasingColumns_cons.mp h
    rw [sumFrom, if_neg (hlt t List.mem_cons_self).ne', ih hrest]

/-- A row by increasing column is in canonical form. -/
theorem canonicalRow_of_increasing {row : List (Fin n × α)} (h : HasIncreasingColumns row) :
    canonicalRow row = row := by
  have hsort : sortByColumn row = row := by
    induction row with
    | nil => rfl
    | cons t rest ih =>
      obtain ⟨hlt, hrest⟩ := hasIncreasingColumns_cons.mp h
      have hstep : sortByColumn (t :: rest) = insertByColumn t (sortByColumn rest) := rfl
      rw [hstep, ih hrest]
      cases rest with
      | nil => rfl
      | cons u rest => rw [insertByColumn, if_pos (hlt u List.mem_cons_self).le]
  rw [canonicalRow, hsort]
  cases row with
  | nil => rfl
  | cons t rest => exact sumFrom_of_increasing h

/-- Rows by increasing column are read as they are. -/
theorem Rows.canonical_of_increasing {rows : Rows α m n}
    (h : ∀ i, HasIncreasingColumns (rows.get i)) : rows.canonical = rows := by
  apply vector_ext
  intro i
  rw [Rows.get_canonical, canonicalRow_of_increasing (h i)]

/-- The entries of a row other than zeros. -/
def dropZeros (row : List (Fin n × α)) : List (Fin n × α) :=
  row.filter fun t => !(t.2 == 0)

theorem HasIncreasingColumns.dropZeros {row : List (Fin n × α)} (h : HasIncreasingColumns row) :
    HasIncreasingColumns (dropZeros row) :=
  h.sublist (List.filter_sublist.map _)

end Canonical

namespace Matrix

/-! ### Links -/

/-- Column and slot of each cell of a row. -/
def places (M : Matrix α m n) (i : Fin m) : List (Fin n × Nat) :=
  (M.rows.get i).toList.map fun c => (c.column, c.slot)

/-- Row of each entry of a column. -/
def owners (M : Matrix α m n) (j : Fin n) : List (Fin m) :=
  (M.columns.get j).toList.map (·.row)

structure IsLinked (M : Matrix α m n) : Prop where
  rows_increasing : ∀ i, HasIncreasingColumns (M.places i)
  columns_increasing : ∀ j, (M.owners j).Pairwise (· < ·)
  mem_places_iff : ∀ i j slot, (j, slot) ∈ M.places i ↔ (M.owners j)[slot]? = some i

/-- Matrices whose cells and entries stand in the same places. -/
structure SameShape (M N : Matrix α m n) : Prop where
  places_eq : ∀ i, N.places i = M.places i
  owners_eq : ∀ j, N.owners j = M.owners j

variable {M N : Matrix α m n}

theorem SameShape.refl (M : Matrix α m n) : M.SameShape M := ⟨fun _ => rfl, fun _ => rfl⟩

theorem SameShape.trans {L : Matrix α m n} (h : L.SameShape M) (k : M.SameShape N) :
    L.SameShape N :=
  ⟨fun i => (k.places_eq i).trans (h.places_eq i), fun j => (k.owners_eq j).trans (h.owners_eq j)⟩

theorem SameShape.isLinked (h : M.SameShape N) (hM : M.IsLinked) : N.IsLinked where
  rows_increasing i := by
    rw [h.places_eq]
    exact hM.rows_increasing i
  columns_increasing j := by
    rw [h.owners_eq]
    exact hM.columns_increasing j
  mem_places_iff i j slot := by
    rw [h.places_eq, h.owners_eq]
    exact hM.mem_places_iff i j slot

/-! ### Building -/

theorem places_append (M : Matrix α m n) (i i' : Fin m) (j : Fin n) (value : α) :
    (M.append i j value).places i' =
      if i = i' then M.places i' ++ [(j, (M.owners j).length)] else M.places i' := by
  unfold places owners append
  rw [get_modifyAt]
  split <;> simp

theorem owners_append (M : Matrix α m n) (i : Fin m) (j j' : Fin n) (value : α) :
    (M.append i j value).owners j' = if j = j' then M.owners j' ++ [i] else M.owners j' := by
  unfold owners append
  rw [get_modifyAt]
  split <;> simp

/-- An entry is appended past the end of its row and of its column. -/
theorem IsLinked.append (hM : M.IsLinked) {i : Fin m} {j : Fin n} (value : α)
    (hrow : ∀ t ∈ M.places i, t.1 < j) (hcolumn : ∀ i' ∈ M.owners j, i' < i) :
    (M.append i j value).IsLinked where
  rows_increasing i' := by
    rw [places_append]
    split
    · next heq =>
      subst heq
      unfold HasIncreasingColumns
      rw [List.map_append, List.pairwise_append]
      refine ⟨hM.rows_increasing i, List.pairwise_singleton _ _, fun a ha b hb => ?_⟩
      obtain ⟨t, ht, rfl⟩ := List.mem_map.mp ha
      rw [List.mem_singleton.mp hb]
      exact hrow t ht
    · exact hM.rows_increasing i'
  columns_increasing j' := by
    rw [owners_append]
    split
    · next heq =>
      subst heq
      rw [List.pairwise_append]
      refine ⟨hM.columns_increasing j, List.pairwise_singleton _ _, fun a ha b hb => ?_⟩
      rw [List.mem_singleton.mp hb]
      exact hcolumn a ha
    · exact hM.columns_increasing j'
  mem_places_iff i' j' slot := by
    have hold := hM.mem_places_iff i' j' slot
    rw [places_append, owners_append]
    by_cases hj : j = j'
    · subst hj
      rw [if_pos rfl, List.getElem?_append]
      by_cases hlt : slot < (M.owners j).length
      · -- an old slot of the column
        rw [if_pos hlt, ← hold]
        split
        · simp [hlt.ne]
        · exact Iff.rfl
      · have hnone : (j, slot) ∉ M.places i' := by
          rw [hold, List.getElem?_eq_none (not_lt.mp hlt)]
          exact (Option.some_ne_none i').symm
        rw [if_neg hlt, List.getElem?_singleton]
        by_cases hi : i = i'
        · simp [hi, hnone]
          omega
        · simp [hi, hnone]
    · rw [if_neg hj, ← hold]
      split
      · simp [Ne.symm hj]
      · exact Iff.rfl

/-- Every entry stored so far comes before the entries still to be stored in a row. -/
def ComesBefore (M : Matrix α m n) (i : Fin m) (row : List (Fin n × α)) : Prop :=
  ∀ j, ∀ i' ∈ M.owners j, i' < i ∨ i' = i ∧ ∀ t ∈ row, j < t.1

theorem IsLinked.appendRow (hM : M.IsLinked) {i : Fin m} {row : List (Fin n × α)}
    (hrow : HasIncreasingColumns row) (hbefore : M.ComesBefore i row) :
    (M.appendRow i row).IsLinked ∧ ∀ j, ∀ i' ∈ (M.appendRow i row).owners j, i' ≤ i := by
  induction row generalizing M with
  | nil =>
    refine ⟨hM, fun j i' hi' => ?_⟩
    rcases hbefore j i' hi' with hlt | ⟨rfl, -⟩
    · exact hlt.le
    · exact le_refl _
  | cons t rest ih =>
    obtain ⟨hlt, hrest⟩ := hasIncreasingColumns_cons.mp hrow
    have hcolumn : ∀ i' ∈ M.owners t.1, i' < i := by
      intro i' hi'
      rcases hbefore t.1 i' hi' with h | ⟨-, h⟩
      · exact h
      · exact absurd (h t List.mem_cons_self) (lt_irrefl _)
    have hplaces : ∀ u ∈ M.places i, u.1 < t.1 := by
      intro u hu
      have howner := List.mem_of_getElem? ((hM.mem_places_iff i u.1 u.2).mp hu)
      rcases hbefore u.1 i howner with h | ⟨-, h⟩
      · exact absurd h (lt_irrefl _)
      · exact h t List.mem_cons_self
    apply ih (hM.append t.2 hplaces hcolumn) hrest
    intro j i' hi'
    rw [owners_append] at hi'
    split at hi'
    · next heq =>
      subst heq
      rcases List.mem_append.mp hi' with hmem | hmem
      · exact .inl (hcolumn i' hmem)
      · exact .inr ⟨List.mem_singleton.mp hmem, hlt⟩
    · exact (hbefore j i' hi').imp_right
        fun h => ⟨h.1, fun u hu => h.2 u (List.mem_cons_of_mem _ hu)⟩

theorem isLinked_empty : (empty : Matrix α m n).IsLinked where
  rows_increasing i := by
    simp [places, empty, HasIncreasingColumns]
  columns_increasing j := by
    simp [owners, empty]
  mem_places_iff i j slot := by
    simp [places, owners, empty]

/-- Rows by increasing column make a linked matrix. -/
theorem isLinked_ofRows {rows : Rows α m n} (hrows : ∀ i, HasIncreasingColumns (rows.get i)) :
    (ofRows rows).IsLinked := by
  have hrun : ∀ (order : List (Fin m)), order.Pairwise (· < ·) → ∀ M : Matrix α m n, M.IsLinked →
      (∀ j, ∀ i' ∈ M.owners j, ∀ i ∈ order, i' < i) →
      (order.foldl (fun M i => M.appendRow i (rows.get i)) M).IsLinked := by
    intro order
    induction order with
    | nil => exact fun _ _ hM _ => hM
    | cons i rest ih =>
      intro hinc M hM hbefore
      obtain ⟨hlater, hrest⟩ := List.pairwise_cons.mp hinc
      obtain ⟨hlinked, hle⟩ := hM.appendRow (hrows i)
        fun j i' hi' => .inl (hbefore j i' hi' i List.mem_cons_self)
      exact ih hrest _ hlinked fun j i' hi' k hk => (hle j i' hi').trans_lt (hlater k hk)
  exact hrun _ (List.sortedLT_finRange m).pairwise _ isLinked_empty (by simp [owners, empty])

theorem isLinked_ofRows_canonical [Scalar α] (rows : Rows α m n) :
    (ofRows rows.canonical).IsLinked := by
  apply isLinked_ofRows
  intro i
  rw [Rows.get_canonical]
  exact hasIncreasingColumns_canonicalRow _

/-! ### Writing -/

theorem map_modify_eq {β γ : Type} {f : β → β} {g : β → γ} (h : ∀ x, g (f x) = g x) (xs : Array β)
    (k : Nat) : (xs.modify k f).toList.map g = xs.toList.map g := by
  apply List.ext_getElem?
  intro k'
  rw [List.getElem?_map, List.getElem?_map, Array.getElem?_toList, Array.getElem?_toList,
    Array.getElem?_modify]
  split
  · rw [Option.map_map]
    congr 1
    exact funext h
  · rfl

theorem sameShape_writeRow (M : Matrix α m n) (i : Fin m) (k : Nat) (value : α) :
    M.SameShape (M.writeRow i k value) where
  places_eq i' := by
    unfold places writeRow
    rw [get_modifyAt]
    split
    · apply map_modify_eq
      exact fun _ => rfl
    · rfl
  owners_eq _ := rfl

theorem sameShape_writeColumn (M : Matrix α m n) (j : Fin n) (slot : Nat) (value : α) :
    M.SameShape (M.writeColumn j slot value) where
  places_eq _ := rfl
  owners_eq j' := by
    unfold owners writeColumn
    rw [get_modifyAt]
    split
    · apply map_modify_eq
      exact fun _ => rfl
    · rfl

theorem sameShape_write (M : Matrix α m n) (i : Fin m) (k : Nat) (value : α) :
    M.SameShape (M.write i k value) := by
  unfold write
  split
  · exact (M.sameShape_writeRow i k value).trans (sameShape_writeColumn _ _ _ _)
  · exact SameShape.refl M

/-! Writing by whole-number indices moves nothing either. -/

theorem sameShape_of_write? {i k : Int} {value : α} (h : M.write? i k value = .ok N) :
    M.SameShape N := by
  unfold write? at h
  cases hlocate : locate M.rows i k with
  | error e => rw [hlocate] at h; cases h
  | ok place =>
    rw [hlocate] at h
    cases h
    exact M.sameShape_write place.1 place.2 value

theorem sameShape_of_writeRow? {i k : Int} {value : α} (h : M.writeRow? i k value = .ok N) :
    M.SameShape N := by
  unfold writeRow? at h
  cases hlocate : locate M.rows i k with
  | error e => rw [hlocate] at h; cases h
  | ok place =>
    rw [hlocate] at h
    cases h
    exact M.sameShape_writeRow place.1 place.2 value

theorem sameShape_of_writeColumn? {j k : Int} {value : α} (h : M.writeColumn? j k value = .ok N) :
    M.SameShape N := by
  unfold writeColumn? at h
  cases hlocate : locate M.columns j k with
  | error e => rw [hlocate] at h; cases h
  | ok place =>
    rw [hlocate] at h
    cases h
    exact M.sameShape_writeColumn place.1 place.2 value

end Matrix

end Sparse

end CoefficientTightening
