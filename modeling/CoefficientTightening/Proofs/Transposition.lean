import CoefficientTightening.Proofs.GivenEntries
import CoefficientTightening.Proofs.PositionMap
import Mathlib.Data.List.Sort
import Mathlib.Data.Prod.Lex
import Mathlib.Data.Set.Function

/-! From the row storage to the column storage. Number the stored positions row after row, starting
from one, and bring them into the order of the columns; within a column they then run by increasing
row. Where a position comes to stand, counted from the first one of its column, is the slot of its
cell, and its number tells where its value is found; writing each place to where its number points
inverts the order. So the slots come out the same whichever way the positions are brought into order,
and no slot is left out or used twice. -/
namespace CoefficientTightening

section Blocks

variable {β κ : Type} [LinearOrder κ] {key : β → κ} {l : List β}

/-- In a list that is ordered by a key, the block of one key comes after all smaller keys. -/
theorem getElem?_countP_add (h : l.Pairwise fun a b => key a ≤ key b) {bound : κ} {k : Nat} {x : β}
    (hx : (l.filter fun a => key a = bound)[k]? = some x) :
    l[(l.countP fun a => key a < bound) + k]? = some x := by
  induction l generalizing k with
  | nil => exact hx
  | cons a rest ih =>
    obtain ⟨hhead, hrest⟩ := List.pairwise_cons.mp h
    rcases lt_trichotomy (key a) bound with hlt | heq | hgt
    · rw [List.filter_cons_of_neg (by simpa using hlt.ne)] at hx
      rw [List.countP_cons_of_pos (by simpa using hlt), Nat.add_right_comm, List.getElem?_cons_succ]
      exact ih hrest hx
    · have hnone : (rest.countP fun a => key a < bound) = 0 := by
        rw [List.countP_eq_zero]
        intro b hb
        simpa using heq ▸ hhead b hb
      have hrestAt := ih hrest (k := k - 1)
      rw [List.filter_cons_of_pos (by simpa using heq)] at hx
      rw [List.countP_cons_of_neg (by simp [heq]), hnone, Nat.zero_add]
      rw [hnone, Nat.zero_add] at hrestAt
      cases k with
      | zero => exact hx
      | succ k => exact hrestAt hx
    · have hnil : (a :: rest).filter (fun a => key a = bound) = [] := by
        rw [List.filter_eq_nil_iff]
        intro b hb
        rcases List.mem_cons.mp hb with rfl | hmem
        · simpa using hgt.ne'
        · simpa using (hgt.trans_le (hhead b hmem)).ne'
      rw [hnil] at hx
      cases hx

theorem countP_lt_succ {n : Nat} (key : β → Fin n) (l : List β) (j : Fin n) :
    (l.countP fun a => key a < (j : Nat) + 1) =
      (l.countP fun a => key a < (j : Nat)) + l.countP fun a => key a = j := by
  induction l with
  | nil => rfl
  | cons a rest ih =>
    rw [List.countP_cons, List.countP_cons, List.countP_cons, ih]
    simp only [decide_eq_true_eq, Fin.ext_iff]
    split_ifs <;> omega

/-- Below a bound there are as many elements as in the blocks of the keys below it. -/
theorem countP_lt_eq_sum {n : Nat} (key : β → Fin n) (l : List β) {k : Nat} (hk : k ≤ n) :
    (l.countP fun a => (key a : Nat) < k) =
      (((List.finRange n).map fun j => l.countP fun a => key a = j).take k).sum := by
  induction k with
  | zero => simp
  | succ k ih =>
    rw [countP_lt_succ key l ⟨k, hk⟩, ih (Nat.le_of_succ_le hk),
      List.sum_take_succ _ k (by simpa using Nat.lt_of_succ_le hk)]
    simp

end Blocks

namespace Sparse

/-! ### Inverting a permutation -/

section Scatter

/-- Write each place of a list to the place that stands there. -/
def scatter (targets : List Nat) : List Nat :=
  targets.zipIdx.foldl (fun out t => out.set t.1 t.2) (List.replicate targets.length 0)

theorem getElem?_foldl_set_of_notMem {ts : List (Nat × Nat)} {k : Nat} (h : k ∉ ts.map (·.1))
    (out : List Nat) : (ts.foldl (fun out t => out.set t.1 t.2) out)[k]? = out[k]? := by
  induction ts generalizing out with
  | nil => rfl
  | cons t rest ih =>
    obtain ⟨hne, hrest⟩ := not_or.mp (mt List.mem_cons.mpr h)
    rw [List.foldl_cons, ih hrest, List.getElem?_set_ne (Ne.symm hne)]

theorem getElem?_foldl_set {ts : List (Nat × Nat)} (hnodup : (ts.map (·.1)).Nodup) {k value : Nat}
    (hmem : (k, value) ∈ ts) {out : List Nat} (hk : k < out.length) :
    (ts.foldl (fun out t => out.set t.1 t.2) out)[k]? = some value := by
  induction ts generalizing out with
  | nil => cases hmem
  | cons t rest ih =>
    obtain ⟨hfresh, hrest⟩ := List.nodup_cons.mp hnodup
    rw [List.foldl_cons]
    rcases List.mem_cons.mp hmem with rfl | hmem
    · rw [getElem?_foldl_set_of_notMem hfresh, List.getElem?_set_self hk]
    · exact ih hrest hmem (by rwa [List.length_set])

theorem length_scatter (targets : List Nat) : (scatter targets).length = targets.length := by
  have hfold : ∀ (ts : List (Nat × Nat)) (out : List Nat),
      (ts.foldl (fun out t => out.set t.1 t.2) out).length = out.length := by
    intro ts
    induction ts with
    | nil => exact fun _ => rfl
    | cons t rest ih => exact fun out => (ih _).trans List.length_set
  rw [scatter, hfold, List.length_replicate]

/-- Scattering inverts a permutation. -/
theorem getElem?_scatter {targets : List Nat}
    (hperm : targets.Perm (List.range targets.length)) {k place : Nat}
    (h : targets[place]? = some k) : (scatter targets)[k]? = some place := by
  have hfst : targets.zipIdx.map (·.1) = targets := List.zipIdx_map_fst 0 targets
  apply getElem?_foldl_set
  · rw [hfst]
    exact hperm.nodup_iff.mpr List.nodup_range
  · exact List.mem_zipIdx_iff_getElem?.mpr h
  · rw [List.length_replicate]
    exact List.mem_range.mp (hperm.mem_iff.mp (List.mem_of_getElem? h))

end Scatter

namespace Matrix

variable {α : Type} {m n : Nat} {M : Matrix α m n}

/-! ### Slots -/

/-- Column and slot to which the `k`-th cell of row `i` points. -/
def slotOf (M : Matrix α m n) (cell : Σ i : Fin m, Fin (M.rows.get i).size) : Fin n × Nat :=
  ((M.rows.get cell.1)[cell.2].column, (M.rows.get cell.1)[cell.2].slot)

/-- All slots of all columns. -/
def slots (M : Matrix α m n) : Set (Fin n × Nat) := {s | s.2 < (M.columns.get s.1).size}

theorem getElem?_rows (M : Matrix α m n) (cell : Σ i : Fin m, Fin (M.rows.get i).size) :
    (M.rows.get cell.1)[(cell.2 : Nat)]? = some (M.rows.get cell.1)[cell.2] := by simp

/-- Each slot of each column belongs to exactly one cell. -/
theorem IsLinked.bijOn_slotOf (hM : M.IsLinked) : Set.BijOn M.slotOf Set.univ M.slots := by
  refine ⟨fun cell _ => ?_, fun cell _ cell' _ heq => ?_, fun s hs => ?_⟩
  · obtain ⟨e, he, -⟩ := hM.exists_entry (mem_toList_of_getElem? (M.getElem?_rows cell))
    exact (Array.getElem?_eq_some_iff.mp he).1
  · obtain ⟨i, k⟩ := cell
    obtain ⟨i', k'⟩ := cell'
    obtain ⟨hcolumn, hslot⟩ := Prod.mk.inj heq
    obtain ⟨hi, hk⟩ := hM.eq_of_place (M.getElem?_rows ⟨i, k⟩) (M.getElem?_rows ⟨i', k'⟩) hcolumn
      hslot
    dsimp only at hi hk
    subst hi
    rw [Fin.ext hk]
  · obtain ⟨j, slot⟩ := s
    obtain ⟨c, hc, hcolumn, hslot⟩ := hM.exists_cell (Array.getElem?_eq_getElem hs)
    obtain ⟨k, hk⟩ := Array.getElem?_of_mem (Array.mem_toList_iff.mp hc)
    obtain ⟨hlt, rfl⟩ := Array.getElem?_eq_some_iff.mp hk
    exact ⟨⟨_, k, hlt⟩, trivial, Prod.ext hcolumn hslot⟩

/-! ### Positions in the order of the rows -/

/-- All stored positions with their values, row after row. -/
def listed (M : Matrix α m n) : List ((Fin m × Fin n) × α) :=
  ((List.finRange m).map fun i => (M.toRows.get i).map fun t => ((i, t.1), t.2)).flatten

/-- The stored positions, numbered from one. -/
def marks (M : Matrix α m n) : List ((Fin m × Fin n) × Nat) := (M.listed.map (·.1)).zipIdx 1

theorem mem_listed {place : Fin m × Fin n} {value : α} :
    (place, value) ∈ M.listed ↔ (place.2, value) ∈ M.toRows.get place.1 := by
  obtain ⟨i, j⟩ := place
  simp [listed]

theorem nodup_positions (hM : M.IsLinked) : (M.listed.map (·.1)).Nodup := by
  rw [listed, List.map_flatten, List.map_map, List.nodup_flatten]
  constructor
  · intro row hrow
    obtain ⟨i, -, rfl⟩ := List.mem_map.mp hrow
    rw [Function.comp_apply, List.map_map]
    refine List.Nodup.of_map (·.2) ?_
    rw [List.map_map]
    exact hM.nodup_columns_toRows i
  · rw [List.pairwise_map]
    refine (List.nodup_finRange m).imp fun hne place h h' => hne ?_
    simp only [Function.comp_apply, List.map_map, List.mem_map] at h h'
    obtain ⟨_, -, rfl⟩ := h
    obtain ⟨_, -, heq⟩ := h'
    exact (congrArg Prod.fst heq).symm

/-- A position stands where the pointer of its row and its place in the row say. -/
theorem getElem?_listed {i : Fin m} {k : Nat} {c : Cell α n} (hc : (M.rows.get i)[k]? = some c) :
    M.listed[M.toRows.compress.pointers.getD i 0 + k]? = some ((i, c.column), c.value) := by
  have hlengths : M.toRows.toList.map List.length =
      ((List.finRange m).map fun i => (M.toRows.get i).map fun t => ((i, t.1), t.2)).map
        List.length := by
    rw [toList_eq_map_get, List.map_map, List.map_map]
    exact List.map_congr_left fun i _ => by simp
  have hrow : ((List.finRange m).map fun i =>
      (M.toRows.get i).map fun t => ((i, t.1), t.2))[(i : Nat)]? =
        some ((M.toRows.get i).map fun t => ((i, t.1), t.2)) := by simp
  obtain ⟨hlt, hk⟩ := Array.getElem?_eq_some_iff.mp hc
  rw [Rows.compress, getD_runningTotals (by simp), Nat.zero_add, hlengths, listed,
    getElem?_flatten hrow (by simpa [get_toRows] using hlt)]
  simp [get_toRows, hc]

theorem values_compress (M : Matrix α m n) :
    M.toRows.compress.values.toList = M.listed.map (·.2) := by
  change M.toRows.toList.flatten.map (·.2) = M.listed.map (·.2)
  rw [toList_eq_map_get, listed, List.map_flatten, List.map_flatten, List.map_map, List.map_map]
  apply congrArg List.flatten
  apply List.map_congr_left
  intro i _
  rw [Function.comp_apply, Function.comp_apply, List.map_map]
  rfl

theorem mem_marks {place : Fin m × Fin n} {number : Nat} :
    (place, number) ∈ M.marks ↔ 1 ≤ number ∧ (M.listed.map (·.1))[number - 1]? = some place :=
  List.mem_zipIdx_iff_le_and_getElem?_sub

/-! ### Positions in the order of the columns -/

/-- The numbered positions by increasing column, those of one column by increasing row. -/
structure IsTransposition (M : Matrix α m n) (marked : List ((Fin m × Fin n) × Nat)) : Prop where
  perm : marked.Perm M.marks
  sorted : marked.Pairwise fun a b => toLex a.1.swap ≤ toLex b.1.swap

theorem exists_isTransposition (M : Matrix α m n) : ∃ marked, M.IsTransposition marked := by
  refine ⟨M.marks.mergeSort fun a b => decide (toLex a.1.swap ≤ toLex b.1.swap),
    List.mergeSort_perm _ _, ?_⟩
  refine (List.pairwise_mergeSort ?_ ?_ _).imp of_decide_eq_true
  · intro a b c hab hbc
    exact decide_eq_true ((of_decide_eq_true hab).trans (of_decide_eq_true hbc))
  · intro a b
    simpa using le_total (toLex a.1.swap) (toLex b.1.swap)

variable {marked : List ((Fin m × Fin n) × Nat)}

theorem IsTransposition.map_fst_perm (h : M.IsTransposition marked) :
    (marked.map (·.1)).Perm (M.listed.map (·.1)) := by
  have hperm := h.perm.map (·.1)
  rwa [marks, List.zipIdx_map_fst] at hperm

/-- Positions are distinct, so they come in strictly increasing order. -/
theorem IsTransposition.pairwise_lt (h : M.IsTransposition marked) (hM : M.IsLinked) :
    marked.Pairwise fun a b => toLex a.1.swap < toLex b.1.swap := by
  have hdistinct : marked.Pairwise fun a b => a.1 ≠ b.1 :=
    List.pairwise_map.mp (h.map_fst_perm.nodup_iff.mpr (nodup_positions hM))
  refine (h.sorted.and hdistinct).imp fun hab => lt_of_le_of_ne hab.1 fun heq => hab.2 ?_
  exact Prod.swap_injective (toLex.injective heq)

theorem mem_positions_iff (hM : M.IsLinked) {i : Fin m} {j : Fin n} :
    (i, j) ∈ M.listed.map (·.1) ↔ i ∈ M.owners j := by
  constructor
  · intro h
    obtain ⟨⟨_, v⟩, hv, rfl⟩ := List.mem_map.mp h
    rw [mem_listed, get_toRows] at hv
    obtain ⟨c, hc, heq⟩ := List.mem_map.mp hv
    obtain ⟨rfl, rfl⟩ := Prod.mk.inj heq
    obtain ⟨e, he, rfl⟩ := hM.exists_entry hc
    exact List.mem_map.mpr ⟨e, mem_toList_of_getElem? he, rfl⟩
  · intro h
    obtain ⟨e, he, rfl⟩ := List.mem_map.mp h
    obtain ⟨slot, hslot⟩ := Array.getElem?_of_mem (Array.mem_toList_iff.mp he)
    obtain ⟨c, hc, rfl, -⟩ := hM.exists_cell hslot
    refine List.mem_map.mpr ⟨((e.row, c.column), c.value), ?_, rfl⟩
    rw [mem_listed, get_toRows]
    exact List.mem_map.mpr ⟨c, hc, rfl⟩

/-- The block of a column lists its rows. -/
theorem IsTransposition.map_filter_eq_owners (h : M.IsTransposition marked) (hM : M.IsLinked)
    (j : Fin n) : (marked.filter fun a => a.1.2 = j).map (·.1.1) = M.owners j := by
  have hlt : ((marked.filter fun a => a.1.2 = j).map (·.1.1)).Pairwise (· < ·) := by
    rw [List.pairwise_map]
    refine ((h.pairwise_lt hM).filter _).imp_of_mem fun ha hb hab => ?_
    have hcolumn : ∀ a ∈ marked.filter fun a => a.1.2 = j, a.1.2 = j := fun a ha => by
      simpa using (List.mem_filter.mp ha).2
    rcases Prod.Lex.toLex_lt_toLex.mp hab with hcol | ⟨-, hrow⟩
    · exact absurd ((hcolumn _ ha).trans (hcolumn _ hb).symm) hcol.ne
    · exact hrow
  refine List.Perm.eq_of_pairwise (fun a b _ _ hab hba => absurd hba hab.asymm) hlt
    (hM.columns_increasing j) ?_
  rw [List.perm_ext_iff_of_nodup (hlt.imp ne_of_lt) (hM.owners_nodup j)]
  intro i
  rw [← mem_positions_iff hM, ← h.map_fst_perm.mem_iff]
  simp

/-- The position of a cell comes to stand at the slot of the cell in the block of its column, with
the number that the cell has in the order of the rows. -/
theorem IsTransposition.getElem?_slot (h : M.IsTransposition marked) (hM : M.IsLinked) {i : Fin m}
    {k : Nat} {c : Cell α n} (hc : (M.rows.get i)[k]? = some c) :
    marked[(marked.countP fun a => a.1.2 < c.column) + c.slot]? =
      some ((i, c.column), M.toRows.compress.pointers.getD i 0 + k + 1) := by
  have howner : (M.owners c.column)[c.slot]? = some i :=
    (hM.mem_places_iff i c.column c.slot).mp
      (List.mem_map.mpr ⟨c, mem_toList_of_getElem? hc, rfl⟩)
  rw [← h.map_filter_eq_owners hM, List.getElem?_map, Option.map_eq_some_iff] at howner
  obtain ⟨⟨⟨i', j⟩, number⟩, hmark, rfl⟩ := howner
  obtain ⟨hmem, hcolumn⟩ := List.mem_filter.mp (List.mem_of_getElem? hmark)
  obtain rfl : j = c.column := by simpa using hcolumn
  have hsorted : marked.Pairwise fun a b => a.1.2 ≤ b.1.2 :=
    h.sorted.imp fun hab => Prod.Lex.monotone_fst _ _ hab
  rw [getElem?_countP_add hsorted hmark]
  -- the position stands in one place only
  obtain ⟨hpos, hplace⟩ := mem_marks.mp (h.perm.mem_iff.mp hmem)
  have hlisted := congrArg (Option.map Prod.fst) (getElem?_listed hc)
  rw [← List.getElem?_map, Option.map_some] at hlisted
  obtain ⟨hlt, -⟩ := List.getElem?_eq_some_iff.mp hplace
  have hnumber := (List.getElem?_inj hlt (nodup_positions hM)).mp (hplace.trans hlisted.symm)
  rw [← hnumber, Nat.sub_add_cancel hpos]

/-! ### Places of cells among all entries -/

/-- For each entry of the rows where it stands in the columns, given the numbered entries in the
order of the columns. -/
def rowToColumn (marked : List ((Fin m × Fin n) × Nat)) : List Nat :=
  scatter (marked.map (·.2 - 1))

/-- Where each column starts among the entries of all columns. -/
def columnPointers (M : Matrix α m n) : List Nat :=
  runningTotals 0 (M.columns.toList.map Array.size)

theorem IsTransposition.countP_eq_size (h : M.IsTransposition marked) (hM : M.IsLinked)
    (j : Fin n) : (marked.countP fun a => a.1.2 = j) = (M.columns.get j).size := by
  have howners := congrArg List.length (h.map_filter_eq_owners hM j)
  rwa [List.length_map, ← List.countP_eq_length_filter, owners, List.length_map,
    Array.length_toList] at howners

theorem IsTransposition.countP_lt (h : M.IsTransposition marked) (hM : M.IsLinked) (j : Fin n) :
    (marked.countP fun a => a.1.2 < j) = M.columnPointers.getD j 0 := by
  have hsizes : M.columns.toList.map Array.size =
      (List.finRange n).map fun i => marked.countP fun a => a.1.2 = i := by
    rw [toList_eq_map_get, List.map_map]
    exact List.map_congr_left fun i _ => (h.countP_eq_size hM i).symm
  rw [columnPointers, getD_runningTotals (by simp), Nat.zero_add, hsizes]
  exact countP_lt_eq_sum (fun a => a.1.2) marked j.isLt.le

theorem IsTransposition.numbers_perm (h : M.IsTransposition marked) :
    (marked.map (·.2 - 1)).Perm (List.range M.listed.length) := by
  have hperm := h.perm.map (·.2 - 1)
  have hnumbers : M.marks.map (·.2 - 1) = List.range M.listed.length := by
    apply List.ext_getElem
    · simp [marks]
    · intro k hk hk'
      simp [marks]
  rwa [hnumbers] at hperm

theorem IsTransposition.length_rowToColumn (h : M.IsTransposition marked) :
    (rowToColumn marked).length = M.listed.length := by
  rw [rowToColumn, length_scatter, h.numbers_perm.length_eq, List.length_range]

/-- A place is written to where the number that stands there points. -/
theorem IsTransposition.getElem?_rowToColumn (h : M.IsTransposition marked) {s number : Nat}
    {place : Fin m × Fin n} (hs : marked[s]? = some (place, number)) :
    (rowToColumn marked)[number - 1]? = some s := by
  have hperm := h.numbers_perm
  have hlength : M.listed.length = (marked.map (·.2 - 1)).length := by
    rw [hperm.length_eq, List.length_range]
  rw [hlength] at hperm
  exact getElem?_scatter hperm (by rw [List.getElem?_map, hs]; rfl)

/-- What is written for a cell is the pointer of its column and its slot. -/
theorem IsTransposition.getElem?_rowToColumn_cell (h : M.IsTransposition marked) (hM : M.IsLinked)
    {i : Fin m} {k : Nat} {c : Cell α n} (hc : (M.rows.get i)[k]? = some c) :
    (rowToColumn marked)[M.toRows.compress.pointers.getD i 0 + k]? =
      some (M.columnPointers.getD c.column 0 + c.slot) := by
  rw [← h.countP_lt hM]
  exact h.getElem?_rowToColumn (h.getElem?_slot hM hc)

/-! ### Values of the columns -/

/-- The number of a position finds the value that the map has there. -/
theorem getElem?_values_of_mem_marks (hM : M.IsLinked) {place : Fin m × Fin n} {number : Nat}
    (h : (place, number) ∈ M.marks) : M.toRows.compress.values[number - 1]? = M.rowMap place := by
  obtain ⟨-, hplace⟩ := mem_marks.mp h
  rw [List.getElem?_map, Option.map_eq_some_iff] at hplace
  obtain ⟨⟨_, v⟩, hlisted, rfl⟩ := hplace
  have hmem := mem_listed.mp (List.mem_of_getElem? hlisted)
  rw [get_toRows] at hmem
  obtain ⟨c, hc, heq⟩ := List.mem_map.mp hmem
  obtain ⟨hcolumn, hvalue⟩ := Prod.mk.inj heq
  rw [hM.rowMap_eq_some_iff.mpr ⟨c, hc, hcolumn, hvalue⟩, ← Array.getElem?_toList, values_compress,
    List.getElem?_map, hlisted]
  rfl

/-- The block of a column holds its values, found by their numbers. -/
theorem IsTransposition.map_filter_eq_column (h : M.IsTransposition marked) (hM : M.IsLinked)
    (hmirrored : M.IsMirrored) (j : Fin n) :
    (marked.filter fun a => a.1.2 = j).map
        (fun a => (a.1.1, M.toRows.compress.values[a.2 - 1]?)) =
      (M.columns.get j).toList.map fun e => (e.row, some e.value) := by
  calc (marked.filter fun a => a.1.2 = j).map
        (fun a => (a.1.1, M.toRows.compress.values[a.2 - 1]?))
      = ((marked.filter fun a => a.1.2 = j).map (·.1.1)).map fun i => (i, M.rowMap (i, j)) := by
        rw [List.map_map]
        apply List.map_congr_left
        rintro ⟨⟨i, j'⟩, number⟩ ha
        obtain ⟨hmem, hcolumn⟩ := List.mem_filter.mp ha
        obtain rfl : j' = j := by simpa using hcolumn
        rw [getElem?_values_of_mem_marks hM (h.perm.mem_iff.mp hmem)]
        rfl
    _ = (M.owners j).map fun i => (i, M.rowMap (i, j)) := by rw [h.map_filter_eq_owners hM]
    _ = (M.columns.get j).toList.map fun e => (e.row, some e.value) := by
        rw [owners, List.map_map]
        apply List.map_congr_left
        intro e he
        have hvalue : M.columnMap (e.row, j) = some e.value :=
          hM.columnMap_eq_some_iff.mpr ⟨e, he, rfl, rfl⟩
        rw [hmirrored.columnMap_eq hM] at hvalue
        rw [Function.comp_apply, hvalue]

end Matrix

end Sparse

end CoefficientTightening
