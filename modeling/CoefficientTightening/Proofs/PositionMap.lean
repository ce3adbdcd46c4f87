import CoefficientTightening.Proofs.ConsistentPass
import Mathlib.Algebra.BigOperators.Group.List.Lemmas

/-! A matrix as one finite map from stored positions to values. The row storage, the column storage
and the compressed copy of a linked matrix denote the same map as long as each cell and its entry
hold the very same value, a NaN included. Building makes it so, and every write keeps it: a write
that succeeds changes the map at one position, and one that fails does so before anything is
written. A pass consists of such writes. No position ever moves. -/
namespace CoefficientTightening

variable {α : Type} {m n : Nat}

section LookUp

variable {κ β : Type} [DecidableEq κ]

theorem lookup_eq_some_iff_mem {l : List (κ × β)} (h : (l.map (·.1)).Nodup) {key : κ} {value : β} :
    l.lookup key = some value ↔ (key, value) ∈ l := by
  induction l with
  | nil => simp
  | cons t rest ih =>
    obtain ⟨hfresh, hrest⟩ := List.nodup_cons.mp h
    rw [List.lookup_cons, List.mem_cons, Prod.ext_iff]
    by_cases heq : key = t.1
    · have hnot : (key, value) ∉ rest := fun hmem => hfresh (List.mem_map.mpr ⟨_, hmem, heq⟩)
      rw [beq_iff_eq.mpr heq]
      simp [heq, eq_comm, heq ▸ hnot]
    · rw [beq_eq_false_iff_ne.mpr heq]
      simp [heq, ih hrest]

end LookUp

section Indices

/-- The index means this position, counted from the front or, if it is negative, from the end. -/
def IsIndexOf {size : Nat} (index : Int) (position : Fin size) : Prop :=
  fitsWord index = true ∧ (index = (position : Nat) ∨ index + size = (position : Nat))

theorem resolve?_eq_some_iff {size : Nat} {index : Int} {i : Fin size} :
    resolve? size index = some i ↔ index = (i : Nat) ∨ index + size = (i : Nat) := by
  have hlt := i.isLt
  unfold resolve?
  by_cases h : index < 0 <;> simp [h, Fin.ext_iff] <;> omega

theorem listIndex_eq_ok_iff {size : Nat} {index : Int} {i : Fin size} :
    listIndex size index = .ok i ↔ IsIndexOf index i := by
  rw [IsIndexOf, ← resolve?_eq_some_iff, listIndex, listPosition]
  split <;> cases resolve? size index <;> simp_all

theorem axisIndex_eq_ok_iff {size : Nat} {index : Int} {i : Fin size} :
    axisIndex size index = .ok i ↔ IsIndexOf index i := by
  rw [IsIndexOf, ← resolve?_eq_some_iff, axisIndex]
  split <;> cases resolve? size index <;> simp_all

end Indices

namespace Sparse

/-- A finite map from positions to values. -/
abbrev PositionMap (α : Type) (m n : Nat) := Fin m × Fin n → Option α

/-! ### The three readings -/

def Rows.toMap (rows : Rows α m n) : PositionMap α m n :=
  fun place => (rows.get place.1).lookup place.2

namespace Compressed

/-- What stands between two neighbouring pointers. -/
def row (c : Compressed α n) (i : Nat) : List (Fin n × α) :=
  ((c.indices.zip c.values.toList).take (c.pointers.getD (i + 1) 0)).drop (c.pointers.getD i 0)

def toRows (c : Compressed α n) (m : Nat) : Rows α m n := .ofFn fun i => c.row i

end Compressed

theorem getD_runningTotals {lengths : List Nat} {i : Nat} (hi : i ≤ lengths.length) (total : Nat) :
    (runningTotals total lengths).getD i 0 = total + (lengths.take i).sum := by
  induction lengths generalizing total i with
  | nil =>
    obtain rfl : i = 0 := by simpa using hi
    rfl
  | cons length rest ih =>
    cases i with
    | zero => rfl
    | succ i =>
      rw [runningTotals, List.getD_cons_succ, ih (by simpa using hi), List.take_succ_cons,
        List.sum_cons, Nat.add_assoc]

/-- Compressing loses nothing. -/
theorem toRows_compress (rows : Rows α m n) : rows.compress.toRows m = rows := by
  apply vector_ext
  intro i
  have hzip : rows.compress.indices.zip rows.compress.values.toList = rows.toList.flatten := by
    rw [Rows.compress, List.zip_map', List.map_id']
  have hpointer : ∀ k ≤ m, rows.compress.pointers.getD k 0 =
      ((rows.toList.map List.length).take k).sum := fun k hk => by
    rw [Rows.compress, getD_runningTotals (by simpa using hk), Nat.zero_add]
  rw [Compressed.toRows, get_eq_getElem, Vector.getElem_ofFn, Compressed.row, hzip,
    hpointer i i.isLt.le, hpointer (i + 1) i.isLt,
    List.drop_take_succ_flatten_eq_getElem _ _ (by simp), Vector.getElem_toList]
  rfl

namespace Matrix

def rowMap (M : Matrix α m n) : PositionMap α m n := M.toRows.toMap

def columnMap (M : Matrix α m n) : PositionMap α m n :=
  fun place => ((M.columns.get place.2).toList.map fun e => (e.row, e.value)).lookup place.1

/-- Every cell and its entry hold the very same value. -/
def IsMirrored (M : Matrix α m n) : Prop :=
  ∀ i, ∀ c ∈ (M.rows.get i).toList, (M.columns.get c.column)[c.slot]? = some ⟨i, c.value⟩

variable {M : Matrix α m n} {i : Fin m} {j : Fin n} {k : Nat} {c : Cell α n} {value : α}

theorem IsLinked.nodup_columns_toRows (hM : M.IsLinked) (i : Fin m) :
    ((M.toRows.get i).map (·.1)).Nodup := by
  rw [get_toRows, List.map_map]
  exact hM.columns_nodup i

theorem IsLinked.rowMap_eq_some_iff (hM : M.IsLinked) :
    M.rowMap (i, j) = some value ↔ ∃ c ∈ (M.rows.get i).toList, c.column = j ∧ c.value = value := by
  rw [rowMap, Rows.toMap, lookup_eq_some_iff_mem (hM.nodup_columns_toRows i), get_toRows,
    List.mem_map]
  simp only [Prod.mk.injEq]

theorem IsLinked.columnMap_eq_some_iff (hM : M.IsLinked) :
    M.columnMap (i, j) = some value ↔
      ∃ e ∈ (M.columns.get j).toList, e.row = i ∧ e.value = value := by
  have hnodup : (((M.columns.get j).toList.map fun e => (e.row, e.value)).map (·.1)).Nodup := by
    rw [List.map_map]
    exact hM.owners_nodup j
  rw [columnMap, lookup_eq_some_iff_mem hnodup, List.mem_map]
  simp only [Prod.mk.injEq]

theorem IsMirrored.columnMap_eq (h : M.IsMirrored) (hM : M.IsLinked) : M.columnMap = M.rowMap := by
  funext ⟨i, j⟩
  apply Option.ext
  intro value
  rw [hM.columnMap_eq_some_iff, hM.rowMap_eq_some_iff]
  constructor
  · rintro ⟨e, he, rfl, rfl⟩
    obtain ⟨slot, hslot⟩ := Array.getElem?_of_mem (Array.mem_toList_iff.mp he)
    obtain ⟨c, hc, rfl, rfl⟩ := hM.exists_cell hslot
    have hentry := h e.row c hc
    rw [hslot] at hentry
    exact ⟨c, hc, rfl, (congrArg ColumnEntry.value (Option.some.inj hentry)).symm⟩
  · rintro ⟨c, hc, rfl, rfl⟩
    exact ⟨_, mem_toList_of_getElem? (h i c hc), rfl, rfl⟩

/-! ### Building -/

theorem isMirrored_empty : (empty : Matrix α m n).IsMirrored := by
  intro i c hc
  simp [empty] at hc

theorem IsMirrored.append (h : M.IsMirrored) (i : Fin m) (j : Fin n) (value : α) :
    (M.append i j value).IsMirrored := by
  intro i' c hc
  have hcases : c ∈ (M.rows.get i').toList ∨ i = i' ∧ c = ⟨j, (M.columns.get j).size, value⟩ := by
    rw [Matrix.append, get_modifyAt] at hc
    split at hc
    · next heq => simpa [heq] using hc
    · exact .inl hc
  rw [Matrix.append, get_modifyAt]
  rcases hcases with hold | ⟨rfl, rfl⟩
  · have hentry := h i' c hold
    split
    · rw [Array.getElem?_push, if_neg, hentry]
      exact (Array.getElem?_eq_some_iff.mp hentry).1.ne
    · exact hentry
  · rw [if_pos rfl, Array.getElem?_push_size]

theorem IsMirrored.appendRow (h : M.IsMirrored) (i : Fin m) (row : List (Fin n × α)) :
    (M.appendRow i row).IsMirrored := by
  induction row generalizing M with
  | nil => exact h
  | cons t rest ih => exact ih (h.append i t.1 t.2)

theorem isMirrored_ofRows (rows : Rows α m n) : (ofRows rows).IsMirrored := by
  have hrun : ∀ (order : List (Fin m)) (M : Matrix α m n), M.IsMirrored →
      (order.foldl (fun M i => M.appendRow i (rows.get i)) M).IsMirrored := by
    intro order
    induction order with
    | nil => exact fun _ hM => hM
    | cons i rest ih => exact fun _ hM => ih _ (hM.appendRow i _)
  exact hrun _ _ isMirrored_empty

/-! ### Writing -/

theorem IsMirrored.write (h : M.IsMirrored) (hM : M.IsLinked) (i : Fin m) (k : Nat) (value : α) :
    (M.write i k value).IsMirrored := by
  cases hc : (M.rows.get i)[k]? with
  | none => simpa only [Matrix.write, hc] using h
  | some c =>
    intro i' c' hmem
    obtain ⟨k', hc'⟩ := Array.getElem?_of_mem (Array.mem_toList_iff.mp hmem)
    rw [getElem?_rows_write hc] at hc'
    split at hc'
    · next heq =>
      obtain ⟨rfl, rfl⟩ := heq
      obtain rfl := Option.some.inj hc'
      rw [hM.getElem?_columns_write hc hc, if_pos ⟨rfl, rfl⟩, h i c (mem_toList_of_getElem? hc),
        Option.map_some]
    · next hne =>
      rw [hM.getElem?_columns_write hc hc', if_neg hne]
      exact h i' c' (mem_toList_of_getElem? hc')

theorem IsLinked.mem_rows_write_iff (hM : M.IsLinked) (hc : (M.rows.get i)[k]? = some c)
    {i' : Fin m} {c' : Cell α n} :
    c' ∈ ((M.write i k value).rows.get i').toList ↔ i = i' ∧ c' = { c with value } ∨
      ¬ (i = i' ∧ c.column = c'.column) ∧ c' ∈ (M.rows.get i').toList := by
  constructor
  · intro hmem
    obtain ⟨k', hc'⟩ := Array.getElem?_of_mem (Array.mem_toList_iff.mp hmem)
    rw [getElem?_rows_write hc] at hc'
    split at hc'
    · next heq => exact .inl ⟨heq.1, (Option.some.inj hc').symm⟩
    · next hne =>
      refine .inr ⟨?_, mem_toList_of_getElem? hc'⟩
      rintro ⟨rfl, hcolumn⟩
      exact hne ⟨rfl, eq_of_getElem?_of_nodup (hM.columns_nodup i) hc hc' hcolumn⟩
  · rintro (⟨rfl, rfl⟩ | ⟨hne, hmem⟩)
    · apply mem_toList_of_getElem? (k := k)
      rw [getElem?_rows_write hc, if_pos ⟨rfl, rfl⟩]
    · obtain ⟨k', hc'⟩ := Array.getElem?_of_mem (Array.mem_toList_iff.mp hmem)
      apply mem_toList_of_getElem? (k := k')
      rw [getElem?_rows_write hc, if_neg, hc']
      rintro ⟨rfl, rfl⟩
      obtain rfl := Option.some.inj (hc.symm.trans hc')
      exact hne ⟨rfl, rfl⟩

/-- A write changes the map at the position of its cell and nowhere else. -/
theorem IsLinked.rowMap_write (hM : M.IsLinked) (hc : (M.rows.get i)[k]? = some c) (value : α) :
    (M.write i k value).rowMap = Function.update M.rowMap (i, c.column) (some value) := by
  have hwrite : (M.write i k value).IsLinked := (M.sameShape_write i k value).isLinked hM
  funext ⟨i', j⟩
  apply Option.ext
  intro v
  rw [hwrite.rowMap_eq_some_iff, Function.update_apply]
  split
  · next hplace =>
    obtain ⟨rfl, rfl⟩ := Prod.mk.inj hplace
    rw [Option.some_inj]
    constructor
    · rintro ⟨c', hmem, hcolumn, rfl⟩
      rcases (hM.mem_rows_write_iff hc).mp hmem with ⟨-, rfl⟩ | ⟨hne, -⟩
      · rfl
      · exact absurd ⟨rfl, hcolumn.symm⟩ hne
    · rintro rfl
      exact ⟨_, (hM.mem_rows_write_iff hc).mpr (.inl ⟨rfl, rfl⟩), rfl, rfl⟩
  · next hplace =>
    rw [hM.rowMap_eq_some_iff]
    constructor
    · rintro ⟨c', hmem, rfl, rfl⟩
      rcases (hM.mem_rows_write_iff hc).mp hmem with ⟨rfl, rfl⟩ | ⟨-, hold⟩
      · exact absurd rfl hplace
      · exact ⟨c', hold, rfl, rfl⟩
    · rintro ⟨c', hmem, rfl, rfl⟩
      refine ⟨c', (hM.mem_rows_write_iff hc).mpr (.inr ⟨?_, hmem⟩), rfl, rfl⟩
      rintro ⟨rfl, hcolumn⟩
      exact hplace (by rw [hcolumn])

/-! ### Step by step -/

/-- A write as a sequence of look-ups and writes: the cell is found, the row storage is written, the
slot is looked up in the column, and the column storage is written. What was written before a step
fails stays written. -/
def writeSteps (M : Matrix α m n) (i k : Int) (value : α) : Matrix α m n × Option OutOfRange :=
  match listIndex m i with
  | .error e => (M, some e)
  | .ok i =>
    match axisIndex (M.rows.get i).size k with
    | .error e => (M, some e)
    | .ok k =>
      let c := (M.rows.get i)[k]
      let N := M.writeRow i k value
      let size := (M.columns.get c.column).size
      match resolve? size c.slot with
      | none => (N, some (.axis c.slot size))
      | some slot => (N.writeColumn c.column slot value, none)

/-- Nothing fails between the two writes. -/
theorem IsLinked.writeSteps_eq (hM : M.IsLinked) (i k : Int) (value : α) :
    M.writeSteps i k value =
      match M.write? i k value with
      | .ok N => (N, none)
      | .error e => (M, some e) := by
  simp only [writeSteps, write?, locate, bind, Except.bind, pure, Except.pure]
  cases listIndex m i with
  | error e => rfl
  | ok i =>
    dsimp only
    cases axisIndex (M.rows.get i).size k with
    | error e => rfl
    | ok k =>
      have hc : (M.rows.get i)[(k : Nat)]? = some (M.rows.get i)[k] := by simp
      obtain ⟨e, he, -⟩ := hM.exists_entry (mem_toList_of_getElem? hc)
      have hslot := resolve?_natCast ⟨_, (Array.getElem?_eq_some_iff.mp he).1⟩
      dsimp only at hslot ⊢
      rw [hslot, Matrix.write, hc]

/-- Where the indices mean a stored position, it is written; elsewhere nothing is. -/
theorem write?_cases (M : Matrix α m n) (i k : Int) (value : α) :
    (∃ (i' : Fin m) (k' : Fin (M.rows.get i').size), IsIndexOf i i' ∧ IsIndexOf k k' ∧
      M.write? i k value = .ok (M.write i' k' value)) ∨
    ∃ e, M.write? i k value = .error e ∧
      ∀ (i' : Fin m) (k' : Fin (M.rows.get i').size), ¬ (IsIndexOf i i' ∧ IsIndexOf k k') := by
  simp only [write?, locate, bind, Except.bind, pure, Except.pure]
  cases hi : listIndex m i with
  | error e =>
    refine .inr ⟨e, rfl, fun i' k' h => ?_⟩
    rw [listIndex_eq_ok_iff.mpr h.1] at hi
    cases hi
  | ok i' =>
    dsimp only
    cases hk : axisIndex (M.rows.get i').size k with
    | error e =>
      refine .inr ⟨e, rfl, fun i₁ k₁ h => ?_⟩
      rw [listIndex_eq_ok_iff.mpr h.1] at hi
      obtain rfl := Except.ok.inj hi
      rw [axisIndex_eq_ok_iff.mpr h.2] at hk
      cases hk
    | ok k' => exact .inl ⟨i', k', listIndex_eq_ok_iff.mp hi, axisIndex_eq_ok_iff.mp hk, rfl⟩

/-! ### Denotation -/

/-- All forms of a matrix denote this map. -/
structure Denotes (M : Matrix α m n) (f : PositionMap α m n) : Prop where
  stored : ∀ i, ∀ c ∈ (M.rows.get i).toList, f (i, c.column) = some c.value
  mirrored : M.IsMirrored
  rows : M.rowMap = f
  columns : M.columnMap = f
  compressed : (M.toRows.compress.toRows m).toMap = f

theorem IsMirrored.denotes (h : M.IsMirrored) (hM : M.IsLinked) : M.Denotes M.rowMap where
  stored i c hc := hM.rowMap_eq_some_iff.mpr ⟨c, hc, rfl, rfl⟩
  mirrored := h
  rows := rfl
  columns := h.columnMap_eq hM
  compressed := by
    rw [toRows_compress]
    rfl

end Matrix

end Sparse

/-! ### Writes and passes in any order -/

/-- What is done to a formulation: one coefficient is written, or a pass is made. -/
inductive Call (α : Type) where
  | write (i k : Int) (value : α)
  | pass

namespace Formulation

open Sparse.Matrix (IsLinked IsMirrored)

variable [Scalar α]

/-- A write that fails leaves what it has done. -/
def perform (p : Formulation α m n) : Call α → Formulation α m n
  | .write i k value => { p with matrix := (p.matrix.writeSteps i k value).1 }
  | .pass => p.tighten

theorem isMirrored_foldl_commit (ts : List (Tightening α m n)) {p : Formulation α m n}
    (hlinked : p.matrix.IsLinked) (h : p.matrix.IsMirrored) :
    (ts.foldl commit p).matrix.IsMirrored := by
  induction ts generalizing p with
  | nil => exact h
  | cons t rest ih =>
    apply ih ((p.sameShape_commit t).isLinked hlinked)
    rw [matrix_commit]
    exact h.write hlinked _ _ _

theorem perform_write (p : Formulation α m n) (hlinked : p.matrix.IsLinked) (i k : Int)
    (value : α) :
    p.perform (.write i k value) = match p.matrix.write? i k value with
      | .ok N => { p with matrix := N }
      | .error _ => p := by
  rw [perform, hlinked.writeSteps_eq]
  cases p.matrix.write? i k value <;> rfl

/-- One call keeps the storages together and moves nothing. -/
theorem perform_keeps {p : Formulation α m n} (hlinked : p.matrix.IsLinked)
    (h : p.matrix.IsMirrored) (call : Call α) :
    (p.perform call).matrix.IsMirrored ∧ p.matrix.SameShape (p.perform call).matrix := by
  cases call with
  | pass =>
    refine ⟨?_, p.sameShape_tighten⟩
    rw [perform, ← foldl_commit_tightenings]
    exact isMirrored_foldl_commit _ hlinked h
  | write i k value =>
    rw [perform_write p hlinked]
    rcases p.matrix.write?_cases i k value with ⟨i', k', -, -, hwrite⟩ | ⟨e, hwrite, -⟩
    · rw [hwrite]
      exact ⟨h.write hlinked i' k' value, p.matrix.sameShape_write i' k' value⟩
    · rw [hwrite]
      exact ⟨h, .refl _⟩

theorem foldl_perform_keeps (calls : List (Call α)) {p : Formulation α m n}
    (hlinked : p.matrix.IsLinked) (h : p.matrix.IsMirrored) :
    (calls.foldl perform p).matrix.IsMirrored ∧
      p.matrix.SameShape (calls.foldl perform p).matrix := by
  induction calls generalizing p with
  | nil => exact ⟨h, .refl _⟩
  | cons call rest ih =>
    obtain ⟨hmirrored, hshape⟩ := perform_keeps hlinked h call
    obtain ⟨hrest, hrestShape⟩ := ih (hshape.isLinked hlinked) hmirrored
    exact ⟨hrest, hshape.trans hrestShape⟩

/-- Whatever is written, and however many passes are made, a matrix stays one finite map on the
positions that it was built with; a write changes the map at the one position that its indices
mean, or it fails, changes nothing, and there is no such position. -/
theorem calls_refine_map (p : Formulation α m n) (rows : Sparse.Rows α m n)
    (calls : List (Call α)) :
    let M := Sparse.Matrix.ofRows rows.canonical
    let q := calls.foldl perform { p with matrix := M }
    M.SameShape q.matrix ∧ ∃ f, q.matrix.Denotes f ∧ ∀ (i k : Int) (value : α),
      (∃ (i' : Fin m) (k' : Fin (q.matrix.rows.get i').size) (N : Sparse.Matrix α m n),
        IsIndexOf i i' ∧ IsIndexOf k k' ∧ q.matrix.write? i k value = .ok N ∧
        q.matrix.writeSteps i k value = (N, none) ∧
        q.perform (.write i k value) = { q with matrix := N } ∧
        N.Denotes (Function.update f (i', (q.matrix.rows.get i')[k'].column) (some value))) ∨
      ∃ e, (∀ (i' : Fin m) (k' : Fin (q.matrix.rows.get i').size),
          ¬ (IsIndexOf i i' ∧ IsIndexOf k k')) ∧
        q.matrix.write? i k value = .error e ∧
        q.matrix.writeSteps i k value = (q.matrix, some e) ∧
        q.perform (.write i k value) = q := by
  intro M q
  have hM : M.IsLinked := Sparse.Matrix.isLinked_ofRows_canonical rows
  obtain ⟨hmirrored, hshape⟩ := foldl_perform_keeps calls (p := { p with matrix := M }) hM
    (Sparse.Matrix.isMirrored_ofRows _)
  have hlinked : q.matrix.IsLinked := hshape.isLinked hM
  refine ⟨hshape, q.matrix.rowMap, hmirrored.denotes hlinked, fun i k value => ?_⟩
  rw [perform_write q hlinked, hlinked.writeSteps_eq]
  rcases q.matrix.write?_cases i k value with ⟨i', k', hi, hk, hwrite⟩ | ⟨e, hwrite, hnone⟩
  · left
    have hc : (q.matrix.rows.get i')[(k' : Nat)]? = some (q.matrix.rows.get i')[k'] := by simp
    have hN := (hmirrored.write hlinked i' k' value).denotes
      ((q.matrix.sameShape_write i' k' value).isLinked hlinked)
    rw [hlinked.rowMap_write hc] at hN
    rw [hwrite]
    exact ⟨i', k', _, hi, hk, rfl, rfl, rfl, hN⟩
  · right
    rw [hwrite]
    exact ⟨e, hnone, rfl, rfl, rfl⟩

end Formulation

end CoefficientTightening
