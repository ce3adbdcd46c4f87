import CoefficientTightening.Proofs.GivenEntries
import CoefficientTightening.Proofs.StoredValues
import CoefficientTightening.Proofs.Transposition

/-! The check of a formulation on flat arrays. The values of the rows stand in one array and those
of the columns in another, and a third array tells for each entry of the rows where the columns
have it. It comes from sorting the numbered entries by column, by writing each place in the sorted
list to the place that the number names. The row of an entry is not stored; each row is named as
often as its pointers are apart. Counts are occurrences of the rows and columns of nonzeros. In a
linked matrix this comes to the check entry by entry, row by row and column by column. The entries
are sorted once: a change moves none of them. -/
namespace CoefficientTightening

namespace Sparse

/-! ### Arrays -/

section Arrays

/-- Occurrences of each number below a size. -/
def binCount (size : Nat) (numbers : List Nat) : List Nat :=
  (List.range size).map fun k => numbers.count k

/-- Equally long, and equal at every place. -/
def arrayEqual {α : Type} [BEq α] (xs ys : List α) : Bool :=
  xs.length == ys.length && (xs.zip ys).all fun t => t.1 == t.2

theorem arrayEqual_map {α β : Type} [BEq α] (l : List β) (f g : β → α) :
    arrayEqual (l.map f) (l.map g) = l.all fun x => f x == g x := by
  rw [arrayEqual, List.length_map, List.length_map, beq_self_eq_true, Bool.true_and, List.zip_map',
    List.all_map]
  rfl

end Arrays

namespace Matrix

variable {α : Type} {m n : Nat}

/-! ### The arrays of a matrix -/

/-- The values of the column storage, column after column. -/
def columnValues (M : Matrix α m n) : List α :=
  (M.columns.toList.map fun column => column.toList.map (·.value)).flatten

/-- The row of each entry, named as often as the pointers of the row are apart. -/
def rowNumbers (M : Matrix α m n) : List Nat :=
  lineOfIndices 0 (M.toRows.compress.pointers.map Int.ofNat)

variable [Scalar α]

/-- The values of the rows are those of the columns, taken in the order of the rows. -/
def flatAgrees (M : Matrix α m n) (marked : List ((Fin m × Fin n) × Nat)) : Bool :=
  arrayEqual M.toRows.compress.values.toList
    ((rowToColumn marked).filterMap fun k => M.columnValues[k]?)

/-- The numbers that stand where the values are not zero. -/
def numbersOfNonzeros (numbers : List Nat) (values : List α) : List Nat :=
  ((numbers.zip values).filter fun t => !(t.2 == 0)).map (·.1)

def flatRowNonzeros (M : Matrix α m n) : List Nat :=
  binCount m (numbersOfNonzeros M.rowNumbers M.toRows.compress.values.toList)

def flatColumnNonzeros (M : Matrix α m n) : List Nat :=
  binCount n (numbersOfNonzeros (M.toRows.compress.indices.map Fin.val)
    M.toRows.compress.values.toList)

variable {M : Matrix α m n} {marked : List ((Fin m × Fin n) × Nat)}

/-! ### Agreement -/

/-- All entries of the columns with their values, column after column. -/
def columnListed (M : Matrix α m n) : List ((Fin m × Fin n) × α) :=
  (List.finRange n).flatMap fun j => (M.columns.get j).toList.map fun e => ((e.row, j), e.value)

omit [Scalar α] in
theorem columnValues_eq (M : Matrix α m n) : M.columnValues = M.columnListed.map (·.2) := by
  rw [columnValues, columnListed, List.map_flatMap, toList_eq_map_get, List.map_map,
    List.flatMap_def]
  congr 1
  apply List.map_congr_left
  intro j _
  rw [Function.comp_apply, List.map_map]
  rfl

omit [Scalar α] in
theorem mem_columnListed {place : Fin m × Fin n} {value : α} (hM : M.IsLinked) :
    (place, value) ∈ M.columnListed ↔ M.columnMap place = some value := by
  obtain ⟨i, j⟩ := place
  rw [hM.columnMap_eq_some_iff, columnListed]
  simp

omit [Scalar α] in
theorem pairwise_columnListed (hM : M.IsLinked) :
    (M.columnListed.map (·.1)).Pairwise fun a b => toLex a.swap < toLex b.swap := by
  rw [columnListed, List.pairwise_map, List.pairwise_flatMap]
  constructor
  · intro j _
    rw [List.pairwise_map]
    refine (List.pairwise_map.mp (hM.columns_increasing j)).imp fun hlt => ?_
    exact Prod.Lex.toLex_lt_toLex.mpr (.inr ⟨rfl, hlt⟩)
  · refine (List.sortedLT_finRange n).pairwise.imp fun hlt => ?_
    simp only [List.mem_map]
    rintro _ ⟨e, -, rfl⟩ _ ⟨e', -, rfl⟩
    exact Prod.Lex.toLex_lt_toLex.mpr (.inl hlt)

omit [Scalar α] in
/-- The sorted entries stand in the same order as those of the columns. -/
theorem IsTransposition.map_fst_eq (h : M.IsTransposition marked) (hM : M.IsLinked) :
    marked.map (·.1) = M.columnListed.map (·.1) := by
  have hmarked : (marked.map (·.1)).Pairwise fun a b => toLex a.swap < toLex b.swap :=
    List.pairwise_map.mpr (h.pairwise_lt hM)
  have hcolumns := pairwise_columnListed hM
  refine List.Perm.eq_of_pairwise (fun a b _ _ hab hba => absurd hba hab.asymm) hmarked hcolumns ?_
  have hnodup : ∀ {l : List (Fin m × Fin n)},
      l.Pairwise (fun a b => toLex a.swap < toLex b.swap) → l.Nodup :=
    fun hl => hl.imp fun {a b} hlt (heq : a = b) => lt_irrefl _ (heq ▸ hlt)
  rw [List.perm_ext_iff_of_nodup (hnodup hmarked) (hnodup hcolumns)]
  rintro ⟨i, j⟩
  rw [h.map_fst_perm.mem_iff, mem_positions_iff hM, owners, columnListed]
  simp

omit [Scalar α] in
theorem map_fst_listed (M : Matrix α m n) : M.listed.map (·.1) =
    ((List.finRange m).map fun i => (M.places i).map fun t => (i, t.1)).flatten := by
  rw [listed, List.map_flatten, List.map_map]
  congr 1
  apply List.map_congr_left
  intro i _
  rw [Function.comp_apply, get_toRows, places, List.map_map, List.map_map, List.map_map]
  rfl

omit [Scalar α] in
/-- Only the positions are sorted, so their order serves every matrix of the same shape. -/
theorem SameShape.isTransposition {N : Matrix α m n} (hshape : M.SameShape N)
    (h : M.IsTransposition marked) : N.IsTransposition marked := by
  have hmarks : N.marks = M.marks := by
    unfold marks
    simp only [map_fst_listed, hshape.places_eq]
  exact ⟨hmarks ▸ h.perm, h.sorted⟩

omit [Scalar α] in
/-- Looking up the columns in the order of the rows finds, at each entry, what they hold there. -/
theorem IsTransposition.map_rowToColumn (h : M.IsTransposition marked) (hM : M.IsLinked) :
    ((rowToColumn marked).map fun k => M.columnValues[k]?) =
      M.listed.map fun t => M.columnMap t.1 := by
  apply List.ext_getElem?
  intro k
  rw [List.getElem?_map, List.getElem?_map]
  cases hk : M.listed[k]? with
  | none =>
    have hnone : (rowToColumn marked)[k]? = none := by
      rw [List.getElem?_eq_none_iff] at hk ⊢
      rwa [h.length_rowToColumn]
    rw [hnone]
    rfl
  | some t =>
    obtain ⟨place, value⟩ := t
    have hmark : (place, k + 1) ∈ marked := by
      rw [h.perm.mem_iff, mem_marks]
      exact ⟨Nat.succ_pos k, by simp [hk]⟩
    obtain ⟨s, hs⟩ := List.getElem?_of_mem hmark
    have hplace : (rowToColumn marked)[k]? = some s := h.getElem?_rowToColumn hs
    have hcolumns : (M.columnListed.map (·.1))[s]? = some place := by
      rw [← h.map_fst_eq hM, List.getElem?_map, hs]
      rfl
    rw [List.getElem?_map, Option.map_eq_some_iff] at hcolumns
    obtain ⟨⟨_, found⟩, hfound, rfl⟩ := hcolumns
    rw [hplace, Option.map_some, Option.map_some, columnValues_eq, List.getElem?_map, hfound,
      (mem_columnListed hM).mp (List.mem_of_getElem? hfound)]
    rfl

omit [Scalar α] in
theorem mem_listed_iff_mem_cells {i : Fin m} {j : Fin n} {value : α} :
    ((i, j), value) ∈ M.listed ↔
      ∃ c ∈ (M.rows.get i).toList, c.column = j ∧ c.value = value := by
  rw [mem_listed, get_toRows, List.mem_map]
  simp only [Prod.mk.injEq]

/-- Agreement of the arrays is agreement of each cell with its entry. -/
theorem IsTransposition.flatAgrees_eq (h : M.IsTransposition marked) (hM : M.IsLinked) :
    M.flatAgrees marked = M.agrees := by
  have hentry : ∀ i, ∀ c ∈ (M.rows.get i).toList, ∃ e,
      (M.columns.get c.column)[c.slot]? = some e ∧
        M.columnMap (i, c.column) = some e.value := by
    intro i c hc
    obtain ⟨e, he, hrow⟩ := hM.exists_entry hc
    exact ⟨e, he, hM.columnMap_eq_some_iff.mpr ⟨e, mem_toList_of_getElem? he, hrow, rfl⟩⟩
  have hgather : ((rowToColumn marked).filterMap fun k => M.columnValues[k]?) =
      M.listed.map fun t => (M.columnMap t.1).getD 0 := by
    have hmap := congrArg (List.filterMap id) (h.map_rowToColumn hM)
    rw [List.filterMap_map, List.filterMap_map] at hmap
    refine hmap.trans ?_
    rw [← List.filterMap_eq_map]
    apply List.filterMap_congr
    rintro ⟨⟨i, j⟩, value⟩ ht
    obtain ⟨c, hc, rfl, -⟩ := mem_listed_iff_mem_cells.mp ht
    obtain ⟨e, -, hvalue⟩ := hentry i c hc
    simp [hvalue]
  rw [flatAgrees, hgather, values_compress, arrayEqual_map, Bool.eq_iff_iff, List.all_eq_true,
    agrees, toList_eq_map_get, List.all_map, List.all_eq_true]
  simp only [Function.comp_apply, List.all_eq_true]
  constructor
  · intro hall i _ c hc
    obtain ⟨e, he, hvalue⟩ := hentry i c hc
    have hbeq := hall ((i, c.column), c.value) (mem_listed_iff_mem_cells.mpr ⟨c, hc, rfl, rfl⟩)
    rw [hvalue] at hbeq
    rw [he]
    exact hbeq
  · rintro hall ⟨⟨i, j⟩, value⟩ ht
    obtain ⟨c, hc, rfl, rfl⟩ := mem_listed_iff_mem_cells.mp ht
    obtain ⟨e, he, hvalue⟩ := hentry i c hc
    have hbeq := hall i (List.mem_finRange i) c hc
    rw [he] at hbeq
    rw [hvalue]
    exact hbeq

/-! ### Counts -/

omit [Scalar α] in
theorem rowNumbers_eq (M : Matrix α m n) : M.rowNumbers = M.listed.map (·.1.1.val) := by
  have hzip : ((List.finRange m).map fun i => (M.toRows.get i).length).zipIdx =
      (List.finRange m).map fun i => ((M.toRows.get i).length, i.val) :=
    List.ext_getElem (by simp) (by simp)
  rw [rowNumbers, Rows.compress, lineOfIndices_runningTotals, toList_eq_map_get, List.map_map]
  change (((List.finRange m).map fun i => (M.toRows.get i).length).zipIdx).flatMap _ = _
  rw [hzip, List.flatMap_map, listed, List.map_flatten, List.map_map, List.flatMap_def]
  congr 1
  apply List.map_congr_left
  intro i _
  rw [Function.comp_apply, List.map_map]
  exact (List.map_const ..).symm

omit [Scalar α] in
theorem indices_compress (M : Matrix α m n) :
    M.toRows.compress.indices = M.listed.map (·.1.2) := by
  change M.toRows.toList.flatten.map (·.1) = M.listed.map (·.1.2)
  rw [toList_eq_map_get, listed, List.map_flatten, List.map_flatten, List.map_map, List.map_map]
  apply congrArg List.flatten
  apply List.map_congr_left
  intro i _
  rw [Function.comp_apply, Function.comp_apply, List.map_map]
  rfl

theorem getD_binCount {size : Nat} (numbers : List Nat) (k : Fin size) :
    (binCount size numbers).getD k 0 = numbers.count k.val := by
  simp [binCount]

theorem count_numbersOfNonzeros {β : Type} (l : List β) (number : β → Nat) (value : β → α)
    (k : Nat) :
    (numbersOfNonzeros (l.map number) (l.map value)).count k =
      l.countP fun x => number x == k && !(value x == 0) := by
  rw [numbersOfNonzeros, List.zip_map', List.filter_map, List.map_map, List.count, List.countP_map,
    List.countP_filter]
  rfl

omit [Scalar α] in
theorem countP_listed (P : (Fin m × Fin n) × α → Bool) (M : Matrix α m n) :
    M.listed.countP P =
      ((List.finRange m).map fun i =>
        (M.rows.get i).toList.countP fun c => P ((i, c.column), c.value)).sum := by
  rw [listed, List.countP_flatten, List.map_map]
  congr 1
  apply List.map_congr_left
  intro i _
  rw [Function.comp_apply, List.countP_map, get_toRows, List.countP_map]
  rfl

theorem getD_flatRowNonzeros (M : Matrix α m n) (i : Fin m) :
    M.flatRowNonzeros.getD i 0 = M.rowNonzeros i := by
  rw [flatRowNonzeros, getD_binCount, rowNumbers_eq, values_compress, count_numbersOfNonzeros,
    countP_listed, ← Fin.sum_univ_def, Finset.sum_eq_single i]
  · simp [rowNonzeros]
  · intro i' _ hne
    have hval : i'.val ≠ i.val := fun heq => hne (Fin.ext heq)
    simp [hval]
  · simp

theorem getD_flatColumnNonzeros (M : Matrix α m n) (j : Fin n) :
    M.flatColumnNonzeros.getD j 0 = M.columnNonzeros.get j := by
  rw [flatColumnNonzeros, getD_binCount, indices_compress, List.map_map, values_compress,
    count_numbersOfNonzeros, countP_listed, get_columnNonzeros]
  congr 1
  apply List.map_congr_left
  intro i _
  apply List.countP_congr
  intro c _
  simp [isNonzeroIn, Fin.val_inj]

end Matrix

end Sparse

/-! ### The check -/

namespace Formulation

variable {α : Type} {m n : Nat} [Scalar α]

/-- The first violated condition, found on arrays. -/
def flatInconsistency? (p : Formulation α m n) (marked : List ((Fin m × Fin n) × Nat)) :
    Option (Inconsistency α) :=
  let rowCounts := p.matrix.flatRowNonzeros
  let columnCounts := p.matrix.flatColumnNonzeros
  if p.matrix.flatAgrees marked then
    ((List.finRange m).findSome? fun i =>
      if (p.rows.get i).nonzeros = .ofNat (rowCounts.getD i 0) then none
      else some (.rowCount i (p.rows.get i).nonzeros.toInt (rowCounts.getD i 0))) <|>
    ((List.finRange n).findSome? fun j =>
      if (p.columns.get j).nonzeros = .ofNat (columnCounts.getD j 0) then none
      else some (.columnCount j (p.columns.get j).nonzeros.toInt (columnCounts.getD j 0))) <|>
    p.crossedColumn?
  else some .storagesDiffer

/-- However the entries are sorted, the arrays show the same as the entries. -/
theorem flatInconsistency?_eq {p : Formulation α m n} (hlinked : p.matrix.IsLinked)
    {marked : List ((Fin m × Fin n) × Nat)} (h : p.matrix.IsTransposition marked) :
    p.flatInconsistency? marked = p.inconsistency? := by
  unfold flatInconsistency? inconsistency? wrongRow? wrongColumn?
  simp only [h.flatAgrees_eq hlinked, Sparse.Matrix.getD_flatRowNonzeros,
    Sparse.Matrix.getD_flatColumnNonzeros]

end Formulation

end CoefficientTightening
