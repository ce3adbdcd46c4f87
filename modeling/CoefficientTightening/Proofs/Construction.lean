import CoefficientTightening.Proofs.GivenEntries
import CoefficientTightening.Proofs.Transposition

/-! What a matrix is built into. Each row stores, by increasing column, the positions for which
something is given, each with the sum of its values from left to right; each column stores the same
by increasing row, and the slots are those that the transposition of the positions gives. A matrix
that is read back from its own compressed copy is the same matrix. -/
namespace CoefficientTightening.Sparse

variable {α : Type} {m n : Nat}

/-! ### Sums of a row -/

section Sums

theorem filter_insertByColumn (t : Fin n × α) (row : List (Fin n × α)) (j : Fin n) :
    (insertByColumn t row).filter (fun u => u.1 = j) = (t :: row).filter fun u => u.1 = j := by
  induction row with
  | nil => rfl
  | cons s rest ih =>
    rw [insertByColumn]
    split
    · rfl
    · next hlt =>
      -- only entries of smaller columns are passed
      rw [List.filter_cons, ih, List.filter_cons, List.filter_cons, List.filter_cons]
      by_cases hs : s.1 = j
      · have ht : t.1 ≠ j := fun heq => hlt (heq.trans hs.symm).le
        simp [hs, ht]
      · simp [hs]

/-- Sorting keeps the order within a column. -/
theorem valuesIn_sortByColumn (row : List (Fin n × α)) (j : Fin n) :
    valuesIn (sortByColumn row) j = valuesIn row j := by
  have hfilter : (sortByColumn row).filter (fun t => t.1 = j) = row.filter fun t => t.1 = j := by
    induction row with
    | nil => rfl
    | cons t rest ih =>
      have hstep : sortByColumn (t :: rest) = insertByColumn t (sortByColumn rest) := rfl
      rw [hstep, filter_insertByColumn, List.filter_cons, ih, List.filter_cons]
  rw [valuesIn, hfilter, valuesIn]

theorem valuesIn_cons (t : Fin n × α) (row : List (Fin n × α)) (j : Fin n) :
    valuesIn (t :: row) j = if t.1 = j then t.2 :: valuesIn row j else valuesIn row j := by
  rw [valuesIn, List.filter_cons]
  by_cases h : t.1 = j <;> simp [h, valuesIn]

theorem valuesIn_eq_nil {row : List (Fin n × α)} {j : Fin n} (h : ∀ t ∈ row, t.1 ≠ j) :
    valuesIn row j = [] := by
  rw [valuesIn, List.filter_eq_nil_iff.mpr, List.map_nil]
  exact fun t ht => by simpa using h t ht

theorem lookup_cons_eq_if (t : Fin n × α) (row : List (Fin n × α)) (j : Fin n) :
    (t :: row).lookup j = if t.1 = j then some t.2 else row.lookup j := by
  rw [List.lookup_cons]
  by_cases h : t.1 = j
  · simp [h]
  · rw [if_neg h, beq_eq_false_iff_ne.mpr (Ne.symm h)]

variable [Scalar α]

/-- The sum from left to right, if there is anything to add up. -/
def sumOf? : List α → Option α
  | [] => none
  | value :: rest => some (rest.foldl (· + ·) value)

theorem lookup_sumFrom {row : List (Fin n × α)} {column : Fin n} (value : α)
    (hle : ∀ t ∈ row, column ≤ t.1) (h : row.Pairwise fun u v => u.1 ≤ v.1) (j : Fin n) :
    (sumFrom column value row).lookup j = sumOf? (valuesIn ((column, value) :: row) j) := by
  induction row generalizing column value with
  | nil =>
    rw [sumFrom, lookup_cons_eq_if, valuesIn_cons]
    split <;> rfl
  | cons s rest ih =>
    obtain ⟨k, v⟩ := s
    obtain ⟨hhead, hrest⟩ := List.pairwise_cons.mp h
    rw [sumFrom]
    split
    · next heq =>
      subst heq
      rw [ih _ hhead hrest]
      simp only [valuesIn_cons]
      split <;> rfl
    · next hne =>
      have hlt : column < k := lt_of_le_of_ne (hle (k, v) List.mem_cons_self) (Ne.symm hne)
      rw [lookup_cons_eq_if, ih v hhead hrest, valuesIn_cons (column, value)]
      split
      · next heq =>
        have hlater : valuesIn ((k, v) :: rest) j = [] := valuesIn_eq_nil fun t ht => by
          rcases List.mem_cons.mp ht with rfl | hmem
          · exact heq ▸ hlt.ne'
          · exact heq ▸ (hlt.trans_le (hhead t hmem)).ne'
        rw [hlater]
        rfl
      · rfl

/-- A row in canonical form has, in each column, the sum of the given values. -/
theorem lookup_canonicalRow (row : List (Fin n × α)) (j : Fin n) :
    (canonicalRow row).lookup j = sumOf? (valuesIn row j) := by
  have hsorted := pairwise_sortByColumn row
  rw [← valuesIn_sortByColumn, canonicalRow]
  cases hsort : sortByColumn row with
  | nil => rfl
  | cons t rest =>
    rw [hsort] at hsorted
    obtain ⟨hhead, hrest⟩ := List.pairwise_cons.mp hsorted
    exact lookup_sumFrom t.2 hhead hrest j

omit [Scalar α] in
/-- A row by increasing column is determined by what it has in each column. -/
theorem HasIncreasingColumns.ext {row row' : List (Fin n × α)} (h : HasIncreasingColumns row)
    (h' : HasIncreasingColumns row') (heq : ∀ j, row.lookup j = row'.lookup j) : row = row' := by
  have hnodup : (row.map (·.1)).Nodup := h.imp ne_of_lt
  have hnodup' : (row'.map (·.1)).Nodup := h'.imp ne_of_lt
  have hperm : row.Perm row' := by
    rw [List.perm_ext_iff_of_nodup hnodup.of_map hnodup'.of_map]
    rintro ⟨j, v⟩
    rw [← lookup_eq_some_iff_mem hnodup, heq, lookup_eq_some_iff_mem hnodup']
  exact hperm.eq_of_pairwise (fun a b _ _ hlt hgt => absurd hgt hlt.asymm) (List.pairwise_map.mp h)
    (List.pairwise_map.mp h')

/-- Rows in canonical form are determined by the values that are given for them. -/
theorem canonical_groupRows_eq {entries : List (Entry α m n)} {rows : Rows α m n}
    (hrows : ∀ i, HasIncreasingColumns (rows.get i))
    (h : ∀ i j, valuesAt entries i j = valuesIn (rows.get i) j) :
    (groupRows entries).canonical = rows := by
  apply vector_ext
  intro i
  rw [Rows.get_canonical]
  refine (hasIncreasingColumns_canonicalRow _).ext (hrows i) fun j => ?_
  rw [lookup_canonicalRow, valuesIn_groupRows, h, ← lookup_canonicalRow,
    canonicalRow_of_increasing (hrows i)]

end Sums

/-! ### The matrix of given values -/

namespace Matrix

variable [Scalar α]

/-- The matrix stores what is given for each position, in both storages. -/
structure IsMatrixOf (M : Matrix α m n) (given : Fin m → Fin n → List α) : Prop where
  rows_increasing : ∀ i, HasIncreasingColumns (M.toRows.get i)
  rowMap_eq : ∀ i j, M.rowMap (i, j) = sumOf? (given i j)
  columns_increasing : ∀ j, (M.owners j).Pairwise (· < ·)
  mem_column_iff : ∀ i j value,
    ⟨i, value⟩ ∈ (M.columns.get j).toList ↔ (j, value) ∈ M.toRows.get i
  slot_owner : ∀ i, ∀ c ∈ (M.rows.get i).toList, (M.owners c.column)[c.slot]? = some i
  bijOn_slotOf : Set.BijOn M.slotOf Set.univ M.slots
  /-- Whichever way the numbered positions are transposed, the blocks of the columns are the column
  storage, and a cell's slot is the place of its number in the block of its column. -/
  transposed : (∃ marked, M.IsTransposition marked) ∧ ∀ marked, M.IsTransposition marked →
    (∀ j, (marked.filter fun a => a.1.2 = j).map
        (fun a => (a.1.1, M.toRows.compress.values[a.2 - 1]?)) =
      (M.columns.get j).toList.map fun e => (e.row, some e.value)) ∧
    ∀ (i : Fin m) (k : Nat) (c : Cell α n), (M.rows.get i)[k]? = some c →
      marked[(marked.countP fun a => a.1.2 < c.column) + c.slot]? =
        some ((i, c.column), M.toRows.compress.pointers.getD i 0 + k + 1)
  /-- Each number is scattered to the place where the transposition has it; the slot is that place,
  counted from the pointer of the column. -/
  rebased : ∀ marked, M.IsTransposition marked → ∀ (i : Fin m) (k : Nat) (c : Cell α n),
    (M.rows.get i)[k]? = some c →
    (rowToColumn marked)[M.toRows.compress.pointers.getD i 0 + k]? =
      some (M.columnPointers.getD c.column 0 + c.slot)
  /-- Reading the compressed copy gives the matrix again, if its numbers are words. -/
  rebuilt : (∀ k ∈ (M.toRows.given .row m n []).indices, fitsWord k = true) →
    ∃ entries, (M.toRows.given .row m n []).listing = .ok ⟨m, n, entries⟩ ∧
      ofRows (groupRows entries).canonical = M

omit [Scalar α] in
theorem mem_column_iff_mem_row {M : Matrix α m n} (hM : M.IsLinked) (hmirrored : M.IsMirrored)
    (i : Fin m) (j : Fin n) (value : α) :
    ⟨i, value⟩ ∈ (M.columns.get j).toList ↔ (j, value) ∈ M.toRows.get i := by
  have hcolumn : ⟨i, value⟩ ∈ (M.columns.get j).toList ↔ M.columnMap (i, j) = some value := by
    rw [hM.columnMap_eq_some_iff]
    constructor
    · exact fun h => ⟨_, h, rfl, rfl⟩
    · rintro ⟨e, he, rfl, rfl⟩
      exact he
  have hrow : (j, value) ∈ M.toRows.get i ↔ M.rowMap (i, j) = some value := by
    rw [hM.rowMap_eq_some_iff, get_toRows, List.mem_map]
    simp only [Prod.mk.injEq]
  rw [hcolumn, hrow, hmirrored.columnMap_eq hM]

/-- Rows in canonical form are read back from their compressed copy. -/
theorem exists_listing_toRows {rows : Rows α m n} (hrows : ∀ i, HasIncreasingColumns (rows.get i))
    (hwords : ∀ k ∈ (rows.given .row m n []).indices, fitsWord k = true) :
    ∃ entries, (rows.given .row m n []).listing = .ok ⟨m, n, entries⟩ ∧
      (groupRows entries).canonical = rows := by
  obtain ⟨entries, hlisting, hvalues⟩ := (Given.Describes.rows rows []).exists_listing hwords
  exact ⟨entries, hlisting, canonical_groupRows_eq hrows hvalues⟩

theorem isMatrixOf_valuesAt (entries : List (Entry α m n)) :
    (ofRows (groupRows entries).canonical).IsMatrixOf (valuesAt entries) := by
  have hM := isLinked_ofRows_canonical (groupRows entries)
  have hmirrored := isMirrored_ofRows (groupRows entries).canonical
  have htoRows : (ofRows (groupRows entries).canonical).toRows = (groupRows entries).canonical :=
    vector_ext (get_toRows_ofRows _)
  have hincreasing : ∀ i, HasIncreasingColumns ((groupRows entries).canonical.get i) := fun i => by
    rw [Rows.get_canonical]
    exact hasIncreasingColumns_canonicalRow _
  exact
    { rows_increasing := by rwa [htoRows]
      rowMap_eq i j := by
        rw [rowMap, htoRows, Rows.toMap, Rows.get_canonical, lookup_canonicalRow,
          valuesIn_groupRows]
      columns_increasing := hM.columns_increasing
      mem_column_iff := mem_column_iff_mem_row hM hmirrored
      slot_owner i c hc := (hM.mem_places_iff i c.column c.slot).mp (List.mem_map.mpr ⟨c, hc, rfl⟩)
      bijOn_slotOf := hM.bijOn_slotOf
      transposed := ⟨exists_isTransposition _, fun marked h =>
        ⟨h.map_filter_eq_column hM hmirrored, fun i k c hc => h.getElem?_slot hM hc⟩⟩
      rebased marked h i k c hc := h.getElem?_rowToColumn_cell hM hc
      rebuilt hwords := by
        rw [htoRows] at hwords ⊢
        obtain ⟨again, hlisting, hrows⟩ := exists_listing_toRows hincreasing hwords
        exact ⟨again, hlisting, by rw [hrows]⟩ }

end Matrix

/-- A matrix that is given well formed, whether as an array, in nested lists, by coordinates or in
compressed form, is read, and what is built from it stores the given values. -/
theorem exists_isMatrixOf [Scalar α] {g : Given α} {given : Fin m → Fin n → List α}
    (h : g.Describes m n given) (hwords : ∀ k ∈ g.indices, fitsWord k = true) :
    ∃ entries, g.listing = .ok ⟨m, n, entries⟩ ∧
      (Matrix.ofRows (groupRows entries).canonical).IsMatrixOf given := by
  obtain ⟨entries, hlisting, hvalues⟩ := h.exists_listing hwords
  obtain rfl : valuesAt entries = given := funext fun i => funext fun j => hvalues i j
  exact ⟨entries, hlisting, Matrix.isMatrixOf_valuesAt entries⟩

open Extended (finite)

/-- Two values at one position around one at a smaller column. -/
def unsorted : List (Entry Extended 1 2) :=
  [⟨Fin.last 0, Fin.last 1, finite 1⟩, ⟨Fin.last 0, (Fin.last 0).castSucc, finite 2⟩,
    ⟨Fin.last 0, Fin.last 1, finite 3⟩]

/-- An array of no rows and three columns. -/
def noRows : DenseArray Extended := ⟨[0, 3], [], rfl⟩

theorem exists_isMatrixOf_unsorted_noRows :
    (∃ entries, (coordinates unsorted).listing = .ok ⟨1, 2, entries⟩ ∧
      (Matrix.ofRows (groupRows entries).canonical).IsMatrixOf (valuesAt unsorted) ∧
      (Matrix.ofRows (groupRows entries).canonical).rowMap (Fin.last 0, Fin.last 1) =
        some (finite 4)) ∧
    ∃ entries, (Given.array noRows).listing = .ok ⟨0, 3, entries⟩ ∧
      (Matrix.ofRows (groupRows entries).canonical).IsMatrixOf
        fun i j => nonzeroAt noRows.values (i * 3 + j) := by
  obtain ⟨entries, hlisting, hM⟩ :=
    exists_isMatrixOf (Given.Describes.coordinate unsorted) (by decide)
  refine ⟨⟨entries, hlisting, hM, ?_⟩, ?_⟩
  · rw [hM.rowMap_eq]
    decide +kernel
  · exact exists_isMatrixOf (.array (a := noRows) (.grid 0 3)) (by decide)

end CoefficientTightening.Sparse
