import CoefficientTightening.Proofs.ExactArithmetic
import CoefficientTightening.Sparse.Matrix

/-! Rows on their way into a matrix and out again. Storing rows and reading the row storage back
gives the same rows, over every kind of scalar. Bringing a row into canonical form reorders its
entries and adds up those of one column, so in exact arithmetic a row with finite coefficients takes
the same value at every point as before. -/
namespace CoefficientTightening.Sparse

/-! ### Storing and reading back -/

namespace Matrix

variable {α : Type} {m n : Nat}

theorem get_toRows (M : Matrix α m n) (i : Fin m) :
    M.toRows.get i = (M.rows.get i).toList.map fun c => (c.column, c.value) := by
  simp [toRows, get_eq_getElem]

theorem get_toRows_append (M : Matrix α m n) (i i' : Fin m) (j : Fin n) (value : α) :
    (M.append i j value).toRows.get i' =
      if i = i' then M.toRows.get i' ++ [(j, value)] else M.toRows.get i' := by
  rw [get_toRows, get_toRows, append, get_modifyAt]
  split
  · simp
  · rfl

theorem get_toRows_appendRow (row : List (Fin n × α)) (M : Matrix α m n) (i i' : Fin m) :
    (M.appendRow i row).toRows.get i' =
      if i = i' then M.toRows.get i' ++ row else M.toRows.get i' := by
  induction row generalizing M with
  | nil => simp [appendRow]
  | cons t rest ih =>
    have hstep : M.appendRow i (t :: rest) = (M.append i t.1 t.2).appendRow i rest := rfl
    rw [hstep, ih, get_toRows_append]
    split
    · rw [List.append_assoc, List.singleton_append]
    · rfl

theorem get_toRows_foldl_appendRow_of_notMem (rows : Rows α m n) (order : List (Fin m))
    (M : Matrix α m n) (i : Fin m) (h : i ∉ order) :
    (order.foldl (fun M i => M.appendRow i (rows.get i)) M).toRows.get i = M.toRows.get i := by
  induction order generalizing M with
  | nil => rfl
  | cons i₀ rest ih =>
    obtain ⟨hne, hrest⟩ := not_or.mp (mt List.mem_cons.mpr h)
    rw [List.foldl_cons, ih _ hrest, get_toRows_appendRow, if_neg (Ne.symm hne)]

theorem get_toRows_foldl_appendRow (rows : Rows α m n) (order : List (Fin m))
    (hnodup : order.Nodup) (M : Matrix α m n) (i : Fin m) (h : i ∈ order) :
    (order.foldl (fun M i => M.appendRow i (rows.get i)) M).toRows.get i =
      M.toRows.get i ++ rows.get i := by
  induction order generalizing M with
  | nil => cases h
  | cons i₀ rest ih =>
    obtain ⟨hfresh, hrest⟩ := List.nodup_cons.mp hnodup
    rw [List.foldl_cons]
    rcases List.mem_cons.mp h with rfl | hmem
    · rw [get_toRows_foldl_appendRow_of_notMem rows rest _ i hfresh, get_toRows_appendRow,
        if_pos rfl]
    · have hne : i₀ ≠ i := fun heq => hfresh (heq ▸ hmem)
      rw [ih hrest _ hmem, get_toRows_appendRow, if_neg hne]

/-- What is stored row by row is read back row by row. -/
theorem get_toRows_ofRows (rows : Rows α m n) (i : Fin m) :
    (ofRows rows).toRows.get i = rows.get i := by
  rw [ofRows, get_toRows_foldl_appendRow _ _ (List.nodup_finRange m) _ _ (List.mem_finRange i),
    get_toRows, empty, get_replicate]
  rfl

end Matrix

/-! ### Sorting by column -/

section Order

variable {α : Type} {n : Nat}

theorem insertByColumn_perm (t : Fin n × α) (row : List (Fin n × α)) :
    (insertByColumn t row).Perm (t :: row) := by
  induction row with
  | nil => exact List.Perm.refl _
  | cons s rest ih =>
    rw [insertByColumn]
    split
    · exact List.Perm.refl _
    · exact (ih.cons s).trans (List.Perm.swap t s rest)

theorem sortByColumn_perm (row : List (Fin n × α)) : (sortByColumn row).Perm row := by
  induction row with
  | nil => exact List.Perm.refl _
  | cons t rest ih => exact (insertByColumn_perm t _).trans (ih.cons t)

end Order

theorem Rows.get_canonical {α : Type} [Scalar α] {m n : Nat} (rows : Rows α m n) (i : Fin m) :
    rows.canonical.get i = canonicalRow (rows.get i) := by
  simp [Rows.canonical, get_eq_getElem]

section Columns

variable {α : Type} [Scalar α] {n : Nat}

theorem columns_sumFrom_subset (j : Fin n) (value : α) (row : List (Fin n × α)) :
    (sumFrom j value row).map (·.1) ⊆ j :: row.map (·.1) := by
  induction row generalizing j value with
  | nil => exact List.Subset.refl _
  | cons t rest ih =>
    rw [sumFrom]
    split
    · exact List.Subset.trans (ih j (value + t.2))
        (List.cons_subset_cons j (List.subset_cons_self _ _))
    · exact List.cons_subset_cons j (ih t.1 t.2)

/-- The canonical form of a row has no column of its own. -/
theorem columns_canonicalRow_subset (row : List (Fin n × α)) :
    (canonicalRow row).map (·.1) ⊆ row.map (·.1) := by
  have hsort := ((sortByColumn_perm row).map (·.1)).subset
  rw [canonicalRow]
  cases hrow : sortByColumn row with
  | nil => exact List.nil_subset _
  | cons t rest =>
    rw [hrow] at hsort
    exact List.Subset.trans (columns_sumFrom_subset t.1 t.2 rest) hsort

end Columns

/-! ### Values at a point -/

open Extended (finite)

variable {n : Nat}

/-- The value at a point of a row given by its entries. -/
def rowSum (row : List (Fin n × Extended)) (x : Fin n → ℚ) : Extended :=
  (row.map fun t => t.2 * finite (x t.1)).sum

def HasFiniteValues (row : List (Fin n × Extended)) : Prop :=
  ∀ t ∈ row, Scalar.isFinite t.2 = true

theorem rowSum_cons (t : Fin n × Extended) (row : List (Fin n × Extended)) (x : Fin n → ℚ) :
    rowSum (t :: row) x = t.2 * finite (x t.1) + rowSum row x := by
  rw [rowSum, List.map_cons, List.sum_cons]
  rfl

theorem rowSum_perm {row row' : List (Fin n × Extended)} (h : row.Perm row') (x : Fin n → ℚ) :
    rowSum row x = rowSum row' x :=
  (h.map _).sum_eq

theorem hasFiniteValues_cons {t : Fin n × Extended} {row : List (Fin n × Extended)} :
    HasFiniteValues (t :: row) ↔ Scalar.isFinite t.2 = true ∧ HasFiniteValues row :=
  List.forall_mem_cons

theorem hasFiniteValues_sumFrom {row : List (Fin n × Extended)} (hrow : HasFiniteValues row)
    {value : Extended} (hvalue : Scalar.isFinite value = true) (j : Fin n) :
    HasFiniteValues (sumFrom j value row) := by
  induction row generalizing j value with
  | nil => exact hasFiniteValues_cons.mpr ⟨hvalue, hrow⟩
  | cons t rest ih =>
    obtain ⟨k, v⟩ := t
    obtain ⟨hv, hrest⟩ := hasFiniteValues_cons.mp hrow
    rw [sumFrom]
    split
    · obtain ⟨p, rfl⟩ := Extended.isFinite_iff.mp hvalue
      obtain ⟨q, rfl⟩ := Extended.isFinite_iff.mp hv
      exact ih hrest rfl j
    · exact hasFiniteValues_cons.mpr ⟨hvalue, ih hrest hv k⟩

/-- Adding up neighbours of one column loses nothing. -/
theorem rowSum_sumFrom {row : List (Fin n × Extended)} (hrow : HasFiniteValues row)
    {value : Extended} (hvalue : Scalar.isFinite value = true) (j : Fin n) (x : Fin n → ℚ) :
    rowSum (sumFrom j value row) x = value * finite (x j) + rowSum row x := by
  induction row generalizing j value with
  | nil => exact rowSum_cons _ _ _
  | cons t rest ih =>
    obtain ⟨k, v⟩ := t
    obtain ⟨hv, hrest⟩ := hasFiniteValues_cons.mp hrow
    rw [sumFrom, rowSum_cons]
    split
    · next hk =>
      subst hk
      obtain ⟨p, rfl⟩ := Extended.isFinite_iff.mp hvalue
      obtain ⟨q, rfl⟩ := Extended.isFinite_iff.mp hv
      have hadd : Scalar.isFinite (finite p + finite q) = true := rfl
      rw [ih hrest hadd k, ← add_assoc, Extended.finite_add, Extended.finite_mul,
        Extended.finite_mul, Extended.finite_mul, Extended.finite_add, add_mul]
    · rw [rowSum_cons, ih hrest hv k]

/-! ### The canonical form of a row -/

variable {row : List (Fin n × Extended)}

theorem hasFiniteValues_sortByColumn (hrow : HasFiniteValues row) :
    HasFiniteValues (sortByColumn row) :=
  fun t ht => hrow t ((sortByColumn_perm row).mem_iff.mp ht)

theorem hasFiniteValues_canonicalRow (hrow : HasFiniteValues row) :
    HasFiniteValues (canonicalRow row) := by
  have hsorted := hasFiniteValues_sortByColumn hrow
  rw [canonicalRow]
  cases hsort : sortByColumn row with
  | nil => exact fun t ht => absurd ht List.not_mem_nil
  | cons t rest =>
    rw [hsort] at hsorted
    obtain ⟨ht, hrest⟩ := hasFiniteValues_cons.mp hsorted
    exact hasFiniteValues_sumFrom hrest ht t.1

/-- A row in canonical form takes the value of the row at every point. -/
theorem rowSum_canonicalRow (hrow : HasFiniteValues row) (x : Fin n → ℚ) :
    rowSum (canonicalRow row) x = rowSum row x := by
  have hsorted := hasFiniteValues_sortByColumn hrow
  rw [← rowSum_perm (sortByColumn_perm row) x, canonicalRow]
  cases hsort : sortByColumn row with
  | nil => rfl
  | cons t rest =>
    rw [hsort] at hsorted
    obtain ⟨ht, hrest⟩ := hasFiniteValues_cons.mp hsorted
    rw [rowSum_cons]
    exact rowSum_sumFrom hrest ht t.1 x

end CoefficientTightening.Sparse
