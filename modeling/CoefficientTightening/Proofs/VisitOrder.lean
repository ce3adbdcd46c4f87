import CoefficientTightening.Proofs.RowPass

/-! The entries of a row visited in any order. The pass walks along a row by position; here the same
changes are found for any list of entries, each given with its position, so that orders of visiting
can be compared. Visiting the entries in the order in which they are stored is the pass. -/
namespace CoefficientTightening

/-! ### Changing the components of an array one by one -/

section Array

variable {β : Type}

theorem getElem?_foldl_modify (f : β → β) (order : List (β × Nat))
    (hnodup : (order.map (·.2)).Nodup) (xs : Array β) (k : Nat) :
    (order.foldl (fun xs e => xs.modify e.2 f) xs)[k]? =
      if k ∈ order.map (·.2) then xs[k]?.map f else xs[k]? := by
  induction order generalizing xs with
  | nil => simp
  | cons e rest ih =>
    obtain ⟨hfresh, hrest⟩ := List.nodup_cons.mp hnodup
    rw [List.foldl_cons, ih hrest, Array.getElem?_modify]
    by_cases hk : e.2 = k
    · subst hk
      simp [hfresh]
    · simp only [hk, if_false, List.map_cons, List.mem_cons, Ne.symm hk, false_or]

theorem nodup_of_perm_zipIdx {xs : List β} {order : List (β × Nat)} (h : order.Perm xs.zipIdx) :
    (order.map (·.2)).Nodup := by
  rw [(h.map (·.2)).nodup_iff, List.zipIdx_map_snd]
  exact List.nodup_range'

/-- Changing every component once, in any order, is changing them all at once. -/
theorem foldl_modify_eq_map (f : β → β) {xs : Array β} {order : List (β × Nat)}
    (h : order.Perm xs.toList.zipIdx) :
    order.foldl (fun xs e => xs.modify e.2 f) xs = xs.map f := by
  apply Array.ext_getElem?
  intro k
  rw [getElem?_foldl_modify f order (nodup_of_perm_zipIdx h), Array.getElem?_map]
  split
  · rfl
  · next hk =>
    rw [(h.map (·.2)).mem_iff, List.zipIdx_map_snd] at hk
    have hsize : xs.size ≤ k := by simpa using hk
    rw [Array.getElem?_eq_none hsize]
    rfl

/-- The changed component and what stands around it. -/
theorem exists_toList_modify (f : β → β) {xs : Array β} {k : Nat} {x : β} (hk : xs[k]? = some x) :
    ∃ before after, xs.toList = before ++ x :: after ∧
      (xs.modify k f).toList = before ++ f x :: after := by
  rw [Array.getElem?_eq_some_iff] at hk
  obtain ⟨hlt, rfl⟩ := hk
  obtain ⟨before, y, after, hxs, hlength, hmodify⟩ :=
    List.exists_of_modify f (show k < xs.toList.length by simpa using hlt)
  have hy : xs[k] = y := by
    rw [← Array.getElem_toList]
    simp [hxs, ← hlength]
  exact ⟨before, after, by rw [hxs, hy], by rw [Array.toList_modify, hmodify, hy]⟩

theorem modify_congr {xs : Array β} {k : Nat} {x : β} {f g : β → β} (hk : xs[k]? = some x)
    (h : f x = g x) : xs.modify k f = xs.modify k g := by
  apply Array.ext_getElem?
  intro k'
  rw [Array.getElem?_modify, Array.getElem?_modify]
  by_cases heq : k = k'
  · subst heq
    simp [hk, h]
  · simp [heq]

theorem modify_eq_self {xs : Array β} {k : Nat} {x : β} {f : β → β} (hk : xs[k]? = some x)
    (h : f x = x) : xs.modify k f = xs := by
  apply Array.ext_getElem?
  intro k'
  rw [Array.getElem?_modify]
  by_cases heq : k = k'
  · subst heq
    simp [hk, h]
  · simp [heq]

end Array

variable {α : Type} [Scalar α] {m n : Nat}

namespace Tightening

/-- The bound of an entry's column at which the entry's term is most extreme. -/
def extremeBound (columns : Vector (Column α) n) (side : Side) (c : Sparse.Cell α n) : α :=
  (columns.get c.column).range.bound (side.facing c.value)

/-- An entry whose column may be tightened. -/
def isCandidate (columns : Vector (Column α) n) (c : Sparse.Cell α n) : Bool :=
  (columns.get c.column).isCandidate

/-- The change of one entry, if there is one. -/
def propose? (columns : Vector (Column α) n) (row : Fin m) (side : Side) (bound total : α)
    (entry : Sparse.Cell α n × Nat) : Option (Tightening α m n) :=
  let c := entry.1
  if isCandidate columns c && !(c.value == 0) then
    let new := shrink side c.value bound (columns.get c.column).range
      (total - c.value * extremeBound columns side c)
    if new.1 == c.value then none
    else some
      { row, side, position := entry.2, column := c.column
        old := c.value, new := new.1, oldBound := bound, newBound := new.2 }
  else none

/-- The changes of a row whose entries are visited in the order given. -/
def visit (columns : Vector (Column α) n) (row : Fin m) (side : Side) :
    (bound total : α) → List (Sparse.Cell α n × Nat) → List (Tightening α m n)
  | _, _, [] => []
  | bound, total, entry :: rest =>
    match propose? columns row side bound total entry with
    | none => visit columns row side bound total rest
    | some t =>
      t :: visit columns row side t.newBound
        (total - (t.old - t.new) * extremeBound columns side entry.1) rest

theorem walk_eq_visit (columns : Vector (Column α) n) (row : Fin m) (side : Side)
    (position : Nat) (bound total : α) (cells : List (Sparse.Cell α n)) :
    walk columns row side position bound total cells =
      visit columns row side bound total (cells.zipIdx position) := by
  induction cells generalizing position bound total with
  | nil => rfl
  | cons c rest ih =>
    simp only [walk, List.zipIdx_cons, visit, propose?, isCandidate, extremeBound]
    split
    · next hc =>
      split
      · next hnew => simp only [hc, hnew, if_true, ih]
      · next hnew => simp only [hc, hnew, if_true, Bool.false_eq_true, if_false, ih]
    · next hc => simp only [hc, Bool.false_eq_true, if_false, ih]

theorem row_of_propose? {columns : Vector (Column α) n} {row : Fin m} {side : Side}
    {bound total : α} {entry : Sparse.Cell α n × Nat} {t : Tightening α m n}
    (h : propose? columns row side bound total entry = some t) : t.row = row := by
  simp only [propose?] at h
  split at h
  · split at h
    · cases h
    · rw [← Option.some.inj h]
  · cases h

theorem visit_eq_nil {columns : Vector (Column α) n} {row : Fin m} {side : Side} {bound total : α}
    {order : List (Sparse.Cell α n × Nat)}
    (h : ∀ e ∈ order, propose? columns row side bound total e = none) :
    visit columns row side bound total order = [] := by
  induction order with
  | nil => rfl
  | cons e rest ih =>
    simp only [visit, h e List.mem_cons_self]
    exact ih fun e he => h e (List.mem_cons_of_mem _ he)

theorem propose?_of_shrink {columns : Vector (Column α) n} {row : Fin m} {side : Side}
    {bound total : α} {entry : Sparse.Cell α n × Nat}
    (h : ((shrink side entry.1.value bound (columns.get entry.1.column).range
      (total - entry.1.value * extremeBound columns side entry.1)).1 == entry.1.value) = true) :
    propose? columns row side bound total entry = none := by
  simp only [propose?, h, if_true, ite_self]

theorem propose?_of_zero {columns : Vector (Column α) n} {row : Fin m} {side : Side}
    {bound total : α} {entry : Sparse.Cell α n × Nat} (h : (entry.1.value == 0) = true) :
    propose? columns row side bound total entry = none := by
  simp [propose?, h]

theorem propose?_of_not_integral {columns : Vector (Column α) n} {row : Fin m} {side : Side}
    {bound total : α} {entry : Sparse.Cell α n × Nat}
    (h : (columns.get entry.1.column).kind.isIntegral = false) :
    propose? columns row side bound total entry = none := by
  simp [propose?, isCandidate, Column.isCandidate, h]

theorem row_of_mem_visit {columns : Vector (Column α) n} {row : Fin m} {side : Side}
    {bound total : α} {order : List (Sparse.Cell α n × Nat)} {t : Tightening α m n}
    (h : t ∈ visit columns row side bound total order) : t.row = row := by
  induction order generalizing bound total with
  | nil => cases h
  | cons e rest ih =>
    rw [visit] at h
    cases ht : propose? columns row side bound total e with
    | none =>
      rw [ht] at h
      exact ih h
    | some u =>
      rw [ht] at h
      rcases List.mem_cons.mp h with rfl | hmem
      · exact row_of_propose? ht
      · exact ih hmem

end Tightening

namespace Formulation

open Tightening (visit)

/-- The stored entries of a row with their positions. -/
def entries (p : Formulation α m n) (i : Fin m) : List (Sparse.Cell α n × Nat) :=
  (p.matrix.rows.get i).toList.zipIdx

/-- The changes of a row when both its activity and its coefficients are visited in the order
given. -/
def rowTighteningsIn (p : Formulation α m n) (i : Fin m)
    (order : List (Sparse.Cell α n × Nat)) : List (Tightening α m n) :=
  match (p.rows.get i).range.onlySide? with
  | none => []
  | some side =>
    if order.any fun e => p.columnIsIntegral e.1.column then
      visit p.columns i side ((p.rows.get i).range.bound side)
        (activity side (order.map fun e => (e.1.value, (p.columns.get e.1.column).range))) order
    else []

omit [Scalar α] in
theorem map_entries {β : Type} (p : Formulation α m n) (i : Fin m) (f : Sparse.Cell α n → β) :
    ((p.entries i).map fun e => f e.1) = (p.matrix.rows.get i).toList.map f := by
  conv => rhs; rw [← List.zipIdx_map_fst 0 (p.matrix.rows.get i).toList, List.map_map]
  rfl

theorem row_of_mem_rowTighteningsIn {p : Formulation α m n} {i : Fin m}
    {order : List (Sparse.Cell α n × Nat)} {t : Tightening α m n}
    (h : t ∈ p.rowTighteningsIn i order) : t.row = i := by
  simp only [rowTighteningsIn] at h
  split at h
  · cases h
  · split at h
    · exact Tightening.row_of_mem_visit h
    · cases h

theorem rowTightenings_eq (p : Formulation α m n) (i : Fin m) :
    p.rowTightenings i = p.rowTighteningsIn i (p.entries i) := by
  have hany : ((p.entries i).any fun e => p.columnIsIntegral e.1.column) =
      (p.matrix.rows.get i).toList.any fun c => p.columnIsIntegral c.column := by
    have hmap := congrArg (fun l => l.any id) (p.map_entries i fun c => p.columnIsIntegral c.column)
    rwa [List.any_map, List.any_map] at hmap
  have hterms : ((p.entries i).map fun e => (e.1.value, (p.columns.get e.1.column).range)) =
      p.rowTerms i := p.map_entries i fun c => (c.value, (p.columns.get c.column).range)
  simp only [rowTightenings, rowTighteningsIn, rowActivity, hany, hterms, Tightening.walk_eq_visit]
  rfl

/-- The look at the kinds of a row's columns spares work and changes no result. -/
theorem rowTighteningsIn_eq_visit {p : Formulation α m n} {i : Fin m} {side : Side}
    (h : (p.rows.get i).range.onlySide? = some side) (order : List (Sparse.Cell α n × Nat)) :
    p.rowTighteningsIn i order =
      visit p.columns i side ((p.rows.get i).range.bound side)
        (activity side (order.map fun e => (e.1.value, (p.columns.get e.1.column).range)))
        order := by
  simp only [rowTighteningsIn, h]
  split
  · rfl
  · next hnone =>
    symm
    apply Tightening.visit_eq_nil
    intro e he
    apply Tightening.propose?_of_not_integral
    rw [List.any_eq_true] at hnone
    exact Bool.eq_false_iff.mpr fun hint => hnone ⟨e, he, hint⟩

end Formulation

end CoefficientTightening
