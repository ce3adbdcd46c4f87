import CoefficientTightening.Proofs.VisitOrder

/-! The changes of a pass, one after the other. Each change names a place, what it finds there and
what it leaves; carried out in order from the formulation before the pass, every change finds what it
says, although the rows and columns it reads are being rewritten. No place is named twice, and rows
come in order. This holds over every kind of scalar. -/
namespace CoefficientTightening

variable {α : Type} [Scalar α] {m n : Nat}

namespace Tightening

variable {columns : Vector (Column α) n} {row : Fin m} {side : Side} {bound total : α}
  {entry : Sparse.Cell α n × Nat} {order : List (Sparse.Cell α n × Nat)} {t : Tightening α m n}

/-! ### The change of one entry -/

/-- What a change of an entry says, and why it was made. -/
structure IsProposed (columns : Vector (Column α) n) (row : Fin m) (side : Side)
    (bound total : α) (entry : Sparse.Cell α n × Nat) (t : Tightening α m n) : Prop where
  row_eq : t.row = row
  side_eq : t.side = side
  position_eq : t.position = entry.2
  column_eq : t.column = entry.1.column
  old_eq : t.old = entry.1.value
  oldBound_eq : t.oldBound = bound
  candidate : isCandidate columns entry.1 = true
  nonzero : (t.old == 0) = false
  moved : (t.new == t.old) = false
  shrunk : shrink side entry.1.value bound (columns.get entry.1.column).range
    (total - entry.1.value * extremeBound columns side entry.1) = (t.new, t.newBound)

theorem isProposed_of_propose? (h : propose? columns row side bound total entry = some t) :
    IsProposed columns row side bound total entry t := by
  simp only [propose?] at h
  split at h
  · next hc =>
    obtain ⟨hcand, hzero⟩ := Bool.and_eq_true_iff.mp hc
    split at h
    · cases h
    · next hmoved =>
      cases h
      exact
        { row_eq := rfl, side_eq := rfl, position_eq := rfl, column_eq := rfl, old_eq := rfl
          oldBound_eq := rfl, candidate := hcand
          nonzero := by simpa using hzero
          moved := by simpa using hmoved
          shrunk := rfl }
  · cases h

/-- A change of a row is the change of one of its entries, at a bound and a total that the loop comes
to; what holds at the start and is kept by every change holds there. -/
theorem exists_isProposed_of_mem_visit {I : α → α → Prop} (hstart : I bound total)
    (hstep : ∀ e ∈ order, ∀ b T, ∀ u : Tightening α m n, I b T →
      IsProposed columns row side b T e u →
      I u.newBound (T - (u.old - u.new) * extremeBound columns side e.1))
    (h : t ∈ visit columns row side bound total order) :
    ∃ e ∈ order, ∃ b T, I b T ∧ IsProposed columns row side b T e t := by
  induction order generalizing bound total with
  | nil => cases h
  | cons e rest ih =>
    have hrest : ∀ e' ∈ rest, ∀ b T, ∀ u : Tightening α m n, I b T →
        IsProposed columns row side b T e' u →
        I u.newBound (T - (u.old - u.new) * extremeBound columns side e'.1) :=
      fun e' he' => hstep e' (List.mem_cons_of_mem _ he')
    rw [visit] at h
    cases hu : propose? columns row side bound total e with
    | none =>
      rw [hu] at h
      obtain ⟨e', he', hfound⟩ := ih hstart hrest h
      exact ⟨e', List.mem_cons_of_mem _ he', hfound⟩
    | some u =>
      rw [hu] at h
      have hprop := isProposed_of_propose? hu
      rcases List.mem_cons.mp h with rfl | hmem
      · exact ⟨e, List.mem_cons_self, bound, total, hstart, hprop⟩
      · obtain ⟨e', he', hfound⟩ :=
          ih (hstep e List.mem_cons_self _ _ u hstart hprop) hrest hmem
        exact ⟨e', List.mem_cons_of_mem _ he', hfound⟩

/-- An entry that is changed at every bound and total is changed. -/
theorem exists_mem_visit {columns : Vector (Column α) n} {row : Fin m} {side : Side}
    {e : Sparse.Cell α n × Nat} {P : Tightening α m n → Prop}
    (h : ∀ bound total, ∃ t, propose? columns row side bound total e = some t ∧ P t)
    {order : List (Sparse.Cell α n × Nat)} (he : e ∈ order) (bound total : α) :
    ∃ t ∈ visit columns row side bound total order, P t := by
  induction order generalizing bound total with
  | nil => cases he
  | cons e' rest ih =>
    rw [visit]
    rcases List.mem_cons.mp he with rfl | hrest
    · obtain ⟨t, ht, hP⟩ := h bound total
      rw [ht]
      exact ⟨t, List.mem_cons_self, hP⟩
    · cases propose? columns row side bound total e' with
      | none => exact ih hrest _ _
      | some u =>
        obtain ⟨t, ht, hP⟩ := ih hrest u.newBound
          (total - (u.old - u.new) * extremeBound columns side e'.1)
        exact ⟨t, List.mem_cons_of_mem _ ht, hP⟩

/-- The places of the changes are places of entries, in the order of visiting. -/
theorem place_visit_sublist (columns : Vector (Column α) n) (row : Fin m) (side : Side)
    (bound total : α) (order : List (Sparse.Cell α n × Nat)) :
    ((visit columns row side bound total order).map fun t => (t.column, t.position)).Sublist
      (order.map fun e => (e.1.column, e.2)) := by
  induction order generalizing bound total with
  | nil => exact List.Sublist.slnil
  | cons e rest ih =>
    rw [visit]
    cases hu : propose? columns row side bound total e with
    | none => exact (ih bound total).cons _
    | some u =>
      have hprop := isProposed_of_propose? hu
      simp only [List.map_cons, hprop.column_eq, hprop.position_eq]
      exact (ih _ _).cons_cons _

/-! ### Changes and the formulations they find -/

/-- The change finds what it says at its place. -/
structure Fits (t : Tightening α m n) (p : Formulation α m n) : Prop where
  cell : ∃ slot, (p.matrix.rows.get t.row)[t.position]? = some ⟨t.column, slot, t.old⟩
  bound : (p.rows.get t.row).range.bound t.side = t.oldBound

end Tightening

namespace Formulation

open Tightening

/-- Carried out in order, every change finds what it says. -/
def Trace (p : Formulation α m n) : List (Tightening α m n) → Prop
  | [] => True
  | t :: rest => t.Fits p ∧ (p.commit t).Trace rest

variable {p : Formulation α m n} {i : Fin m} {t : Tightening α m n}

theorem trace_append {ts us : List (Tightening α m n)} :
    p.Trace (ts ++ us) ↔ p.Trace ts ∧ (ts.foldl commit p).Trace us := by
  induction ts generalizing p with
  | nil => exact (and_iff_right trivial).symm
  | cons t rest ih => simp only [List.cons_append, Trace, ih, List.foldl_cons, and_assoc]

/-- The changes of a row fit one after the other: an entry is as it was found until its own turn, and
the bound is the one that the last change left. -/
theorem trace_visit {columns : Vector (Column α) n} {side : Side} {bound total : α}
    {order : List (Sparse.Cell α n × Nat)} (hnodup : (order.map (·.2)).Nodup)
    (hat : ∀ e ∈ order, (p.matrix.rows.get i)[e.2]? = some e.1)
    (hbound : (p.rows.get i).range.bound side = bound) :
    p.Trace (visit columns i side bound total order) := by
  induction order generalizing p bound total with
  | nil => trivial
  | cons e rest ih =>
    obtain ⟨hfresh, hnodup⟩ := List.nodup_cons.mp hnodup
    have hrest : ∀ e' ∈ rest, (p.matrix.rows.get i)[e'.2]? = some e'.1 :=
      fun e' he' => hat e' (List.mem_cons_of_mem _ he')
    rw [visit]
    cases hu : propose? columns i side bound total e with
    | none => exact ih hnodup hrest hbound
    | some u =>
      have hprop := isProposed_of_propose? hu
      have hstate : (p.commit u).rowState i = (p.rowState i).change u := by
        rw [rowState_commit, if_pos hprop.row_eq]
      refine ⟨⟨⟨e.1.slot, ?_⟩, ?_⟩, ih hnodup (fun e' he' => ?_) ?_⟩
      · rw [hprop.row_eq, hprop.position_eq, hprop.column_eq, hprop.old_eq]
        exact hat e List.mem_cons_self
      · rw [hprop.row_eq, hprop.side_eq, hprop.oldBound_eq, hbound]
      · -- no later entry is at the position that was written
        have hne : u.position ≠ e'.2 := by
          rw [hprop.position_eq]
          exact fun h => hfresh (List.mem_map.mpr ⟨e', he', h.symm⟩)
        have hcells : (p.commit u).matrix.rows.get i = ((p.rowState i).change u).cells :=
          congrArg RowState.cells hstate
        rw [hcells, RowState.change, Array.getElem?_modify, if_neg hne]
        exact hrest e' he'
      · have hrange : ((p.commit u).rows.get i).range = ((p.rowState i).change u).range :=
          congrArg RowState.range hstate
        rw [hrange, RowState.change, hprop.side_eq, Interval.bound_setBound]

omit [Scalar α] in
theorem getElem?_of_mem_entries {e : Sparse.Cell α n × Nat} (h : e ∈ p.entries i) :
    (p.matrix.rows.get i)[e.2]? = some e.1 := by
  have hget := List.mem_zipIdx_iff_getElem?.mp h
  rwa [Array.getElem?_toList] at hget

theorem trace_rowTightenings (p : Formulation α m n) (i : Fin m) : p.Trace (p.rowTightenings i) := by
  rw [rowTightenings_eq]
  cases hside : (p.rows.get i).range.onlySide? with
  | none => simp only [rowTighteningsIn, hside, Trace]
  | some side =>
    rw [rowTighteningsIn_eq_visit hside]
    exact trace_visit (nodup_of_perm_zipIdx (List.Perm.refl _))
      (fun e he => getElem?_of_mem_entries he) rfl

/-- The changes of a row go by its entries, in order and without going back. -/
theorem place_rowTightenings_sublist (p : Formulation α m n) (i : Fin m) :
    ((p.rowTightenings i).map fun t => (t.column, t.position)).Sublist
      ((p.entries i).map fun e => (e.1.column, e.2)) := by
  rw [rowTightenings_eq]
  cases hside : (p.rows.get i).range.onlySide? with
  | none => simp [rowTighteningsIn, hside]
  | some side =>
    rw [rowTighteningsIn_eq_visit hside]
    exact place_visit_sublist _ _ _ _ _ _

theorem nodup_positions_rowTightenings (p : Formulation α m n) (i : Fin m) :
    ((p.rowTightenings i).map (·.position)).Nodup := by
  have hsub := (p.place_rowTightenings_sublist i).map Prod.snd
  rw [List.map_map, List.map_map] at hsub
  exact (nodup_of_perm_zipIdx (List.Perm.refl _)).sublist hsub

/-! ### The changes of a pass -/

theorem trace_tightenRows (rows : List (Fin m)) (p : Formulation α m n) :
    p.Trace (p.tightenRows rows).2 := by
  induction rows generalizing p with
  | nil => trivial
  | cons i rest ih => exact trace_append.mpr ⟨p.trace_rowTightenings i, ih _⟩

theorem foldl_commit_tightenRows (rows : List (Fin m)) (p : Formulation α m n) :
    (p.tightenRows rows).2.foldl commit p = (p.tightenRows rows).1 := by
  induction rows generalizing p with
  | nil => rfl
  | cons i rest ih =>
    simp only [tightenRows, List.foldl_append]
    exact ih _

/-- Each row is changed as if it were the only one. -/
theorem tightenRows_eq_flatMap (rows : List (Fin m)) (hnodup : rows.Nodup)
    (p : Formulation α m n) : (p.tightenRows rows).2 = rows.flatMap p.rowTightenings := by
  induction rows generalizing p with
  | nil => rfl
  | cons i rest ih =>
    obtain ⟨hfresh, hrest⟩ := List.nodup_cons.mp hnodup
    have hlater : ∀ i' ∈ rest,
        ((p.rowTightenings i).foldl commit p).rowTightenings i' = p.rowTightenings i' := by
      intro i' hi'
      have hne : ∀ t ∈ p.rowTightenings i, t.row ≠ i' := fun t ht heq =>
        hfresh (by rwa [← row_of_mem_rowTightenings ht, heq])
      exact rowTightenings_congr (rowState_foldl_commit_of_ne _ p i' hne) (alike_foldl_commit _ p)
    simp only [tightenRows, ih hrest, List.flatMap, List.map_congr_left hlater, List.map_cons,
      List.flatten_cons]

theorem trace_tightenings (p : Formulation α m n) : p.Trace p.tightenings :=
  p.trace_tightenRows _

theorem foldl_commit_tightenings (p : Formulation α m n) :
    p.tightenings.foldl commit p = p.tighten :=
  p.foldl_commit_tightenRows _

theorem tightenings_eq (p : Formulation α m n) :
    p.tightenings = (List.finRange m).flatMap p.rowTightenings :=
  p.tightenRows_eq_flatMap _ (List.nodup_finRange m)

theorem mem_tightenings : t ∈ p.tightenings ↔ t ∈ p.rowTightenings t.row := by
  rw [tightenings_eq, List.mem_flatMap]
  constructor
  · rintro ⟨i, -, ht⟩
    rwa [row_of_mem_rowTightenings ht]
  · exact fun h => ⟨t.row, List.mem_finRange _, h⟩

/-- The bound that a change moves is the only finite one of its row. -/
theorem onlySide?_of_mem_tightenings (h : t ∈ p.tightenings) :
    (p.rows.get t.row).range.onlySide? = some t.side := by
  rw [mem_tightenings, rowTightenings_eq] at h
  cases hside : (p.rows.get t.row).range.onlySide? with
  | none =>
    simp only [rowTighteningsIn, hside] at h
    cases h
  | some side =>
    rw [rowTighteningsIn_eq_visit hside] at h
    obtain ⟨_, -, _, _, -, hprop⟩ :=
      exists_isProposed_of_mem_visit (I := fun _ _ => True) trivial
        (fun _ _ _ _ _ _ _ => trivial) h
    rw [hprop.side_eq]

omit [Scalar α] in
theorem range_foldl_change {side : Side} {ts : List (Tightening α m n)}
    (hts : ∀ t ∈ ts, t.side = side) (s : RowState α n) :
    (ts.foldl RowState.change s).range = s.range ∨
      ∃ value, (ts.foldl RowState.change s).range = s.range.setBound value side := by
  induction ts generalizing s with
  | nil => exact .inl rfl
  | cons t rest ih =>
    have hchange : (s.change t).range = s.range.setBound t.newBound side := by
      rw [RowState.change, hts t List.mem_cons_self]
    right
    rcases ih (fun u hu => hts u (List.mem_cons_of_mem _ hu)) (s.change t) with h | ⟨value, h⟩
    · exact ⟨t.newBound, h.trans hchange⟩
    · exact ⟨value, by rw [List.foldl_cons, h, hchange, Interval.setBound_setBound]⟩

/-- A pass moves no other bound of a row than its only finite one. -/
theorem range_tighten_cases (p : Formulation α m n) (i : Fin m) :
    (p.tighten.rows.get i).range = (p.rows.get i).range ∨
      ∃ side value, (p.rows.get i).range.onlySide? = some side ∧
        (p.tighten.rows.get i).range = (p.rows.get i).range.setBound value side := by
  have hrange : (p.tighten.rows.get i).range =
      ((p.rowTightenings i).foldl RowState.change (p.rowState i)).range :=
    congrArg RowState.range (p.rowState_tighten i)
  have hside : ∀ t ∈ p.rowTightenings i, (p.rows.get i).range.onlySide? = some t.side := by
    intro t ht
    obtain rfl := row_of_mem_rowTightenings ht
    exact onlySide?_of_mem_tightenings (mem_tightenings.mpr ht)
  rw [hrange]
  cases honly : (p.rows.get i).range.onlySide? with
  | none =>
    have hnil : p.rowTightenings i = [] := by
      simp only [rowTightenings, honly]
    rw [hnil]
    exact .inl rfl
  | some side =>
    have hsides : ∀ t ∈ p.rowTightenings i, t.side = side := fun t ht =>
      Option.some.inj ((hside t ht).symm.trans honly)
    rcases range_foldl_change hsides (p.rowState i) with hsame | ⟨value, hset⟩
    · exact .inl hsame
    · exact .inr ⟨side, value, rfl, hset⟩

theorem reductions_tighteningPass (p : Formulation α m n) :
    p.tighteningPass.reductions = p.tightenings.flatMap reductions := rfl

end Formulation

end CoefficientTightening
