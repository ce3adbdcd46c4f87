import CoefficientTightening.Proofs.AcceptedCuts
import CoefficientTightening.Proofs.FeasibleSet

/-! A pass without an activity to carry along, in exact arithmetic. Here every entry that may be
tightened is judged by the activity of the other entries, added up anew over the row as it stands,
and every change is carried out before the next entry is looked at. With finite coefficients this
pass and the one that carries an activity make the same changes, whatever the column bounds are.
Taking the entry's own term off the carried activity leaves the activity of the others if that term
is finite. If it is not, one pass meets a NaN and the other a next value that is not finite, and both
leave the entry alone. Hence the carried activity is that of the current row at every entry. -/
namespace CoefficientTightening

open Extended (finite infinite nan)

/-! ### The pass -/

section Definitions

variable {α : Type} [Scalar α] {m n : Nat}

namespace Formulation

/-- Activity of the entries of a row other than the one at a position. -/
def activityWithout (p : Formulation α m n) (i : Fin m) (side : Side) (k : Nat) : α :=
  activity side (((p.matrix.rows.get i).toList.eraseIdx k).map fun c =>
    (c.value, (p.columns.get c.column).range))

/-- The change of the entry at a position, if there is one, judged by the row as it stands. -/
def recompute? (p : Formulation α m n) (i : Fin m) (side : Side) (k : Nat) :
    Option (Tightening α m n) :=
  match (p.matrix.rows.get i)[k]? with
  | none => none
  | some c =>
    if p.isCandidate c.column && !(c.value == 0) then
      let bound := (p.rows.get i).range.bound side
      let new := shrink side c.value bound (p.columns.get c.column).range
        (p.activityWithout i side k)
      if new.1 == c.value then none
      else some
        { row := i, side, position := k, column := c.column
          old := c.value, new := new.1, oldBound := bound, newBound := new.2 }
    else none

/-- The formulation and the changes after some positions of a row, each change carried out before
the next position is looked at. -/
def recomputeAt (p : Formulation α m n) (i : Fin m) (side : Side) :
    List Nat → Formulation α m n × List (Tightening α m n)
  | [] => (p, [])
  | k :: rest =>
    match p.recompute? i side k with
    | none => p.recomputeAt i side rest
    | some t =>
      let (q, later) := (p.commit t).recomputeAt i side rest
      (q, t :: later)

def recomputeRow (p : Formulation α m n) (i : Fin m) :
    Formulation α m n × List (Tightening α m n) :=
  match (p.rows.get i).range.onlySide? with
  | none => (p, [])
  | some side => p.recomputeAt i side (List.range (p.matrix.rows.get i).size)

def recomputeRows (p : Formulation α m n) :
    List (Fin m) → Formulation α m n × List (Tightening α m n)
  | [] => (p, [])
  | i :: rest =>
    let (q, here) := p.recomputeRow i
    let (r, later) := q.recomputeRows rest
    (r, here ++ later)

/-- The formulation and the changes after all rows. -/
def recomputed (p : Formulation α m n) : Formulation α m n × List (Tightening α m n) :=
  p.recomputeRows (List.finRange m)

end Formulation

namespace Tightening

/-- Bound and activity of a row as they are carried past one of its entries. -/
def carry (columns : Vector (Column α) n) (row : Fin m) (side : Side) (carried : α × α)
    (entry : Sparse.Cell α n × Nat) : α × α :=
  match propose? columns row side carried.1 carried.2 entry with
  | none => carried
  | some t => (t.newBound, carried.2 - (t.old - t.new) * extremeBound columns side entry.1)

theorem visit_append (columns : Vector (Column α) n) (row : Fin m) (side : Side)
    (bound total : α) (before after : List (Sparse.Cell α n × Nat)) :
    visit columns row side bound total (before ++ after) =
      visit columns row side bound total before ++
        visit columns row side (before.foldl (carry columns row side) (bound, total)).1
          (before.foldl (carry columns row side) (bound, total)).2 after := by
  induction before generalizing bound total with
  | nil => rfl
  | cons e rest ih =>
    rw [List.cons_append, visit, visit, List.foldl_cons]
    cases ht : propose? columns row side bound total e with
    | none => simp only [carry, ht, ih]
    | some t => simp only [carry, ht, ih, List.cons_append]

/-- The loop over a row goes on with what it carries. -/
theorem walk_append (columns : Vector (Column α) n) (row : Fin m) (side : Side) (position : Nat)
    (bound total : α) (before after : List (Sparse.Cell α n)) :
    walk columns row side position bound total (before ++ after) =
      walk columns row side position bound total before ++
        walk columns row side (position + before.length)
          ((before.zipIdx position).foldl (carry columns row side) (bound, total)).1
          ((before.zipIdx position).foldl (carry columns row side) (bound, total)).2 after := by
  simp only [walk_eq_visit, List.zipIdx_append, visit_append]

theorem propose?_congr {columns columns' : Vector (Column α) n}
    (h : ∀ j, (columns.get j).Alike (columns'.get j)) (row : Fin m) (side : Side) (bound total : α)
    (entry : Sparse.Cell α n × Nat) :
    propose? columns' row side bound total entry = propose? columns row side bound total entry := by
  unfold propose? isCandidate extremeBound
  simp only [(h _).range, (h _).isCandidate]

end Tightening

end Definitions

/-! ### The two ways to judge an entry -/

namespace Extended

theorem finite_add_sub (p q : ℚ) (a : Extended) :
    finite p + a - finite q = finite (p - q) + a := by
  cases a with
  | finite r =>
    simp only [finite_add, finite_sub]
    ring_nf
  | infinite s => rfl
  | nan => rfl

end Extended

/-- At a column bound that is not finite the rule changes nothing, whatever the other columns do. -/
theorem shrink_of_special_bound {side : Side} {a : ℚ} {bound others : Extended}
    {range : Interval Extended}
    (h : Scalar.isFinite (range.bound (side.facing (finite a))) = false) :
    shrink side (finite a) bound range others = (finite a, bound) := by
  apply shrink_of_excess
  rw [Bool.eq_false_iff]
  intro hfin
  obtain ⟨d, hd⟩ := Extended.isFinite_iff.mp hfin
  obtain ⟨-, -, next, hnext⟩ := RoundedScalar.finite_of_denote_excess (α := Extended) hd
  obtain ⟨t, ht⟩ := RoundedScalar.finite_of_denote_inward (α := Extended) hnext
  change range.bound (side.facing (finite a)) = finite t at ht
  rw [ht] at h
  cases h

variable {m n : Nat}

namespace Formulation

open Tightening

variable {p : Formulation Extended m n} {i : Fin m} {side : Side} {k : Nat}
  {c : Sparse.Cell Extended n} {t : Tightening Extended m n} {e : Sparse.Cell Extended n × Nat}

theorem activityWithout_eq (p : Formulation Extended m n) (i : Fin m) (side : Side) (k : Nat) :
    p.activityWithout i side k =
      (((p.matrix.rows.get i).toList.eraseIdx k).map (extremeTerm p.columns side)).sum :=
  activity_eq_sum _

theorem rowActivity_eq_add (hc : (p.matrix.rows.get i)[k]? = some c) :
    p.rowActivity i side = extremeTerm p.columns side c + p.activityWithout i side k := by
  obtain ⟨hk, rfl⟩ := Array.getElem?_eq_some_iff.mp hc
  have hlt : k < (p.matrix.rows.get i).toList.length := by simpa using hk
  rw [rowActivity_eq, activityWithout_eq, ← List.sum_cons, ← List.map_cons]
  exact ((List.getElem_cons_eraseIdx_perm hlt).map _).sum_eq.symm

theorem extremeTerm_of_nonzero {a : ℚ} (hc : c.value = finite a) (ha : a ≠ 0) :
    extremeTerm p.columns side c = finite a * extremeBound p.columns side c := by
  rw [extremeTerm, hc, isSigned_finite, if_pos (by simpa using ha)]

/-- The rule says the same of an entry for the carried activity less the entry's term and for the
activity of the others. -/
theorem shrink_activityWithout {a : ℚ} (hc : (p.matrix.rows.get i)[k]? = some c)
    (hvalue : c.value = finite a) (ha : a ≠ 0) (bound : Extended) :
    shrink side c.value bound (p.columns.get c.column).range
        (p.rowActivity i side - c.value * extremeBound p.columns side c) =
      shrink side c.value bound (p.columns.get c.column).range (p.activityWithout i side k) := by
  have hsum : p.rowActivity i side =
      finite a * extremeBound p.columns side c + p.activityWithout i side k := by
    rw [rowActivity_eq_add hc, extremeTerm_of_nonzero hvalue ha]
  rw [hvalue, hsum]
  cases hbound : Scalar.isFinite (extremeBound p.columns side c) with
  | true =>
    obtain ⟨u, hu⟩ := Extended.isFinite_iff.mp hbound
    rw [hu, Extended.finite_mul, Extended.finite_add_sub, sub_self, Extended.finite_zero_add]
  | false =>
    rw [extremeBound, hvalue] at hbound
    rw [shrink_of_special_bound hbound, shrink_of_special_bound hbound]

theorem propose?_eq_recompute? (he : (p.matrix.rows.get i)[e.2]? = some e.1)
    (hfin : Scalar.isFinite e.1.value = true) :
    propose? p.columns i side ((p.rows.get i).range.bound side) (p.rowActivity i side) e =
      p.recompute? i side e.2 := by
  obtain ⟨a, ha⟩ := Extended.isFinite_iff.mp hfin
  unfold propose? recompute?
  rw [he]
  dsimp only
  by_cases hzero : a = 0
  · simp [ha, hzero]
  · rw [shrink_activityWithout he ha hzero]
    rfl

/-! ### One change -/

/-- A finite coefficient moves towards zero, and only at a finite column bound. -/
theorem exists_cut_of_isProposed {columns : Vector (Column Extended) n} {bound total : Extended}
    {a : ℚ} (h : IsProposed columns i side bound total e t) (ha : e.1.value = finite a) :
    ∃ b u, t.new = finite b ∧ (0 ≤ b ∧ b < a ∨ a < b ∧ b ≤ 0) ∧
      extremeBound columns side e.1 = finite u := by
  have hold : t.old = finite a := h.old_eq.trans ha
  have hcarries : CarriesInfinite columns side [e] total := by
    intro e' he' s hs
    rw [List.mem_singleton.mp he', ha] at hs
    cases hs
  obtain ⟨a', b, hcut⟩ := h.exists_isCut (List.mem_singleton.mpr rfl) hcarries
    (by rw [hold]; exact Extended.noConfusion)
  obtain rfl : a' = a := Extended.finite.inj (hcut.old_eq.symm.trans hold)
  have hnew : t.new = finite b := hcut.new_eq
  obtain ⟨u, hu⟩ : ∃ u, extremeBound columns side e.1 = finite u := by
    rw [← Extended.isFinite_iff]
    by_contra hspecial
    rw [Bool.not_eq_true, extremeBound, ha] at hspecial
    have hshrunk := h.shrunk
    rw [ha, shrink_of_special_bound hspecial, hnew, Prod.mk.injEq, Extended.finite.injEq] at hshrunk
    rcases hcut.closer with ⟨-, hlt⟩ | ⟨hlt, -⟩
    · exact hlt.ne hshrunk.1.symm
    · exact hlt.ne hshrunk.1
  exact ⟨b, u, hnew, hcut.closer, hu⟩

/-- A coefficient between zero and another one has its term at the same column bound. -/
theorem extremeTerm_of_closer {a b u : ℚ} (hvalue : c.value = finite b)
    (hcloser : 0 ≤ b ∧ b < a ∨ a < b ∧ b ≤ 0)
    (hu : (p.columns.get c.column).range.bound (side.facing (finite a)) = finite u) :
    extremeTerm p.columns side c = finite (b * u) := by
  by_cases hb : b = 0
  · simp [extremeTerm, hvalue, hb, isSigned_finite]
  · have hface : side.facing (finite b) = side.facing (finite a) := by
      rcases hcloser with ⟨h0, hlt⟩ | ⟨hlt, h0⟩
      · rw [side.facing_of_pos (lt_of_le_of_ne h0 (Ne.symm hb)),
          side.facing_of_pos (h0.trans_lt hlt)]
      · rw [side.facing_of_neg (lt_of_le_of_ne h0 hb), side.facing_of_neg (hlt.trans_le h0)]
    rw [extremeTerm_of_nonzero hvalue hb, extremeBound, hvalue, hface, hu, Extended.finite_mul]

theorem get_cells_commit (p : Formulation Extended m n) (t : Tightening Extended m n) (i : Fin m) :
    (p.commit t).matrix.rows.get i =
      if t.row = i then (p.matrix.rows.get i).modify t.position fun c => { c with value := t.new }
      else p.matrix.rows.get i := by
  have hstate := congrArg RowState.cells (p.rowState_commit t i)
  rw [apply_ite RowState.cells] at hstate
  exact hstate

/-- What a change makes of the bound and the activity of its row is what is carried on. -/
theorem carry_eq (he : (p.matrix.rows.get i)[e.2]? = some e.1)
    (hfin : Scalar.isFinite e.1.value = true)
    (ht : p.recompute? i side e.2 = some t) :
    ((p.commit t).rows.get i).range.bound side = t.newBound ∧
      (p.commit t).rowActivity i side =
        p.rowActivity i side - (t.old - t.new) * extremeBound p.columns side e.1 := by
  have hprop : IsProposed p.columns i side ((p.rows.get i).range.bound side)
      (p.rowActivity i side) e t :=
    isProposed_of_propose? (by rw [propose?_eq_recompute? he hfin, ht])
  have hcells : (p.commit t).matrix.rows.get i =
      (p.matrix.rows.get i).modify e.2 fun c => { c with value := t.new } := by
    rw [get_cells_commit, if_pos hprop.row_eq, hprop.position_eq]
  have hrange : ((p.commit t).rows.get i).range =
      (p.rows.get i).range.setBound t.newBound side := by
    have hstate := p.rowState_commit t i
    rw [if_pos hprop.row_eq] at hstate
    rw [← hprop.side_eq]
    exact congrArg RowState.range hstate
  refine ⟨by rw [hrange, Interval.bound_setBound], ?_⟩
  obtain ⟨a, ha⟩ := Extended.isFinite_iff.mp hfin
  obtain ⟨b, u, hnew, hcloser, hu⟩ := exists_cut_of_isProposed hprop ha
  have ha0 : a ≠ 0 := by
    rcases hcloser with ⟨h0, hlt⟩ | ⟨hlt, h0⟩
    · exact (h0.trans_lt hlt).ne'
    · exact (hlt.trans_le h0).ne
  have hterm : extremeTerm (p.commit t).columns side { e.1 with value := t.new } =
      finite (b * u) := by
    refine extremeTerm_of_closer hnew hcloser ?_
    rw [(p.alike_commit t e.1.column).range, ← ha]
    exact hu
  have hother : (p.commit t).activityWithout i side e.2 = p.activityWithout i side e.2 := by
    unfold activityWithout
    simp only [hcells, Array.toList_modify, List.eraseIdx_modify_of_eq, (p.alike_commit t _).range]
  have hat : ((p.commit t).matrix.rows.get i)[e.2]? = some { e.1 with value := t.new } := by
    rw [hcells, Array.getElem?_modify, if_pos rfl, he, Option.map_some]
  rw [rowActivity_eq_add hat, rowActivity_eq_add he, hterm, hother, extremeTerm_of_nonzero ha ha0,
    hprop.old_eq, ha, hnew, hu, Extended.finite_mul, Extended.finite_sub, Extended.finite_mul,
    Extended.finite_add_sub]
  ring_nf

/-! ### A row -/

/-- Some entries of a row, none of them visited yet. -/
structure IsAhead (p : Formulation Extended m n) (i : Fin m)
    (order : List (Sparse.Cell Extended n × Nat)) : Prop where
  stored : ∀ e ∈ order, (p.matrix.rows.get i)[e.2]? = some e.1
  finite : ∀ e ∈ order, Scalar.isFinite e.1.value = true
  nodup : (order.map (·.2)).Nodup

theorem IsAhead.tail {rest : List (Sparse.Cell Extended n × Nat)}
    (h : p.IsAhead i (e :: rest)) : p.IsAhead i rest where
  stored e' he' := h.stored e' (List.mem_cons_of_mem _ he')
  finite e' he' := h.finite e' (List.mem_cons_of_mem _ he')
  nodup := (List.nodup_cons.mp h.nodup).2

/-- A change of the first entry leaves the others unvisited. -/
theorem IsAhead.commit {rest : List (Sparse.Cell Extended n × Nat)} (h : p.IsAhead i (e :: rest))
    (ht : t.position = e.2) : (p.commit t).IsAhead i rest where
  stored e' he' := by
    have hne : t.position ≠ e'.2 := by
      rw [ht]
      exact fun heq => (List.nodup_cons.mp h.nodup).1 (List.mem_map.mpr ⟨e', he', heq.symm⟩)
    have hstored := h.stored e' (List.mem_cons_of_mem _ he')
    rw [get_cells_commit]
    split
    · rwa [Array.getElem?_modify, if_neg hne]
    · exact hstored
  finite := h.tail.finite
  nodup := h.tail.nodup

theorem position_of_recompute? (ht : p.recompute? i side k = some t) : t.position = k := by
  unfold recompute? at ht
  split at ht
  · cases ht
  · split at ht
    · dsimp only at ht
      split at ht
      · cases ht
      · rw [← Option.some.inj ht]
    · cases ht

/-- Along a row both passes make the same changes, and what is carried is the bound and the activity
of the row as it stands. -/
theorem recomputeAt_eq (side : Side) {columns : Vector (Column Extended) n}
    {order : List (Sparse.Cell Extended n × Nat)}
    (hcolumns : ∀ j, (columns.get j).Alike (p.columns.get j)) (h : p.IsAhead i order) :
    let changes :=
      visit columns i side ((p.rows.get i).range.bound side) (p.rowActivity i side) order
    let q := changes.foldl Formulation.commit p
    p.recomputeAt i side (order.map (·.2)) = (q, changes) ∧
      order.foldl (carry columns i side) ((p.rows.get i).range.bound side, p.rowActivity i side) =
        ((q.rows.get i).range.bound side, q.rowActivity i side) := by
  induction order generalizing p with
  | nil => exact ⟨rfl, rfl⟩
  | cons e rest ih =>
    have he := h.stored e List.mem_cons_self
    have hfin := h.finite e List.mem_cons_self
    have hsame : propose? columns i side ((p.rows.get i).range.bound side)
        (p.rowActivity i side) e = p.recompute? i side e.2 := by
      rw [← propose?_congr hcolumns, propose?_eq_recompute? he hfin]
    rw [List.map_cons, recomputeAt, visit, List.foldl_cons, carry, hsame]
    cases ht : p.recompute? i side e.2 with
    | none => exact ih hcolumns h.tail
    | some t =>
      obtain ⟨hbound, hactivity⟩ := carry_eq he hfin ht
      have hextreme : extremeBound columns side e.1 = extremeBound p.columns side e.1 := by
        rw [extremeBound, extremeBound, (hcolumns e.1.column).range]
      obtain ⟨hrest, hcarry⟩ := ih (p := p.commit t)
        (fun j => (hcolumns j).trans (p.alike_commit t j)) (h.commit (position_of_recompute? ht))
      rw [hbound, hactivity, ← hextreme] at hrest hcarry
      dsimp only
      rw [hrest, hcarry]
      exact ⟨rfl, rfl⟩

theorem isAhead_entries {q : Formulation Extended m n} (hrow : q.rowState i = p.rowState i)
    (hfin : ∀ c ∈ (p.matrix.rows.get i).toList, Scalar.isFinite c.value = true)
    {order : List (Sparse.Cell Extended n × Nat)} (h : order.Sublist (p.entries i)) :
    q.IsAhead i order where
  stored e he := by
    rw [cells_eq hrow]
    exact getElem?_of_mem_entries (h.subset he)
  finite e he := hfin e.1 (List.fst_mem_of_mem_zipIdx (h.subset he))
  nodup := (nodup_of_perm_zipIdx (List.Perm.refl _)).sublist (h.map _)

theorem recomputeRow_eq
    (hfin : ∀ c ∈ (p.matrix.rows.get i).toList, Scalar.isFinite c.value = true) :
    p.recomputeRow i = ((p.rowTightenings i).foldl Formulation.commit p, p.rowTightenings i) := by
  rw [recomputeRow, rowTightenings_eq]
  cases hside : (p.rows.get i).range.onlySide? with
  | none => simp only [rowTighteningsIn, hside, List.foldl_nil]
  | some side =>
    have hpositions : List.range (p.matrix.rows.get i).size = (p.entries i).map (·.2) := by
      rw [entries, List.zipIdx_map_snd, List.range_eq_range', Array.length_toList]
    rw [rowTighteningsIn_eq_visit hside, activity_order (List.Perm.refl _)]
    dsimp only
    rw [hpositions]
    exact (recomputeAt_eq side (fun _ => .refl _) (isAhead_entries rfl hfin (.refl _))).1

/-! ### All rows -/

/-- The changes of one row leave all coefficients finite: they do to the row what the whole pass
does, and nothing to the others. -/
theorem HasFiniteCoefficients.foldl_commit (hfin : p.HasFiniteCoefficients) (i : Fin m) :
    ((p.rowTightenings i).foldl Formulation.commit p).HasFiniteCoefficients := by
  intro i'
  by_cases heq : i = i'
  · subst heq
    rw [← cells_eq (p.agreesAt_foldl_commit i).row]
    exact hfin.tighten i
  · have hne : ∀ t ∈ p.rowTightenings i, t.row ≠ i' := fun t ht hrow =>
      heq ((row_of_mem_rowTightenings ht).symm.trans hrow)
    rw [cells_eq (rowState_foldl_commit_of_ne _ p i' hne)]
    exact hfin i'

theorem recomputeRows_eq (rows : List (Fin m)) (hfin : p.HasFiniteCoefficients) :
    p.recomputeRows rows = p.tightenRows rows := by
  induction rows generalizing p with
  | nil => rfl
  | cons i rest ih =>
    rw [recomputeRows, recomputeRow_eq (hfin i), tightenRows]
    dsimp only
    rw [ih (hfin.foldl_commit i)]

/-- Along a row of the pass, what is carried past some entries is the bound and the activity that
the row has once their changes are carried out. -/
theorem carried_eq (hfin : p.HasFiniteCoefficients)
    (hside : (p.rows.get i).range.onlySide? = some side)
    {before after : List (Sparse.Cell Extended n)}
    (hcells : (p.matrix.rows.get i).toList = before ++ after) :
    let bound := (p.rows.get i).range.bound side
    let total := p.rowActivity i side
    let carried := before.zipIdx.foldl (carry p.columns i side) (bound, total)
    let changes := walk p.columns i side 0 bound total before
    let q := changes.foldl Formulation.commit (p.reached i)
    p.rowTightenings i =
        changes ++ walk p.columns i side before.length carried.1 carried.2 after ∧
      carried = ((q.rows.get i).range.bound side, q.rowActivity i side) := by
  intro bound total carried changes q
  have hreached := p.agreesAt_reached i
  constructor
  · have happend := walk_append p.columns i side 0 bound total before after
    rw [Nat.zero_add, ← hcells, walk_eq_visit] at happend
    rw [rowTightenings_eq, rowTighteningsIn_eq_visit hside, activity_order (List.Perm.refl _)]
    exact happend
  · have hahead : (p.reached i).IsAhead i before.zipIdx := by
      refine isAhead_entries hreached.row (hfin i) ?_
      rw [entries, hcells, List.zipIdx_append]
      exact List.sublist_append_left _ _
    have hbound : ((p.reached i).rows.get i).range.bound side = bound := by
      rw [range_eq hreached.row]
    have htotal : (p.reached i).rowActivity i side = total := by
      unfold rowActivity rowTerms
      simp only [total, rowActivity, rowTerms, cells_eq hreached.row, (hreached.columns _).range]
    have hcarried := (recomputeAt_eq side hreached.columns hahead).2
    rw [hbound, htotal, ← walk_eq_visit] at hcarried
    exact hcarried

/-- With finite coefficients, carrying an activity along is as good as adding it up anew: the data
and the records are the same, and at every entry the carried bound and activity are those of the row
as it stands there. -/
theorem tighteningPass_eq_recomputed (p : Formulation Extended m n)
    (hfin : p.HasFiniteCoefficients) :
    p.tighteningPass.data = p.recomputed.1 ∧
    p.tighteningPass.reductions = p.recomputed.2.flatMap Tightening.reductions ∧
    ∀ i side, (p.rows.get i).range.onlySide? = some side →
      ∀ before after, (p.matrix.rows.get i).toList = before ++ after →
      let bound := (p.rows.get i).range.bound side
      let total := p.rowActivity i side
      let carried := before.zipIdx.foldl (carry p.columns i side) (bound, total)
      let changes := walk p.columns i side 0 bound total before
      let q := changes.foldl Formulation.commit (p.reached i)
      p.rowTightenings i =
          changes ++ walk p.columns i side before.length carried.1 carried.2 after ∧
        carried = ((q.rows.get i).range.bound side, q.rowActivity i side) := by
  have hrun : p.recomputed = p.tightenRows (List.finRange m) := recomputeRows_eq _ hfin
  refine ⟨?_, ?_, fun i side hside before after hcells => carried_eq hfin hside hcells⟩
  · rw [hrun]
    rfl
  · rw [hrun]
    rfl

/-- Without a carried activity the mixed row comes out as `2 x₀ - 2 x₁ + x₂ ≤ 5` too. -/
theorem mixedRow_recomputed :
    (mixedRow 10 2).recomputed.1.rowState 0 =
      ⟨#[⟨0, 0, finite 2⟩, ⟨1, 0, finite (-2)⟩, ⟨2, 0, finite 1⟩], ⟨infinite true, finite 5⟩⟩ ∧
    ((mixedRow 10 2).recomputed.2.flatMap Tightening.reductions).length = 4 := by
  obtain ⟨hdata, hreductions, -⟩ :=
    tighteningPass_eq_recomputed (mixedRow 10 2) (by decide +kernel)
  rw [← hdata, ← hreductions]
  decide +kernel

end Formulation

end CoefficientTightening
