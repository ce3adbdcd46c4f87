import CoefficientTightening.Proofs.WholeNumbers

/-! Rows of whole numbers. The weight of a row is the size of its bound together with the weight of
its entries. It does not grow from change to change, nor from pass to pass, so in a row of weight at
most `2 ^ 53` only small whole numbers are ever computed. -/
namespace CoefficientTightening

open Extended (finite)

/-! ### One change of a row -/

theorem sum_map_modify {β : Type} (w : β → ℚ) {f : β → β} {xs : Array β} {k : Nat} {x : β}
    (hk : xs[k]? = some x) :
    ((xs.modify k f).toList.map w).sum = (xs.toList.map w).sum - w x + w (f x) := by
  obtain ⟨before, after, hxs, hmodify⟩ := exists_toList_modify f hk
  rw [hmodify, hxs]
  simp only [List.map_append, List.map_cons, List.sum_append, List.sum_cons]
  ring

section Rows

variable {m n : Nat}

open Tightening (cellWeight IsWholeCell)

/-- Size of the bound of a row, and the weight of its entries. -/
def RowState.weight (columns : Vector (Column Extended) n) (side : Side)
    (s : RowState Extended n) : ℚ :=
  |(s.range.bound side).toRat| + (s.cells.toList.map (cellWeight columns)).sum

/-- A row with one finite side, of whole numbers that weigh at most `2 ^ 53`. -/
structure RowState.IsWholeRow (columns : Vector (Column Extended) n) (side : Side)
    (s : RowState Extended n) : Prop where
  side_eq : s.range.onlySide? = some side
  bound : (s.range.bound side).IsWholeNumber
  cells : ∀ c ∈ s.cells.toList, IsWholeCell columns c
  weight_le : s.weight columns side ≤ 2 ^ 53

instance (columns : Vector (Column Extended) n) (side : Side) (s : RowState Extended n) :
    Decidable (s.IsWholeRow columns side) :=
  decidable_of_iff (s.range.onlySide? = some side ∧ (s.range.bound side).IsWholeNumber ∧
      (∀ c ∈ s.cells.toList, IsWholeCell columns c) ∧ s.weight columns side ≤ 2 ^ 53)
    ⟨fun h => ⟨h.1, h.2.1, h.2.2.1, h.2.2.2⟩,
      fun h => ⟨h.side_eq, h.bound, h.cells, h.weight_le⟩⟩

/-- A change that leaves whole numbers, and takes from the coefficient in size what it adds to the
bound. -/
structure Tightening.IsWholeCut (columns : Vector (Column Extended) n) (side : Side)
    (t : Tightening Extended m n) : Prop where
  side_eq : t.side = side
  nonzero : t.old ≠ finite 0
  new : t.new.IsWholeNumber
  newBound : t.newBound.IsWholeNumber
  weight_le : |t.newBound.toRat| + |t.new.toRat| * (1 + (columns.get t.column).range.reach) ≤
    |t.oldBound.toRat| + |t.old.toRat| * (1 + (columns.get t.column).range.reach)

variable {columns columns' : Vector (Column Extended) n} {side : Side} {s : RowState Extended n}
  {t : Tightening Extended m n} {slot : Nat}

theorem RowState.weight_change_le (ht : t.IsWholeCut columns side)
    (hcell : s.cells[t.position]? = some ⟨t.column, slot, t.old⟩)
    (hbound : s.range.bound t.side = t.oldBound) :
    (s.change t).weight columns side ≤ s.weight columns side := by
  have hle := ht.weight_le
  unfold RowState.weight RowState.change
  rw [sum_map_modify _ hcell, ← ht.side_eq, Interval.bound_setBound, hbound]
  simp only [cellWeight]
  linarith

theorem RowState.IsWholeRow.change (h : s.IsWholeRow columns side) (ht : t.IsWholeCut columns side)
    (hcell : s.cells[t.position]? = some ⟨t.column, slot, t.old⟩)
    (hbound : s.range.bound t.side = t.oldBound) : (s.change t).IsWholeRow columns side where
  side_eq := by
    obtain ⟨b, hb, -⟩ := ht.newBound
    rw [RowState.change, ht.side_eq, hb]
    exact Interval.onlySide?_setBound h.side_eq rfl
  bound := by
    rw [RowState.change, ht.side_eq, Interval.bound_setBound]
    exact ht.newBound
  cells := by
    obtain ⟨before, after, hcells, hmodify⟩ :=
      exists_toList_modify (fun c => { c with value := t.new }) hcell
    have hall := h.cells
    rw [hcells, List.forall_mem_append, List.forall_mem_cons] at hall
    rw [RowState.change, hmodify, List.forall_mem_append, List.forall_mem_cons]
    exact ⟨hall.1, ⟨ht.new, fun _ => hall.2.1.bound ht.nonzero⟩, hall.2.2⟩
  weight_le := (RowState.weight_change_le ht hcell hbound).trans h.weight_le

theorem Tightening.IsProposed.isWholeCut {row : Fin m} {b T : ℚ} {e : Sparse.Cell Extended n × Nat}
    (hc : IsWholeCell columns e.1) (hb : IsWhole b) (hT : IsWhole T)
    (h : IsProposed columns row side (finite b) (finite T) e t) :
    t.IsWholeCut columns side ∧
      (finite T - (t.old - t.new) * extremeBound columns side e.1).IsWholeNumber := by
  obtain ⟨a, τ, hv, ha0, ha, hrange, hτ, hM⟩ := hc.exists_extreme (h.old_eq ▸ h.nonzero) side
  have hextreme : extremeBound columns side e.1 = finite τ := by rw [extremeBound, hv, hrange]
  have hshrunk := h.shrunk
  rw [hextreme, hv, Extended.finite_mul, Extended.finite_sub] at hshrunk
  obtain ⟨a', ha', habs, heq⟩ :=
    Computed.exists_shrink_eq ha hb (hT.sub (ha.mul hτ)) hτ hrange
  obtain ⟨hnew, hbound⟩ := Prod.mk.inj (hshrunk.symm.trans heq)
  have hold := h.old_eq.trans hv
  have hloss := (ha.sub ha').mul hτ
  refine ⟨⟨h.side_eq, ?_, ⟨a', hnew, ha'⟩, ⟨_, hbound, hb.sub hloss⟩, ?_⟩, ?_⟩
  · rw [hold]
    simpa using ha0
  · have hmoved : |b - (a - a') * τ| + |a'| * _ ≤ |b| + |a| * _ := abs_bound_add_le habs hM
    have hcut0 := abs_nonneg (a - a')
    simp only [hold, hnew, hbound, h.oldBound_eq, h.column_eq, Extended.toRat_finite]
    linarith
  · rw [hextreme, hold, hnew, Extended.finite_sub, Extended.finite_mul, Extended.finite_sub]
    exact ⟨_, rfl, hT.sub hloss⟩

theorem Tightening.IsWholeCut.congr (ht : t.IsWholeCut columns side)
    (h : ∀ j, (columns.get j).Alike (columns'.get j)) : t.IsWholeCut columns' side where
  side_eq := ht.side_eq
  nonzero := ht.nonzero
  new := ht.new
  newBound := ht.newBound
  weight_le := by
    rw [(h t.column).range]
    exact ht.weight_le

theorem RowState.weight_congr (h : ∀ j, (columns.get j).Alike (columns'.get j)) (side : Side)
    (s : RowState Extended n) :
    s.weight columns' side = s.weight columns side := by
  have hcell : cellWeight columns' = cellWeight columns :=
    funext fun c => by rw [cellWeight, cellWeight, (h c.column).range]
  rw [RowState.weight, RowState.weight, hcell]

theorem RowState.IsWholeRow.congr (h : s.IsWholeRow columns side)
    (halike : ∀ j, (columns.get j).Alike (columns'.get j)) :
    s.IsWholeRow columns' side where
  side_eq := h.side_eq
  bound := h.bound
  cells c hc := ⟨(h.cells c hc).value, by
    rw [(halike c.column).range]
    exact (h.cells c hc).bound⟩
  weight_le := by
    rw [RowState.weight_congr halike]
    exact h.weight_le

end Rows

/-! ### A row in exact arithmetic -/

namespace Formulation

open Tightening

variable {m n : Nat}

section Definitions

def rowWeight (p : Formulation Extended m n) (i : Fin m) (side : Side) : ℚ :=
  (p.rowState i).weight p.columns side

def IsWholeRow (p : Formulation Extended m n) (i : Fin m) (side : Side) : Prop :=
  (p.rowState i).IsWholeRow p.columns side

instance (p : Formulation Extended m n) (i : Fin m) (side : Side) :
    Decidable (p.IsWholeRow i side) :=
  inferInstanceAs (Decidable ((p.rowState i).IsWholeRow p.columns side))

end Definitions

variable {p : Formulation Extended m n} {i : Fin m} {side : Side} {t : Tightening Extended m n}

theorem rowWeight_eq (p : Formulation Extended m n) (i : Fin m) (side : Side) :
    p.rowWeight i side = |((p.rows.get i).range.bound side).toRat| +
      ((p.matrix.rows.get i).toList.map (cellWeight p.columns)).sum := rfl

theorem IsWholeRow.wholeCells (h : p.IsWholeRow i side) :
    ∀ c ∈ (p.matrix.rows.get i).toList, IsWholeCell p.columns c := h.cells

theorem IsWholeRow.onlySide?_eq (h : p.IsWholeRow i side) :
    (p.rows.get i).range.onlySide? = some side := h.side_eq

theorem IsWholeRow.rowActivity_eq (h : p.IsWholeRow i side) (side' : Side) :
    p.rowActivity i side' =
      finite ((p.matrix.rows.get i).toList.map (extremeValue p.columns side')).sum := by
  rw [Formulation.rowActivity_eq,
    sum_extremeTerm fun c hc => (h.wholeCells c hc).isRegular side']
  rfl

/-- Only small whole numbers are computed in a row of whole numbers. -/
theorem IsWholeRow.isSmall_rowTightenings (h : p.IsWholeRow i side) :
    (Computed.rowTightenings p i).IsSmall := by
  obtain ⟨b, hb, hbwhole⟩ := h.bound
  have hbound : (p.rows.get i).range.bound side = finite b := hb
  have hle : p.rowWeight i side ≤ 2 ^ 53 := h.weight_le
  rw [rowWeight_eq, hbound, Extended.toRat_finite] at hle
  have hb0 := abs_nonneg b
  have hactivity : ∀ side', (Computed.activity side' (p.rowTerms i)).IsSmall := fun side' =>
    Computed.isSmall_activityFrom h.wholeCells ⟨0, Int.cast_zero⟩ (by rw [abs_zero]; linarith)
  have htotal : ∀ side', (Computed.activity side' (p.rowTerms i)).result = finite
      (0 + ((p.matrix.rows.get i).toList.map (extremeValue p.columns side')).sum) := by
    intro side'
    rw [Computed.result_activity, zero_add]
    exact h.rowActivity_eq side'
  have hwalk : (Computed.walk p.columns i side 0 (finite b) (finite
      (0 + ((p.matrix.rows.get i).toList.map (extremeValue p.columns side)).sum))
      (p.matrix.rows.get i).toList).IsSmall :=
    Computed.isSmall_walk 0 h.wholeCells hbwhole ⟨0, Int.cast_zero⟩ (by rw [abs_zero]; linarith)
  unfold Computed.rowTightenings
  dsimp only
  rw [h.onlySide?_eq]
  dsimp only
  split
  · refine (hactivity .upper).bind ((hactivity .lower).bind ?_)
    rw [htotal, htotal, hbound]
    cases side <;> exact hwalk
  · exact .pure _

theorem IsWholeRow.isWholeCut (h : p.IsWholeRow i side) (ht : t ∈ p.rowTightenings i) :
    t.IsWholeCut p.columns side := by
  have hcell : ∀ e ∈ p.entries i, IsWholeCell p.columns e.1 := fun e he =>
    h.wholeCells e.1 (List.fst_mem_of_mem_zipIdx he)
  have hactivity : (p.rowActivity i side).IsWholeNumber :=
    ⟨_, h.rowActivity_eq side, Computed.isWhole_sum_extremeValue side h.wholeCells⟩
  rw [rowTightenings_eq, rowTighteningsIn_eq_visit h.onlySide?_eq,
    activity_order (List.Perm.refl _)] at ht
  -- bound and activity stay whole along the row
  have hstep : ∀ e ∈ p.entries i, ∀ b T, ∀ u : Tightening Extended m n,
      b.IsWholeNumber ∧ T.IsWholeNumber → IsProposed p.columns i side b T e u →
      u.newBound.IsWholeNumber ∧
        (T - (u.old - u.new) * extremeBound p.columns side e.1).IsWholeNumber := by
    rintro e he _ _ u ⟨⟨b, rfl, hb⟩, T, rfl, hT⟩ hprop
    obtain ⟨hcut, htotal⟩ := hprop.isWholeCut (hcell e he) hb hT
    exact ⟨hcut.newBound, htotal⟩
  obtain ⟨e, he, _, _, ⟨⟨b, rfl, hb⟩, T, rfl, hT⟩, hprop⟩ :=
    exists_isProposed_of_mem_visit ⟨h.bound, hactivity⟩ hstep ht
  exact (hprop.isWholeCut (hcell e he) hb hT).1

/-- A change keeps the row whole and does not raise its weight. -/
theorem IsWholeRow.commit (h : p.IsWholeRow i side) (hfits : t.Fits p) (hrow : t.row = i)
    (hcut : t.IsWholeCut p.columns side) :
    (p.commit t).IsWholeRow i side ∧ (p.commit t).rowWeight i side ≤ p.rowWeight i side := by
  subst hrow
  obtain ⟨slot, hcell⟩ := hfits.cell
  have halike := p.alike_commit t
  unfold IsWholeRow rowWeight
  rw [rowState_commit, if_pos rfl, RowState.weight_congr halike]
  exact ⟨(RowState.IsWholeRow.change h hcut hcell hfits.bound).congr halike,
    RowState.weight_change_le hcut hcell hfits.bound⟩

theorem IsWholeRow.foldl_commit {ts : List (Tightening Extended m n)} (h : p.IsWholeRow i side)
    (htrace : p.Trace ts) (hts : ∀ t ∈ ts, t.row = i ∧ t.IsWholeCut p.columns side) :
    (ts.foldl Formulation.commit p).IsWholeRow i side ∧
      (ts.foldl Formulation.commit p).rowWeight i side ≤ p.rowWeight i side := by
  induction ts generalizing p with
  | nil => exact ⟨h, le_rfl⟩
  | cons t rest ih =>
    obtain ⟨hrow, hcut⟩ := hts t List.mem_cons_self
    obtain ⟨hnext, hle⟩ := h.commit htrace.1 hrow hcut
    obtain ⟨hlast, hle'⟩ := ih hnext htrace.2 fun u hu =>
      (hts u (List.mem_cons_of_mem _ hu)).imp_right (·.congr (p.alike_commit t))
    exact ⟨hlast, hle'.trans hle⟩

/-- However many changes of the row have been made, the next one does not raise the weight. -/
theorem IsWholeRow.rowWeight_le (h : p.IsWholeRow i side)
    {before after : List (Tightening Extended m n)}
    (hts : p.rowTightenings i = before ++ t :: after) :
    ((before ++ [t]).foldl Formulation.commit p).rowWeight i side ≤
      (before.foldl Formulation.commit p).rowWeight i side := by
  have htrace := p.trace_rowTightenings i
  have hall : ∀ u ∈ before ++ t :: after, u.row = i ∧ u.IsWholeCut p.columns side := by
    intro u hu
    rw [← hts] at hu
    exact ⟨row_of_mem_rowTightenings hu, h.isWholeCut hu⟩
  rw [hts, trace_append] at htrace
  obtain ⟨hbefore, -⟩ := h.foldl_commit htrace.1 fun u hu => hall u (List.mem_append_left _ hu)
  obtain ⟨hrow, hcut⟩ := hall t (List.mem_append_right _ List.mem_cons_self)
  rw [List.foldl_append]
  exact (hbefore.commit htrace.2.1 hrow (hcut.congr (alike_foldl_commit before p))).2

theorem IsWholeRow.congr {q : Formulation Extended m n} (h : p.IsWholeRow i side)
    (hq : AgreesAt i p q) : q.IsWholeRow i side := by
  unfold IsWholeRow
  rw [hq.row]
  exact RowState.IsWholeRow.congr h hq.columns

theorem rowWeight_congr {q : Formulation Extended m n} (hq : AgreesAt i p q) (side : Side) :
    q.rowWeight i side = p.rowWeight i side := by
  rw [rowWeight, hq.row, RowState.weight_congr hq.columns]
  rfl

/-- A pass keeps the row whole and does not raise its weight. -/
theorem IsWholeRow.tighten (h : p.IsWholeRow i side) :
    p.tighten.IsWholeRow i side ∧ p.tighten.rowWeight i side ≤ p.rowWeight i side := by
  obtain ⟨hwhole, hle⟩ := h.foldl_commit (p.trace_rowTightenings i) fun t ht =>
    ⟨row_of_mem_rowTightenings ht, h.isWholeCut ht⟩
  have hpass := p.agreesAt_foldl_commit i
  exact ⟨hwhole.congr hpass, (rowWeight_congr hpass side).le.trans hle⟩

theorem IsWholeRow.tighten_iterate (h : p.IsWholeRow i side) (k : Nat) :
    (Formulation.tighten^[k] p).IsWholeRow i side ∧
      (Formulation.tighten^[k] p).rowWeight i side ≤ p.rowWeight i side := by
  induction k with
  | zero => exact ⟨h, le_rfl⟩
  | succ k ih =>
    rw [Function.iterate_succ_apply']
    exact ⟨ih.1.tighten.1, ih.1.tighten.2.trans ih.2⟩

end Formulation

end CoefficientTightening
