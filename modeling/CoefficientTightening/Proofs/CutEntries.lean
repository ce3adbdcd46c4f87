import CoefficientTightening.Proofs.SurplusRule
import CoefficientTightening.Proofs.VisitOrder

/-! The loop over the entries of one row, in exact arithmetic. It changes bound, activity and
coefficients of the row one entry after the other, but the surplus that decides each cut never
changes. Hence the entries are all cut down to one threshold, and the bound moves by the sum of the
cuts, each times the column bound in use. Without a finite surplus that is not negative no entry is
cut: a term that is not finite makes a NaN of the activity of the other columns. -/
namespace CoefficientTightening

open Extended (finite infinite nan)

section Definitions

variable {α : Type} [Scalar α] {m n : Nat}

namespace Tightening

/-- An entry cut down to a threshold if its column may be tightened. -/
def cutCell (columns : Vector (Column α) n) (threshold : α) (c : Sparse.Cell α n) :
    Sparse.Cell α n :=
  if isCandidate columns c then { c with value := clip threshold c.value } else c

/-- By how much the cut of an entry moves the bound of its row. -/
def cutShift (columns : Vector (Column α) n) (side : Side) (threshold : α)
    (c : Sparse.Cell α n) : α :=
  if (cutCell columns threshold c).value == c.value then 0
  else (c.value - (cutCell columns threshold c).value) * extremeBound columns side c

end Tightening

end Definitions

variable {m n : Nat}

namespace Tightening

variable {columns : Vector (Column Extended) n} {row : Fin m} {side : Side} {s b T : ℚ}

/-! ### One entry -/

/-- An entry with a finite coefficient, and with a finite bound in use unless it is zero. -/
structure IsRegular (columns : Vector (Column Extended) n) (side : Side)
    (c : Sparse.Cell Extended n) : Prop where
  value : finite c.value.toRat = c.value
  bound : c.value.toRat ≠ 0 →
    finite (extremeBound columns side c).toRat = extremeBound columns side c

/-- The rational coefficient that a cut leaves. -/
def cutCoef (columns : Vector (Column Extended) n) (s : ℚ) (c : Sparse.Cell Extended n) : ℚ :=
  if isCandidate columns c then clamp s c.value.toRat else c.value.toRat

/-- What the cut of an entry takes off the activity of its row. -/
def cutLoss (columns : Vector (Column Extended) n) (side : Side) (s : ℚ)
    (c : Sparse.Cell Extended n) : ℚ :=
  (c.value.toRat - cutCoef columns s c) * (extremeBound columns side c).toRat

theorem cutCell_eq (h0 : 0 ≤ s) {c : Sparse.Cell Extended n} (hc : finite c.value.toRat = c.value) :
    cutCell columns (finite s) c = { c with value := finite (cutCoef columns s c) } := by
  unfold cutCell cutCoef
  split
  · rw [← clip_finite h0, hc]
  · rw [hc]

theorem value_ne_zero_of_cut (h0 : 0 ≤ s) {c : Sparse.Cell Extended n}
    (h : cutCoef columns s c ≠ c.value.toRat) : c.value.toRat ≠ 0 := by
  intro hz
  apply h
  rw [cutCoef, hz, clamp_of_abs_le (by simpa using h0), ite_self]

theorem cutShift_eq (h0 : 0 ≤ s) {c : Sparse.Cell Extended n} (hc : IsRegular columns side c) :
    cutShift columns side (finite s) c = finite (cutLoss columns side s c) := by
  have hv := hc.value
  unfold cutShift cutLoss
  rw [cutCell_eq h0 hv, ← hv, Extended.finite_beq, Extended.toRat_finite]
  by_cases heq : cutCoef columns s c = c.value.toRat
  · simp [heq]
  · simp only [heq, decide_false, Bool.false_eq_true, if_false]
    conv => lhs; rw [← hc.bound (value_ne_zero_of_cut h0 heq)]
    simp

/-- What is left of the activity of a row after the cut of an entry. -/
theorem total_sub_cut (h0 : 0 ≤ s) {c : Sparse.Cell Extended n} (hc : IsRegular columns side c)
    (hcut : cutCoef columns s c ≠ c.value.toRat) :
    finite T - (finite c.value.toRat - finite (cutCoef columns s c)) *
      extremeBound columns side c = finite (T - cutLoss columns side s c) := by
  rw [← hc.bound (value_ne_zero_of_cut h0 hcut)]
  simp [cutLoss]

/-- What one entry of a row with a surplus that is not negative comes to. -/
theorem propose?_of_nonneg (h0 : 0 ≤ s) (hs : surplus side (finite b) (finite T) = finite s)
    {entry : Sparse.Cell Extended n × Nat} (hc : IsRegular columns side entry.1) :
    propose? columns row side (finite b) (finite T) entry =
      if cutCoef columns s entry.1 = entry.1.value.toRat then none
      else some
        { row, side, position := entry.2, column := entry.1.column
          old := finite entry.1.value.toRat, new := finite (cutCoef columns s entry.1)
          oldBound := finite b, newBound := finite (b - cutLoss columns side s entry.1) } := by
  obtain ⟨c, position⟩ := entry
  obtain ⟨a, hv⟩ : ∃ a, c.value = finite a := ⟨_, hc.value.symm⟩
  by_cases hcand : isCandidate columns c
  · by_cases ha : a = 0
    · have hcut : cutCoef columns s c = 0 := by
        rw [cutCoef, hv, ha]
        simp [clamp_of_abs_le (show |(0 : ℚ)| ≤ s by simpa using h0)]
      simp [propose?, hv, ha, hcut]
    · have hbound : finite (extremeBound columns side c).toRat = extremeBound columns side c :=
        hc.bound (by rwa [hv])
      have ht : (columns.get c.column).range.bound (side.facing (finite a)) =
          finite (extremeBound columns side c).toRat := by
        rw [hbound, extremeBound, hv]
      have hcut : cutCoef columns s c = clamp s a := by rw [cutCoef, if_pos hcand, hv]; rfl
      simp only [propose?, hcand, Bool.true_and]
      rw [← hbound, hv, shrink_of_nonneg ha ht hs h0]
      simp [ha, hcut, cutLoss, hv]
  · have hcut : cutCoef columns s c = c.value.toRat := if_neg hcand
    simp [propose?, hcand, hcut]

/-! ### All entries -/

/-- The loop over the entries of a row. Bound and activity fall together at every cut, so the
surplus that decides the cuts is the same throughout; each entry is still as stored when it is
visited, since no position is visited twice. -/
theorem foldl_change_visit (h0 : 0 ≤ s) {order : List (Sparse.Cell Extended n × Nat)}
    (hreg : ∀ e ∈ order, IsRegular columns side e.1) (hnodup : (order.map (·.2)).Nodup)
    (hs : surplus side (finite b) (finite T) = finite s) {state : RowState Extended n}
    (hb : state.range.bound side = finite b) (hat : ∀ e ∈ order, state.cells[e.2]? = some e.1) :
    (visit columns row side (finite b) (finite T) order).foldl RowState.change state =
      { cells := order.foldl (fun cells e => cells.modify e.2 (cutCell columns (finite s)))
          state.cells
        range := state.range.setBound
          (finite (b - (order.map fun e => cutLoss columns side s e.1).sum)) side } := by
  induction order generalizing b T state with
  | nil =>
    rw [List.map_nil, List.sum_nil, sub_zero, ← hb, Interval.setBound_bound]
    rfl
  | cons e rest ih =>
    have hreg_e := hreg e List.mem_cons_self
    have hcut : cutCell columns (finite s) e.1 =
        { e.1 with value := finite (cutCoef columns s e.1) } := cutCell_eq h0 hreg_e.value
    have hrest : ∀ e' ∈ rest, IsRegular columns side e'.1 :=
      fun e' he' => hreg e' (List.mem_cons_of_mem _ he')
    obtain ⟨hfresh, hnodup⟩ := List.nodup_cons.mp hnodup
    have hat_e := hat e List.mem_cons_self
    rw [visit, propose?_of_nonneg h0 hs hreg_e]
    by_cases hsame : cutCoef columns s e.1 = e.1.value.toRat
    · -- nothing changes, and the cut of this entry is the entry itself
      have hself : cutCell columns (finite s) e.1 = e.1 := by
        rw [hcut, hsame, hreg_e.value]
      have hloss : cutLoss columns side s e.1 = 0 := by
        rw [cutLoss, hsame, sub_self, zero_mul]
      rw [if_pos hsame]
      rw [ih hrest hnodup hs hb fun e' he' => hat e' (List.mem_cons_of_mem _ he')]
      rw [List.foldl_cons, modify_eq_self hat_e hself, List.map_cons, List.sum_cons, hloss,
        zero_add]
    · have hloss := total_sub_cut (T := T) h0 hreg_e hsame
      have hcells : (state.cells.modify e.2 fun c =>
          { c with value := finite (cutCoef columns s e.1) }) =
          state.cells.modify e.2 (cutCell columns (finite s)) := modify_congr hat_e hcut.symm
      rw [if_neg hsame, List.foldl_cons]
      simp only [RowState.change, hloss, hcells]
      rw [ih hrest hnodup (surplus_step hs _) (Interval.bound_setBound _ _ _)]
      · rw [Interval.setBound_setBound, List.foldl_cons, List.map_cons, List.sum_cons, sub_sub]
      · intro e' he'
        have hne : e.2 ≠ e'.2 := fun h => hfresh (List.mem_map.mpr ⟨e', he', h.symm⟩)
        rw [Array.getElem?_modify, if_neg hne]
        exact hat e' (List.mem_cons_of_mem _ he')

/-! ### The activity of a row -/

/-- The most extreme value of an entry's term; a zero looks at no bound. -/
def extremeTerm (columns : Vector (Column Extended) n) (side : Side)
    (c : Sparse.Cell Extended n) : Extended :=
  if isSigned c.value then c.value * extremeBound columns side c else 0

theorem isSigned_finite (a : ℚ) : isSigned (finite a) = decide (a ≠ 0) := by
  rcases lt_trichotomy a 0 with h | rfl | h
  · simp [isSigned, h, h.ne]
  · simp [isSigned]
  · simp [isSigned, h, h.ne']

theorem isSigned_infinite (negative : Bool) : isSigned (infinite negative) = true := by
  cases negative <;> rfl

theorem foldl_addExtreme (terms : List (Extended × Interval Extended)) (start : Extended) :
    terms.foldl (fun sum t => addExtreme side sum t.1 t.2) start =
      start + (terms.map fun t => addExtreme side 0 t.1 t.2).sum := by
  induction terms generalizing start with
  | nil => simp
  | cons t rest ih =>
    have hterm : addExtreme side start t.1 t.2 = start + addExtreme side 0 t.1 t.2 := by
      unfold addExtreme
      split
      · rw [zero_add]
      · exact (add_zero start).symm
    rw [List.foldl_cons, ih, hterm, List.map_cons, List.sum_cons, add_assoc]

/-- An activity is the sum of the extremes of its terms. -/
theorem activity_eq (terms : List (Extended × Interval Extended)) :
    activity side terms = (terms.map fun t => addExtreme side 0 t.1 t.2).sum := by
  rw [activity, foldl_addExtreme, zero_add]

/-- An activity is the sum of the extreme terms, in any order. -/
theorem activity_eq_sum (cells : List (Sparse.Cell Extended n)) :
    activity side (cells.map fun c => (c.value, (columns.get c.column).range)) =
      (cells.map (extremeTerm columns side)).sum := by
  rw [activity_eq, List.map_map]
  congr 1
  apply List.map_congr_left
  intro c _
  simp only [Function.comp_apply, addExtreme, extremeTerm, zero_add, extremeBound]

variable {cells : List (Sparse.Cell Extended n)}

/-- A finite activity has finite coefficients and finite bounds in use. -/
theorem isRegular_of_finite_sum (hsum : (cells.map (extremeTerm columns side)).sum = finite T)
    (hnan : ∀ c ∈ cells, c.value ≠ nan) : ∀ c ∈ cells, IsRegular columns side c := by
  intro c hc
  have hterm := Extended.finite_of_sum hsum (List.mem_map_of_mem hc)
  obtain ⟨q, hq⟩ := Extended.isFinite_iff.mp hterm
  unfold extremeTerm at hq
  cases hv : c.value with
  | finite a =>
    refine ⟨by rw [hv]; rfl, fun ha => ?_⟩
    rw [hv, isSigned_finite, if_pos (by simpa [hv] using ha)] at hq
    obtain ⟨-, t, ht⟩ := Extended.finite_of_mul hq
    rw [ht]
    rfl
  | infinite negative =>
    rw [hv, isSigned_infinite, if_pos rfl] at hq
    obtain ⟨⟨a, ha⟩, -⟩ := Extended.finite_of_mul hq
    cases ha
  | nan => exact absurd hv (hnan c hc)

/-- The activity of regular entries, as a rational. -/
theorem sum_extremeTerm (hreg : ∀ c ∈ cells, IsRegular columns side c) :
    (cells.map (extremeTerm columns side)).sum =
      finite (cells.map fun c => c.value.toRat * (extremeBound columns side c).toRat).sum := by
  rw [← Extended.sum_map_finite]
  congr 1
  apply List.map_congr_left
  intro c hc
  have hv := (hreg c hc).value
  unfold extremeTerm
  by_cases ha : c.value.toRat = 0
  · rw [← hv, isSigned_finite]
    simp [ha]
  · rw [← hv, isSigned_finite, if_pos (by simpa using ha), ← (hreg c hc).bound ha]
    simp

/-- The bound in use is the same after a cut, as long as anything is left of the coefficient. -/
theorem extremeBound_cutCell {columns' : Vector (Column Extended) n}
    (halike : ∀ j, (columns.get j).Alike (columns'.get j)) (h0 : 0 ≤ s)
    {c : Sparse.Cell Extended n} (hc : finite c.value.toRat = c.value)
    (hcut : cutCoef columns s c ≠ 0) :
    extremeBound columns' side (cutCell columns (finite s) c) = extremeBound columns side c := by
  have hface : side.facing (finite (cutCoef columns s c)) = side.facing c.value := by
    rw [← hc]
    unfold cutCoef at hcut ⊢
    split
    · next hcand =>
      rw [if_pos hcand] at hcut
      exact side.facing_clamp h0 hcut
    · rfl
  rw [cutCell_eq h0 hc]
  unfold extremeBound
  rw [(halike c.column).range, hface]

theorem extremeTerm_cutCell {columns' : Vector (Column Extended) n}
    (halike : ∀ j, (columns.get j).Alike (columns'.get j)) (h0 : 0 ≤ s)
    {c : Sparse.Cell Extended n} (hreg : IsRegular columns side c) :
    extremeTerm columns' side (cutCell columns (finite s) c) =
      finite (cutCoef columns s c * (extremeBound columns side c).toRat) := by
  have hvalue : (cutCell columns (finite s) c).value = finite (cutCoef columns s c) := by
    rw [cutCell_eq h0 hreg.value]
  unfold extremeTerm
  rw [hvalue, isSigned_finite]
  by_cases hcut : cutCoef columns s c = 0
  · simp [hcut]
  · have ha : c.value.toRat ≠ 0 := by
      intro hz
      apply hcut
      by_cases heq : cutCoef columns s c = c.value.toRat
      · rw [heq, hz]
      · exact absurd hz (value_ne_zero_of_cut h0 heq)
    rw [if_pos (by simpa using hcut), extremeBound_cutCell halike h0 hreg.value hcut,
      ← hreg.bound ha]
    simp

/-- The activity of a row falls by what its cuts take off. -/
theorem sum_extremeTerm_cutCell {columns' : Vector (Column Extended) n}
    (halike : ∀ j, (columns.get j).Alike (columns'.get j)) (h0 : 0 ≤ s)
    (hreg : ∀ c ∈ cells, IsRegular columns side c)
    (hsum : (cells.map (extremeTerm columns side)).sum = finite T) :
    ((cells.map (cutCell columns (finite s))).map (extremeTerm columns' side)).sum =
      finite (T - (cells.map (cutLoss columns side s)).sum) := by
  rw [sum_extremeTerm hreg, Extended.finite.injEq] at hsum
  have hterms : (cells.map (cutCell columns (finite s))).map (extremeTerm columns' side) =
      cells.map fun c => finite (cutCoef columns s c * (extremeBound columns side c).toRat) := by
    rw [List.map_map]
    exact List.map_congr_left fun c hc => extremeTerm_cutCell halike h0 (hreg c hc)
  rw [hterms, Extended.sum_map_finite, Extended.finite.injEq, ← hsum, eq_sub_iff_add_eq,
    ← List.sum_map_add]
  congr 1
  apply List.map_congr_left
  intro c _
  unfold cutLoss
  ring

/-- Without a finite surplus that is not negative, no entry is changed. -/
theorem visit_eq_nil_of_surplus {bound : Extended}
    {order : List (Sparse.Cell Extended n × Nat)} (hnan : ∀ e ∈ order, e.1.value ≠ nan)
    (hs : ∀ s, surplus side bound (order.map fun e => extremeTerm columns side e.1).sum = finite s →
      s < 0) :
    visit columns row side bound (order.map fun e => extremeTerm columns side e.1).sum order =
      [] := by
  apply visit_eq_nil
  intro e he
  by_cases hzero : e.1.value = finite 0
  · exact propose?_of_zero (by rw [hzero]; rfl)
  · have hsigned : isSigned e.1.value = true := by
      cases hv : e.1.value with
      | finite a => simpa [isSigned_finite, hv] using hzero
      | infinite negative => exact isSigned_infinite negative
      | nan => exact absurd hv (hnan e he)
    have hterm : e.1.value * extremeBound columns side e.1 ∈
        order.map fun e => extremeTerm columns side e.1 := by
      refine List.mem_map.mpr ⟨e, he, ?_⟩
      rw [extremeTerm, if_pos hsigned]
    apply propose?_of_shrink
    rw [extremeBound,
      shrink_eq_self (hnan e he) hzero (Extended.sum_sub_of_not_finite hterm) hs]
    exact Extended.beq_iff.mpr ⟨rfl, hnan e he⟩

end Tightening

end CoefficientTightening
