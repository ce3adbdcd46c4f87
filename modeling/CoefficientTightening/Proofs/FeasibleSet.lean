import CoefficientTightening.Proofs.Points
import Mathlib.Algebra.Order.BigOperators.Group.List
import Mathlib.Data.Fin.VecNotation

/-! What tightening does to the points of a formulation, in exact arithmetic. A row that is cut at
its surplus asks the same of a point as before, but with the sizes of the cut coefficients; so no
point is gained. A point that is whole where columns may be tightened is not lost either, provided
that the column bounds are whole there: away from its bound a cut column alone falls short by the
surplus, and at its bound it does not count. Both hold for any number of passes. -/
namespace CoefficientTightening

open Extended (finite infinite nan)

namespace Tightening

variable {n : Nat} {columns : Vector (Column Extended) n} {side : Side} {x : Fin n → ℚ} {s : ℚ}

theorem abs_cutCoef_le (h0 : 0 ≤ s) (c : Sparse.Cell Extended n) :
    |cutCoef columns s c| ≤ |c.value.toRat| := by
  unfold cutCoef
  split
  · rw [abs_clamp h0]
    exact min_le_left _ _
  · exact le_refl _

/-- A coefficient that a cut changes was larger than the threshold, and has its size now. -/
theorem abs_cutCoef_of_ne (h0 : 0 ≤ s) {c : Sparse.Cell Extended n}
    (h : cutCoef columns s c ≠ c.value.toRat) :
    isCandidate columns c = true ∧ |cutCoef columns s c| = s := by
  unfold cutCoef at h ⊢
  split at h
  · next hcand =>
    refine ⟨hcand, ?_⟩
    rw [if_pos hcand, abs_clamp h0]
    rcases le_or_gt |c.value.toRat| s with hle | hlt
    · exact absurd (clamp_of_abs_le hle) h
    · exact min_eq_right hlt.le
  · exact absurd rfl h

/-- Where a cut changes the coefficient, a whole point is at the column bound or a unit away. -/
theorem gap_eq_zero_of_lt (h0 : 0 ≤ s) {c : Sparse.Cell Extended n}
    (hc : IsRegular columns side c) (h : cutCoef columns s c ≠ c.value.toRat)
    (hx : IsWhole (x c.column))
    (hbounds : ∀ side, ((columns.get c.column).range.bound side).IsWholeOrInfinite)
    (hgap : gap columns side x c < 1) : gap columns side x c = 0 := by
  have hwhole : (extremeBound columns side c).IsWholeOrInfinite := hbounds _
  rw [← hc.bound (value_ne_zero_of_cut h0 h)] at hwhole
  unfold gap at hgap ⊢
  rw [hx.eq_of_abs_sub_lt hwhole hgap, sub_self, abs_zero]

end Tightening

namespace Formulation

open Tightening

variable {m n : Nat} {p q : Formulation Extended m n} {i : Fin m} {side : Side} {s : ℚ}
  {x : Fin n → ℚ}

/-! ### A cut row -/

/-- How far a row falls short of its extreme activity once its coefficients are cut. -/
def cutShortfall (p : Formulation Extended m n) (i : Fin m) (side : Side) (s : ℚ)
    (x : Fin n → ℚ) : ℚ :=
  ((p.matrix.rows.get i).toList.map fun c =>
    |cutCoef p.columns s c| * gap p.columns side x c).sum

theorem cutShortfall_le (h0 : 0 ≤ s) : p.cutShortfall i side s x ≤ p.shortfall i side x := by
  apply List.sum_le_sum
  intro c _
  exact mul_le_mul_of_nonneg_right (abs_cutCoef_le h0 c) (gap_nonneg c)

theorem IsCutAt.shortfall_tighten (hcut : p.IsCutAt i side s) (hnum : p.IsNumericRow i) :
    p.tighten.shortfall i side x = p.cutShortfall i side s x := by
  have hreg := hnum.isRegular hcut.surplus_eq
  rw [shortfall, cutShortfall, hcut.cells_tighten hnum, Array.toList_map, List.map_map]
  congr 1
  apply List.map_congr_left
  intro c hc
  have hv := (hreg c hc).value
  by_cases hz : cutCoef p.columns s c = 0
  · simp [cutCell_eq hcut.nonneg hv, hz]
  · have hbound : extremeBound p.tighten.columns side (cutCell p.columns (finite s) c) =
        extremeBound p.columns side c :=
      extremeBound_cutCell (alike_tighten p) hcut.nonneg hv hz
    simp only [Function.comp_apply, gap, hbound]
    simp [cutCell_eq hcut.nonneg hv]

/-- A whole point on which the row holds survives the cut. -/
theorem le_cutShortfall (h0 : 0 ≤ s)
    (hreg : ∀ c ∈ (p.matrix.rows.get i).toList, IsRegular p.columns side c)
    (hwhole : p.HasWholeBounds) (hint : p.IsWholeAt x) (hs : s ≤ p.shortfall i side x) :
    s ≤ p.cutShortfall i side s x := by
  by_cases hfar : ∃ c ∈ (p.matrix.rows.get i).toList,
      cutCoef p.columns s c ≠ c.value.toRat ∧ 1 ≤ gap p.columns side x c
  · -- one cut column a unit away from its bound makes up for the surplus alone
    obtain ⟨c, hc, hcut, hgap⟩ := hfar
    have hterm : s ≤ |cutCoef p.columns s c| * gap p.columns side x c := by
      rw [(abs_cutCoef_of_ne h0 hcut).2]
      exact le_mul_of_one_le_right h0 hgap
    refine hterm.trans (List.single_le_sum ?_ _ (List.mem_map.mpr ⟨c, hc, rfl⟩))
    intro d hd
    obtain ⟨c', -, rfl⟩ := List.mem_map.mp hd
    exact mul_nonneg (abs_nonneg _) (gap_nonneg c')
  · -- all cut columns are at their bounds, and no term has changed
    have hsame : p.cutShortfall i side s x = p.shortfall i side x := by
      unfold cutShortfall shortfall
      congr 1
      apply List.map_congr_left
      intro c hc
      by_cases hcut : cutCoef p.columns s c = c.value.toRat
      · rw [hcut]
      · have hcand := (abs_cutCoef_of_ne h0 hcut).1
        have hbounds : ∀ side, ((p.columns.get c.column).range.bound side).IsWholeOrInfinite := by
          intro side
          cases side with
          | lower => exact (hwhole c.column hcand).1
          | upper => exact (hwhole c.column hcand).2
        have hnear : gap p.columns side x c < 1 := not_le.mp fun h => hfar ⟨c, hc, hcut, h⟩
        rw [gap_eq_zero_of_lt h0 (hreg c hc) hcut (hint c.column hcand) hbounds hnear,
          mul_zero, mul_zero]
    rwa [hsame]

/-! ### What a pass keeps -/

theorem inBox_tighten : p.tighten.InBox x ↔ p.InBox x := by
  unfold InBox
  simp only [(alike_tighten p _).range]

theorem isCandidate_tighten (j : Fin n) : p.tighten.isCandidate j = p.isCandidate j :=
  (alike_tighten p j).isCandidate

theorem isWholeAt_tighten : p.tighten.IsWholeAt x ↔ p.IsWholeAt x := by
  unfold IsWholeAt
  simp only [isCandidate_tighten]

theorem hasWholeBounds_tighten : p.tighten.HasWholeBounds ↔ p.HasWholeBounds := by
  unfold HasWholeBounds
  simp only [isCandidate_tighten, (alike_tighten p _).range]

/-- An entry after a pass is one from before the pass, or has a finite coefficient. -/
theorem mem_or_finite_of_mem_tighten (hnum : p.IsNumericRow i) {c : Sparse.Cell Extended n}
    (hc : c ∈ (p.tighten.matrix.rows.get i).toList) :
    c ∈ (p.matrix.rows.get i).toList ∨ Scalar.isFinite c.value = true := by
  rcases p.isCutAt_cases i with ⟨side, s, hcut⟩ | hno
  · rw [hcut.cells_tighten hnum, Array.toList_map] at hc
    obtain ⟨c', hc', rfl⟩ := List.mem_map.mp hc
    rw [cutCell_eq hcut.nonneg (hnum.isRegular hcut.surplus_eq c' hc').value]
    exact .inr rfl
  · rw [cells_eq (rowState_tighten_of_not_isCutAt hnum hno)] at hc
    exact .inl hc

theorem HasFiniteCoefficients.tighten (hfin : p.HasFiniteCoefficients) :
    p.tighten.HasFiniteCoefficients := by
  intro i c hc
  rcases mem_or_finite_of_mem_tighten (hfin.isNumericRow i) hc with hmem | hc
  · exact hfin i c hmem
  · exact hc

theorem IsNumericRow.tighten (hnum : p.IsNumericRow i) : p.tighten.IsNumericRow i := by
  intro c hc
  rcases mem_or_finite_of_mem_tighten hnum hc with hmem | hfin
  · exact hnum c hmem
  · intro heq
    rw [heq] at hfin
    cases hfin

/-! ### One pass -/

/-- A point survives the cut of a row if the cut coefficients fall short by the surplus too. -/
def Withstands (p : Formulation Extended m n) (x : Fin n → ℚ) (i : Fin m) : Prop :=
  ∀ side s, p.IsCutAt i side s → s ≤ p.cutShortfall i side s x

theorem satisfiesRow_congr (hrow : q.rowState i = p.rowState i) :
    q.SatisfiesRow x i ↔ p.SatisfiesRow x i := by
  unfold SatisfiesRow rowValue
  rw [cells_eq hrow, range_eq hrow]

/-- A row that was cut at its surplus holds at a point of the box if it held before and its cut
coefficients fall short by the surplus. -/
theorem IsCutAt.satisfiesRow_tighten (hcut : p.IsCutAt i side s) (hfin : p.HasFiniteCoefficients)
    (hx : p.InBox x) :
    p.tighten.SatisfiesRow x i ↔ p.SatisfiesRow x i ∧ s ≤ p.cutShortfall i side s x := by
  have hnum := hfin.isNumericRow i
  have hcut' := hcut.tighten hnum
  obtain ⟨b, -, hrange⟩ := hcut.range_tighten hnum
  rw [satisfiesRow_iff hfin.tighten hcut'.side_eq hcut'.surplus_eq (inBox_tighten.mpr hx),
    satisfiesRow_iff hfin hcut.side_eq hcut.surplus_eq hx, hcut.shortfall_tighten hnum, hrange,
    Interval.allowsAt_setBound_opposite]
  constructor
  · rintro ⟨hopen, hshort⟩
    exact ⟨⟨hopen, hshort.trans (cutShortfall_le hcut.nonneg)⟩, hshort⟩
  · rintro ⟨⟨hopen, -⟩, hshort⟩
    exact ⟨hopen, hshort⟩

/-- A row after a pass, at a point of the box. -/
theorem satisfiesRow_tighten (hfin : p.HasFiniteCoefficients) (hx : p.InBox x) (i : Fin m) :
    p.tighten.SatisfiesRow x i ↔ p.SatisfiesRow x i ∧ p.Withstands x i := by
  rcases p.isCutAt_cases i with ⟨side, s, hcut⟩ | hno
  · rw [hcut.satisfiesRow_tighten hfin hx]
    constructor
    · rintro ⟨hsat, hshort⟩
      refine ⟨hsat, fun side' s' hcut' => ?_⟩
      obtain rfl : side = side' := Option.some.inj (hcut.side_eq.symm.trans hcut'.side_eq)
      obtain rfl : s = s' := Extended.finite.inj (hcut.surplus_eq.symm.trans hcut'.surplus_eq)
      exact hshort
    · rintro ⟨hsat, hall⟩
      exact ⟨hsat, hall side s hcut⟩
  · rw [satisfiesRow_congr (rowState_tighten_of_not_isCutAt (hfin.isNumericRow i) hno)]
    exact (and_iff_left fun side s hcut => absurd hcut (hno side s)).symm

theorem withstands_of_isWholeAt (hfin : p.HasFiniteCoefficients) (hwhole : p.HasWholeBounds)
    (hx : p.InBox x) (hint : p.IsWholeAt x) (hsat : p.SatisfiesRow x i) : p.Withstands x i := by
  intro side s hcut
  have hreg := (hfin.isNumericRow i).isRegular hcut.surplus_eq
  have hshort := ((satisfiesRow_iff hfin hcut.side_eq hcut.surplus_eq hx).mp hsat).2
  exact le_cutShortfall hcut.nonneg hreg hwhole hint hshort

/-! ### Any number of passes -/

/-- Tightening never gains a point of the box: the relaxation after any number of passes lies in the
one before. -/
theorem satisfiesRows_of_iterate_tighten (p : Formulation Extended m n)
    (hfin : p.HasFiniteCoefficients) (k : ℕ) (x : Fin n → ℚ) (hx : p.InBox x)
    (h : (tighten^[k] p).SatisfiesRows x) : p.SatisfiesRows x := by
  induction k generalizing p with
  | zero => exact h
  | succ k ih =>
    rw [Function.iterate_succ_apply] at h
    have hone := ih p.tighten hfin.tighten (inBox_tighten.mpr hx) h
    exact fun i => ((satisfiesRow_tighten hfin hx i).mp (hone i)).1

/-- Two passes over a row whose first column ends at `3/2`; the point is at that end. -/
theorem mixedRow_relaxation :
    (tighten^[2] (mixedRow 8 (3 / 2))).SatisfiesRows ![3 / 2, 0, 1] ∧
      (mixedRow 8 (3 / 2)).SatisfiesRows ![3 / 2, 0, 1] := by
  have hafter : (tighten^[2] (mixedRow 8 (3 / 2))).SatisfiesRows ![3 / 2, 0, 1] := by
    decide +kernel
  exact ⟨hafter, satisfiesRows_of_iterate_tighten (mixedRow 8 (3 / 2)) (by decide +kernel) 2
    ![3 / 2, 0, 1] (by decide +kernel) hafter⟩

/-- Where the columns that may be tightened have whole bounds, any number of passes keeps exactly
the points of the box that are whole in those columns. -/
theorem satisfiesRows_iterate_tighten (p : Formulation Extended m n)
    (hfin : p.HasFiniteCoefficients) (hwhole : p.HasWholeBounds) (k : ℕ) (x : Fin n → ℚ)
    (hx : p.InBox x) (hint : p.IsWholeAt x) :
    (tighten^[k] p).SatisfiesRows x ↔ p.SatisfiesRows x := by
  induction k generalizing p with
  | zero => exact Iff.rfl
  | succ k ih =>
    rw [Function.iterate_succ_apply, ih p.tighten hfin.tighten (hasWholeBounds_tighten.mpr hwhole)
      (inBox_tighten.mpr hx) (isWholeAt_tighten.mpr hint)]
    refine forall_congr' fun i => ?_
    rw [satisfiesRow_tighten hfin hx i]
    exact and_iff_left_of_imp (withstands_of_isWholeAt hfin hwhole hx hint)

/-- Three passes keep a whole point of the row, and do not let in one that violates it. -/
theorem mixedRow_feasible :
    (tighten^[3] (mixedRow 10 2)).SatisfiesRows ![2, 0, 1] ∧
      ¬ (tighten^[3] (mixedRow 10 2)).SatisfiesRows ![2, -1, 0] := by
  constructor
  · rw [satisfiesRows_iterate_tighten (mixedRow 10 2) (by decide +kernel) (by decide +kernel) 3
      ![2, 0, 1] (by decide +kernel) (by decide +kernel)]
    decide +kernel
  · rw [satisfiesRows_iterate_tighten (mixedRow 10 2) (by decide +kernel) (by decide +kernel) 3
      ![2, -1, 0] (by decide +kernel) (by decide +kernel)]
    decide +kernel

end Formulation

end CoefficientTightening
