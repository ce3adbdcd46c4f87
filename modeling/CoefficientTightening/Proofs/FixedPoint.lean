import CoefficientTightening.Proofs.FeasibleSet

/-! One pass of tightening is enough, in exact arithmetic. A row that was cut at its surplus still
has that surplus, and all its entries fit under it; a row that was left alone is still left alone.
So a second pass finds nothing to change, and any number of passes is no more than one. -/
namespace CoefficientTightening

open Extended (finite infinite nan)

namespace Tightening

variable {n : Nat} {columns columns' : Vector (Column Extended) n} {s : ℚ}

theorem isCandidate_congr (halike : ∀ j, (columns.get j).Alike (columns'.get j))
    (c : Sparse.Cell Extended n) : isCandidate columns' c = isCandidate columns c :=
  (halike c.column).isCandidate

/-- A second cut at the same threshold changes nothing. -/
theorem cutCoef_cutCell (halike : ∀ j, (columns.get j).Alike (columns'.get j)) (h0 : 0 ≤ s)
    {c : Sparse.Cell Extended n} (hc : finite c.value.toRat = c.value) :
    cutCoef columns' s (cutCell columns (finite s) c) =
      (cutCell columns (finite s) c).value.toRat := by
  have hcand : isCandidate columns' (cutCell columns (finite s) c) = isCandidate columns c := by
    rw [isCandidate_congr halike]
    unfold cutCell
    split <;> rfl
  rw [cutCoef, hcand, cutCell_eq h0 hc, Extended.toRat_finite]
  split
  · next h => rw [cutCoef, if_pos h, clamp_clamp h0]
  · rfl

end Tightening

namespace Formulation

open Tightening

variable {m n : Nat} {p : Formulation Extended m n} {i : Fin m} {side : Side} {s : ℚ}

/-- In a row that was cut no entry is left to cut. -/
theorem IsCutAt.rowTightenings_tighten (hcut : p.IsCutAt i side s) (hnum : p.IsNumericRow i) :
    p.tighten.rowTightenings i = [] := by
  have hcut' := hcut.tighten hnum
  obtain ⟨b, T, hb, hT, hsurplus⟩ := finite_of_rowSurplus hcut'.surplus_eq
  have hreg := hnum.isRegular hcut.surplus_eq
  have hreg' := hnum.tighten.isRegular hcut'.surplus_eq
  rw [rowTightenings_eq, rowTighteningsIn_eq_visit hcut'.side_eq,
    activity_order (List.Perm.refl _), hb, hT]
  apply visit_eq_nil
  intro e he
  have hmem : e.1 ∈ (p.tighten.matrix.rows.get i).toList := List.fst_mem_of_mem_zipIdx he
  have hfits : cutCoef p.tighten.columns s e.1 = e.1.value.toRat := by
    rw [hcut.cells_tighten hnum, Array.toList_map] at hmem
    obtain ⟨c, hc, heq⟩ := List.mem_map.mp hmem
    rw [← heq]
    exact cutCoef_cutCell (alike_tighten p) hcut.nonneg (hreg c hc).value
  rw [propose?_of_nonneg hcut.nonneg hsurplus (hreg' e.1 hmem), if_pos hfits]

/-- After a pass there is nothing to change in any row. -/
theorem rowTightenings_tighten (hnum : p.IsNumericRow i) : p.tighten.rowTightenings i = [] := by
  rcases p.isCutAt_cases i with ⟨side, s, hcut⟩ | hno
  · exact hcut.rowTightenings_tighten hnum
  · have hsame := rowState_tighten_of_not_isCutAt hnum hno
    rw [rowTightenings_congr hsame (alike_tighten p), rowTightenings_eq]
    exact rowTighteningsIn_eq_nil hnum hno (List.Perm.refl _)

/-- Without changes a pass does nothing at all. -/
theorem tightenRows_eq {α : Type} [Scalar α] {p : Formulation α m n} (rows : List (Fin m))
    (h : ∀ i, p.rowTightenings i = []) : p.tightenRows rows = (p, []) := by
  induction rows with
  | nil => rfl
  | cons i rest ih => simp [tightenRows, h i, ih]

theorem tighten_tighten (hnum : ∀ i, p.IsNumericRow i) : p.tighten.tighten = p.tighten := by
  have hnil : ∀ i, p.tighten.rowTightenings i = [] := fun i => rowTightenings_tighten (hnum i)
  show (p.tighten.tightenRows (List.finRange m)).1 = p.tighten
  rw [tightenRows_eq _ hnil]

/-- Passes after the first one do nothing. -/
theorem iterate_tighten_succ (hnum : ∀ i, p.IsNumericRow i) (k : ℕ) :
    tighten^[k + 1] p = p.tighten := by
  rw [Function.iterate_succ_apply]
  exact Function.iterate_fixed (tighten_tighten hnum) k

end Formulation

end CoefficientTightening
