import CoefficientTightening.Proofs.CutEntries

/-! The outcome of one pass in closed form, in exact arithmetic. A row with one finite side whose
surplus is finite and not negative has all its entries cut down at once to that surplus, and its
bound moved by the cuts; any other row stays as it is. The surplus is the same after the pass, and
the order in which the entries of a row are visited plays no part. -/
namespace CoefficientTightening

open Extended (finite infinite nan)

namespace Interval

variable {α : Type} [Scalar α] {r : Interval α} {side : Side}

theorem onlySide?_eq_some_iff :
    r.onlySide? = some side ↔
      r.isFiniteAt side = true ∧ r.isFiniteAt side.opposite = false := by
  unfold onlySide? isRanged isFree
  cases hl : r.isFiniteAt .lower <;> cases hu : r.isFiniteAt .upper <;> cases side <;>
    simp [Side.opposite, hl, hu]

/-- A finite side stays the only one when its bound moves to a finite place. -/
theorem onlySide?_setBound (h : r.onlySide? = some side) {value : α}
    (hv : Scalar.isFinite value = true) : (r.setBound value side).onlySide? = some side := by
  rw [onlySide?_eq_some_iff] at h ⊢
  rw [isFiniteAt, isFiniteAt, bound_setBound, bound_setBound_opposite]
  exact ⟨hv, h.2⟩

end Interval

namespace Formulation

section Definitions

variable {α : Type} [Scalar α] {m n : Nat}

/-- How far the most extreme activity of a row oversteps its bound. -/
def rowSurplus (p : Formulation α m n) (i : Fin m) (side : Side) : α :=
  surplus side ((p.rows.get i).range.bound side) (p.rowActivity i side)

/-- A row with all its entries cut down to one threshold, and its bound moved by the cuts. -/
def cutRow (p : Formulation α m n) (i : Fin m) (side : Side) (threshold : α) : RowState α n where
  cells := (p.matrix.rows.get i).map (Tightening.cutCell p.columns threshold)
  range := (p.rows.get i).range.setBound
    ((p.rows.get i).range.bound side -
      ((p.matrix.rows.get i).toList.map (Tightening.cutShift p.columns side threshold)).sum) side

/-- All stored coefficients are finite. -/
def HasFiniteCoefficients (p : Formulation α m n) : Prop :=
  ∀ i, ∀ c ∈ (p.matrix.rows.get i).toList, Scalar.isFinite c.value = true

instance (p : Formulation α m n) : Decidable p.HasFiniteCoefficients :=
  inferInstanceAs (Decidable (∀ i, ∀ c ∈ (p.matrix.rows.get i).toList, _ = true))

/-- No coefficient of the row is a NaN. -/
def IsNumericRow (p : Formulation Extended m n) (i : Fin m) : Prop :=
  ∀ c ∈ (p.matrix.rows.get i).toList, c.value ≠ nan

/-- The surplus of a row on its only finite side is a rational that is not negative. -/
structure IsCutAt (p : Formulation Extended m n) (i : Fin m) (side : Side) (s : ℚ) : Prop where
  side_eq : (p.rows.get i).range.onlySide? = some side
  surplus_eq : p.rowSurplus i side = finite s
  nonneg : 0 ≤ s

end Definitions

variable {m n : Nat} {p : Formulation Extended m n} {i : Fin m} {side : Side} {s : ℚ}

open Tightening

theorem rowActivity_eq (p : Formulation Extended m n) (i : Fin m) (side : Side) :
    p.rowActivity i side =
      ((p.matrix.rows.get i).toList.map (extremeTerm p.columns side)).sum := by
  rw [rowActivity, rowTerms, activity_eq_sum]

theorem sum_order {M : Type} [AddCommMonoid M] (f : Sparse.Cell Extended n → M)
    {order : List (Sparse.Cell Extended n × Nat)} (h : order.Perm (p.entries i)) :
    (order.map fun e => f e.1).sum = ((p.matrix.rows.get i).toList.map f).sum := by
  rw [(h.map fun e => f e.1).sum_eq, map_entries]

theorem activity_order {order : List (Sparse.Cell Extended n × Nat)}
    (h : order.Perm (p.entries i)) :
    activity side (order.map fun e => (e.1.value, (p.columns.get e.1.column).range)) =
      p.rowActivity i side := by
  have hmap : (order.map fun e => (e.1.value, (p.columns.get e.1.column).range)) =
      (order.map (·.1)).map fun c => (c.value, (p.columns.get c.column).range) := by
    rw [List.map_map]
    rfl
  rw [hmap, activity_eq_sum, List.map_map, rowActivity_eq]
  exact sum_order (extremeTerm p.columns side) h

/-- A finite surplus comes from a finite bound and a finite activity. -/
theorem finite_of_rowSurplus (hs : p.rowSurplus i side = finite s) :
    ∃ b T, (p.rows.get i).range.bound side = finite b ∧ p.rowActivity i side = finite T ∧
      surplus side (finite b) (finite T) = finite s := by
  have hs' := hs
  unfold rowSurplus surplus at hs'
  cases side
  · obtain ⟨⟨b, hb⟩, T, hT⟩ := Extended.finite_of_sub hs'
    refine ⟨b, T, hb, hT, ?_⟩
    rwa [rowSurplus, hb, hT] at hs
  · obtain ⟨⟨T, hT⟩, b, hb⟩ := Extended.finite_of_sub hs'
    refine ⟨b, T, hb, hT, ?_⟩
    rwa [rowSurplus, hb, hT] at hs

theorem HasFiniteCoefficients.isNumericRow (hfin : p.HasFiniteCoefficients) (i : Fin m) :
    p.IsNumericRow i := by
  intro c hc hnan
  have h := hfin i c hc
  rw [hnan] at h
  cases h

theorem IsNumericRow.isRegular (hnum : p.IsNumericRow i) (hs : p.rowSurplus i side = finite s) :
    ∀ c ∈ (p.matrix.rows.get i).toList, IsRegular p.columns side c := by
  obtain ⟨b, T, -, hT, -⟩ := finite_of_rowSurplus hs
  exact isRegular_of_finite_sum (by rw [← rowActivity_eq, hT]) hnum

theorem isCutAt_cases (p : Formulation Extended m n) (i : Fin m) :
    (∃ side s, p.IsCutAt i side s) ∨ ∀ side s, ¬ p.IsCutAt i side s := by
  by_cases h : ∃ side s, p.IsCutAt i side s
  · exact .inl h
  · exact .inr fun side s hcut => h ⟨side, s, hcut⟩

/-! ### The two outcomes of a row -/

theorem sum_cutShift (h0 : 0 ≤ s)
    (hreg : ∀ c ∈ (p.matrix.rows.get i).toList, IsRegular p.columns side c) :
    ((p.matrix.rows.get i).toList.map (cutShift p.columns side (finite s))).sum =
      finite ((p.matrix.rows.get i).toList.map (cutLoss p.columns side s)).sum := by
  rw [← Extended.sum_map_finite]
  congr 1
  exact List.map_congr_left fun c hc => cutShift_eq h0 (hreg c hc)

theorem IsCutAt.foldl_rowTighteningsIn (hcut : p.IsCutAt i side s) (hnum : p.IsNumericRow i)
    {order : List (Sparse.Cell Extended n × Nat)} (horder : order.Perm (p.entries i)) :
    (p.rowTighteningsIn i order).foldl RowState.change (p.rowState i) =
      p.cutRow i side (finite s) := by
  obtain ⟨b, T, hb, hT, hsurplus⟩ := finite_of_rowSurplus hcut.surplus_eq
  have hreg := hnum.isRegular hcut.surplus_eq
  have hmem : ∀ e ∈ order, e.1 ∈ (p.matrix.rows.get i).toList :=
    fun e he => List.fst_mem_of_mem_zipIdx (horder.mem_iff.mp he)
  have hat : ∀ e ∈ order, (p.rowState i).cells[e.2]? = some e.1 := by
    intro e he
    have hget := List.mem_zipIdx_iff_getElem?.mp (horder.mem_iff.mp he)
    rwa [Array.getElem?_toList] at hget
  have hbound : (p.rowState i).range.bound side = finite b := hb
  rw [rowTighteningsIn_eq_visit hcut.side_eq, activity_order horder, hb, hT,
    foldl_change_visit hcut.nonneg (fun e he => hreg e.1 (hmem e he))
      (nodup_of_perm_zipIdx horder) hsurplus hbound hat]
  rw [sum_order (cutLoss p.columns side s) horder, cutRow, sum_cutShift hcut.nonneg hreg, hb,
    Extended.finite_sub, rowState, foldl_modify_eq_map _ horder]

theorem rowTighteningsIn_eq_nil (hnum : p.IsNumericRow i) (hno : ∀ side s, ¬ p.IsCutAt i side s)
    {order : List (Sparse.Cell Extended n × Nat)} (horder : order.Perm (p.entries i)) :
    p.rowTighteningsIn i order = [] := by
  cases hside : (p.rows.get i).range.onlySide? with
  | none => simp only [rowTighteningsIn, hside]
  | some side =>
    have hmem : ∀ e ∈ order, e.1.value ≠ nan :=
      fun e he => hnum e.1 (List.fst_mem_of_mem_zipIdx (horder.mem_iff.mp he))
    have htotal : p.rowActivity i side =
        (order.map fun e => extremeTerm p.columns side e.1).sum := by
      rw [rowActivity_eq, sum_order (extremeTerm p.columns side) horder]
    rw [rowTighteningsIn_eq_visit hside, activity_order horder, htotal]
    apply visit_eq_nil_of_surplus hmem
    intro s hs
    rw [← htotal] at hs
    exact not_le.mp fun h0 => hno side s ⟨hside, hs, h0⟩

/-- A row is cut at its surplus, or left as it is. -/
theorem IsCutAt.rowState_tighten (hcut : p.IsCutAt i side s) (hnum : p.IsNumericRow i) :
    p.tighten.rowState i = p.cutRow i side (finite s) := by
  rw [Formulation.rowState_tighten, rowTightenings_eq]
  exact hcut.foldl_rowTighteningsIn hnum (List.Perm.refl _)

theorem rowState_tighten_of_not_isCutAt (hnum : p.IsNumericRow i)
    (hno : ∀ side s, ¬ p.IsCutAt i side s) : p.tighten.rowState i = p.rowState i := by
  rw [rowState_tighten, rowTightenings_eq, rowTighteningsIn_eq_nil hnum hno (List.Perm.refl _)]
  rfl

/-- Every order of visiting leads to the same row. -/
theorem foldl_rowTighteningsIn (hnum : p.IsNumericRow i)
    {order : List (Sparse.Cell Extended n × Nat)} (horder : order.Perm (p.entries i)) :
    (p.rowTighteningsIn i order).foldl RowState.change (p.rowState i) = p.tighten.rowState i := by
  rcases p.isCutAt_cases i with ⟨side, s, hcut⟩ | hno
  · rw [hcut.foldl_rowTighteningsIn hnum horder, hcut.rowState_tighten hnum]
  · rw [rowTighteningsIn_eq_nil hnum hno horder, rowState_tighten_of_not_isCutAt hnum hno]
    rfl

/-! ### A row that was cut -/

theorem IsCutAt.cells_tighten (hcut : p.IsCutAt i side s) (hnum : p.IsNumericRow i) :
    p.tighten.matrix.rows.get i = (p.matrix.rows.get i).map (cutCell p.columns (finite s)) :=
  congrArg RowState.cells (hcut.rowState_tighten hnum)

theorem IsCutAt.range_tighten (hcut : p.IsCutAt i side s) (hnum : p.IsNumericRow i) :
    ∃ b, (p.rows.get i).range.bound side = finite b ∧
      (p.tighten.rows.get i).range = (p.rows.get i).range.setBound
        (finite (b - ((p.matrix.rows.get i).toList.map (cutLoss p.columns side s)).sum)) side := by
  obtain ⟨b, T, hb, -, -⟩ := finite_of_rowSurplus hcut.surplus_eq
  have hrange : (p.tighten.rows.get i).range = (p.cutRow i side (finite s)).range :=
    congrArg RowState.range (hcut.rowState_tighten hnum)
  refine ⟨b, hb, ?_⟩
  rw [hrange, cutRow, sum_cutShift hcut.nonneg (hnum.isRegular hcut.surplus_eq), hb,
    Extended.finite_sub]

/-- The activity and the bound of a row that is cut fall together. -/
theorem IsCutAt.rowSurplus_tighten (hcut : p.IsCutAt i side s) (hnum : p.IsNumericRow i) :
    p.tighten.rowSurplus i side = finite s := by
  obtain ⟨b, T, hb, hT, hsurplus⟩ := finite_of_rowSurplus hcut.surplus_eq
  obtain ⟨b', hb', hrange⟩ := hcut.range_tighten hnum
  obtain rfl : b = b' := Extended.finite.inj (hb.symm.trans hb')
  have hactivity : p.tighten.rowActivity i side =
      finite (T - ((p.matrix.rows.get i).toList.map (cutLoss p.columns side s)).sum) := by
    rw [rowActivity_eq, hcut.cells_tighten hnum, Array.toList_map]
    exact sum_extremeTerm_cutCell (alike_tighten p) hcut.nonneg (hnum.isRegular hcut.surplus_eq)
      (by rw [← rowActivity_eq, hT])
  rw [rowSurplus, hrange, Interval.bound_setBound, hactivity]
  exact surplus_step hsurplus _

/-- A row that was cut would be cut at the same threshold again. -/
theorem IsCutAt.tighten (hcut : p.IsCutAt i side s) (hnum : p.IsNumericRow i) :
    p.tighten.IsCutAt i side s where
  side_eq := by
    obtain ⟨b, -, hrange⟩ := hcut.range_tighten hnum
    rw [hrange]
    exact Interval.onlySide?_setBound hcut.side_eq rfl
  surplus_eq := hcut.rowSurplus_tighten hnum
  nonneg := hcut.nonneg

theorem rowSurplus_congr {q : Formulation Extended m n} (hrow : q.rowState i = p.rowState i)
    (hcols : ∀ j, (p.columns.get j).Alike (q.columns.get j)) :
    q.rowSurplus i side = p.rowSurplus i side := by
  unfold rowSurplus rowActivity rowTerms
  simp only [cells_eq hrow, range_eq hrow, (hcols _).range]

/-- The pass keeps every surplus. -/
theorem rowSurplus_tighten (hside : (p.rows.get i).range.onlySide? = some side)
    (hnum : p.IsNumericRow i) : p.tighten.rowSurplus i side = p.rowSurplus i side := by
  rcases p.isCutAt_cases i with ⟨side', s, hcut⟩ | hno
  · obtain rfl : side = side' := Option.some.inj (hside.symm.trans hcut.side_eq)
    rw [hcut.surplus_eq, hcut.rowSurplus_tighten hnum]
  · exact rowSurplus_congr (rowState_tighten_of_not_isCutAt hnum hno) (alike_tighten p)

/-- One pass over a row with one finite side, in closed form. Whether the row is cut at all, and the
size to which its entries are cut, is read off its surplus before the pass. The pass keeps that
surplus, and every order of visiting the row's entries leaves the row in the same state. -/
theorem tighten_closed_form (p : Formulation Extended m n) (hfin : p.HasFiniteCoefficients)
    (i : Fin m) (side : Side) (hside : (p.rows.get i).range.onlySide? = some side) :
    (¬ (Scalar.isFinite (p.rowSurplus i side) = true ∧ 0 ≤ p.rowSurplus i side) →
      p.tighten.rowState i = p.rowState i) ∧
    (Scalar.isFinite (p.rowSurplus i side) = true ∧ 0 ≤ p.rowSurplus i side →
      p.tighten.rowState i = p.cutRow i side (p.rowSurplus i side)) ∧
    p.tighten.rowSurplus i side = p.rowSurplus i side ∧
    ∀ order, order.Perm (p.entries i) →
      ((p.rowTighteningsIn i order).foldl commit p).rowState i = p.tighten.rowState i := by
  have hnum := hfin.isNumericRow i
  refine ⟨fun hno => ?_, fun ⟨hs, h0⟩ => ?_, rowSurplus_tighten hside hnum, fun order horder => ?_⟩
  · apply rowState_tighten_of_not_isCutAt hnum
    intro side' s hcut
    obtain rfl : side = side' := Option.some.inj (hside.symm.trans hcut.side_eq)
    rw [hcut.surplus_eq] at hno
    exact hno ⟨rfl, (Extended.finite_le 0 s).mpr hcut.nonneg⟩
  · obtain ⟨s, hs⟩ := Extended.isFinite_iff.mp hs
    rw [hs] at h0 ⊢
    have hcut : p.IsCutAt i side s := ⟨hside, hs, (Extended.finite_le 0 s).mp h0⟩
    exact hcut.rowState_tighten hnum
  · rw [rowState_foldl_commit _ p i fun _ => row_of_mem_rowTighteningsIn]
    exact foldl_rowTighteningsIn hnum horder

/-- The row `4 x₀ - 3 x₁ + x₂ ≤ bound` with `x₀` whole in `[0, top]`, `x₁` whole in `[-1, 1]` and
`x₂` continuous in `[0, 1]`. -/
def mixedRow (bound top : ℚ) : Formulation Extended 1 3 :=
  ofRanges (.ofRows #v[[(0, finite 4), (1, finite (-3)), (2, finite 1)]])
    #v[⟨infinite true, finite bound⟩]
    #v[⟨finite 0, finite top⟩, ⟨finite (-1), finite 1⟩, ⟨finite 0, finite 1⟩]
    #v[.integer, .integer, .continuous] (Vector.replicate 3 true)

/-- With a surplus of 2 both whole columns are cut, and the bound moves by `2 · 2 + 1 · 1`; the
entries may also be visited from the last one to the first. -/
theorem mixedRow_tighten :
    (mixedRow 10 2).tighten.rowState 0 =
      ⟨#[⟨0, 0, finite 2⟩, ⟨1, 0, finite (-2)⟩, ⟨2, 0, finite 1⟩], ⟨infinite true, finite 5⟩⟩ ∧
    (((mixedRow 10 2).rowTighteningsIn 0 ((mixedRow 10 2).entries 0).reverse).foldl commit
      (mixedRow 10 2)).rowState 0 = (mixedRow 10 2).tighten.rowState 0 := by
  obtain ⟨-, hcut, -, horder⟩ :=
    tighten_closed_form (mixedRow 10 2) (by decide +kernel) 0 .upper (by decide +kernel)
  refine ⟨?_, horder _ (List.reverse_perm _)⟩
  rw [hcut (by decide +kernel)]
  decide +kernel

end Formulation

end CoefficientTightening
