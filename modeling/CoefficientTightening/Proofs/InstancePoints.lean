import CoefficientTightening.Proofs.CanonicalRows
import CoefficientTightening.Proofs.ChangeTrace
import CoefficientTightening.Proofs.FixedPoint
import CoefficientTightening.Proofs.PresolveRun

/-! Points of an instance before and after presolving, in exact arithmetic. A point is feasible if
it lies within the bounds of the variables, is whole in those that are not continuous, and satisfies
every row. Presolving never gains a feasible point. It keeps those that withstand the cut of every
row, all of them if the bounds of the variables that are not continuous are whole; the bounds are
taken as they were read, and nothing rounds them. -/
namespace CoefficientTightening

open Extended (finite infinite nan)

/-! ### Rows and their ranges -/

namespace InstanceRow

section Ranges

variable {α : Type} [Scalar α] {r : InstanceRow α} {range : Interval α} {side : Side}

/-- The only finite side of a range that the row says in full is the one that the row has a place
for. -/
theorem range_withRange_setBound (hpos : Scalar.isFinite (Scalar.infinity : α) = false)
    (hneg : Scalar.isFinite (-Scalar.infinity : α) = false)
    (h : (r.withRange range).range = range) (hside : range.onlySide? = some side) (value : α) :
    (r.withRange (range.setBound value side)).range = range.setBound value side := by
  obtain ⟨name, sense, b⟩ := r
  obtain ⟨lower, upper⟩ := range
  obtain ⟨hfin, hopen⟩ := Interval.onlySide?_eq_some_iff.mp hside
  cases sense with
  | atMost =>
    obtain rfl : -Scalar.infinity = lower := congrArg Interval.lower h
    cases side with
    | lower => exact absurd (hneg.symm.trans hfin) Bool.false_ne_true
    | upper => rfl
  | atLeast =>
    obtain rfl : Scalar.infinity = upper := congrArg Interval.upper h
    cases side with
    | lower => rfl
    | upper => exact absurd (hpos.symm.trans hfin) Bool.false_ne_true
  | equal =>
    -- an equation has two finite sides or none
    obtain rfl : b = lower := congrArg Interval.lower h
    obtain rfl : b = upper := congrArg Interval.upper h
    have hb : Scalar.isFinite b = true := by cases side <;> exact hfin
    have hb' : Scalar.isFinite b = false := by cases side <;> exact hopen
    rw [hb] at hb'
    cases hb'

/-- A pass leaves a range that the row says in full. -/
theorem range_withRange_tighten (hpos : Scalar.isFinite (Scalar.infinity : α) = false)
    (hneg : Scalar.isFinite (-Scalar.infinity : α) = false) {m n : Nat} {p : Formulation α m n}
    {i : Fin m} (h : (r.withRange (p.rows.get i).range).range = (p.rows.get i).range) :
    (r.withRange (p.tighten.rows.get i).range).range = (p.tighten.rows.get i).range := by
  rcases p.range_tighten_cases i with hrange | ⟨side, value, hside, hrange⟩
  · rw [hrange]
    exact h
  · rw [hrange]
    exact range_withRange_setBound hpos hneg h hside value

end Ranges

/-- The row holds where its terms add up to the value. -/
def Admits (r : InstanceRow Extended) (value : Extended) : Prop :=
  match r.sense with
  | .atMost => value ≤ r.bound
  | .atLeast => r.bound ≤ value
  | .equal => (value == r.bound) = true

instance (r : InstanceRow Extended) (value : Extended) : Decidable (r.Admits value) := by
  unfold Admits
  split <;> infer_instance

theorem admits_iff {r : InstanceRow Extended} {v : ℚ} :
    r.Admits (finite v) ↔ r.range.Contains (finite v) := by
  obtain ⟨name, sense, b⟩ := r
  cases sense with
  | atMost => exact (and_iff_right rfl).symm
  | atLeast => exact (and_iff_left rfl).symm
  | equal =>
    show (finite v == b) = true ↔ b ≤ finite v ∧ finite v ≤ b
    cases b with
    | finite q =>
      rw [Extended.finite_beq, decide_eq_true_iff, Extended.finite_le, Extended.finite_le]
      constructor
      · rintro rfl
        exact ⟨le_refl _, le_refl _⟩
      · rintro ⟨h, h'⟩
        exact le_antisymm h' h
    | infinite s =>
      refine iff_of_false Bool.false_ne_true ?_
      rintro ⟨h, h'⟩
      cases s with
      | false => cases h
      | true => cases h'
    | nan =>
      refine iff_of_false Bool.false_ne_true ?_
      rintro ⟨h, -⟩
      cases h

/-- The range says no more than what the row has room for. -/
def Describes (r : InstanceRow Extended) (range : Interval Extended) : Prop :=
  (r.withRange range).range = range

theorem describes_range (r : InstanceRow Extended) : r.Describes r.range := by
  obtain ⟨name, sense, b⟩ := r
  cases sense <;> rfl

/-- A pass keeps a range within what the row has room for. -/
theorem Describes.tighten {m n : Nat} {p : Formulation Extended m n} {i : Fin m}
    {r : InstanceRow Extended} (h : r.Describes (p.rows.get i).range) :
    r.Describes (p.tighten.rows.get i).range :=
  range_withRange_tighten rfl rfl h

end InstanceRow

/-! ### Feasible points -/

namespace Formulation

variable {m n : Nat} {p q : Formulation Extended m n} {x : Fin n → ℚ}

/-- The point lies in the box, is whole where it has to be, and satisfies every row. -/
def IsFeasible (p : Formulation Extended m n) (x : Fin n → ℚ) : Prop :=
  p.InBox x ∧ p.IsWholeAt x ∧ p.SatisfiesRows x

theorem isFeasible_tighten (hfin : p.HasFiniteCoefficients) :
    p.tighten.IsFeasible x ↔ p.IsFeasible x ∧ ∀ i, p.Withstands x i := by
  unfold IsFeasible
  rw [inBox_tighten, isWholeAt_tighten]
  constructor
  · rintro ⟨hx, hint, hsat⟩
    have hrow := fun i => (satisfiesRow_tighten hfin hx i).mp (hsat i)
    exact ⟨⟨hx, hint, fun i => (hrow i).1⟩, fun i => (hrow i).2⟩
  · rintro ⟨⟨hx, hint, hsat⟩, hcut⟩
    exact ⟨hx, hint, fun i => (satisfiesRow_tighten hfin hx i).mpr ⟨hsat i, hcut i⟩⟩

theorem rowValue_eq_rowSum (p : Formulation Extended m n) (x : Fin n → ℚ) (i : Fin m) :
    p.rowValue x i = Sparse.rowSum (p.matrix.toRows.get i) x := by
  rw [rowValue, Sparse.rowSum, Sparse.Matrix.get_toRows, List.map_map]
  rfl

end Formulation

namespace Instance

variable {m n : Nat} {inst : Instance Extended m n} {p q : Formulation Extended m n}
  {x : Fin n → ℚ}

/-- The point lies within the bounds of the variables, is whole in those that are not continuous,
and satisfies every row. -/
def IsFeasible (inst : Instance Extended m n) (x : Fin n → ℚ) : Prop :=
  (∀ j, (inst.columns.get j).range.Contains (finite (x j))) ∧
  (∀ j, (inst.columns.get j).kind.isIntegral = true → IsWhole (x j)) ∧
  ∀ i, (inst.rows.get i).Admits (Sparse.rowSum (inst.matrix.get i) x)

instance (inst : Instance Extended m n) (x : Fin n → ℚ) : Decidable (inst.IsFeasible x) :=
  inferInstanceAs (Decidable ((∀ _, _) ∧ (∀ j, _ = true → IsWhole (x j)) ∧ ∀ _, _))

def HasFiniteCoefficients (inst : Instance Extended m n) : Prop :=
  ∀ i, Sparse.HasFiniteValues (inst.matrix.get i)

/-- The bounds of the variables that are not continuous are whole numbers or infinite. -/
def HasWholeBounds (inst : Instance Extended m n) : Prop :=
  ∀ j, (inst.columns.get j).kind.isIntegral = true →
    (inst.columns.get j).range.lower.IsWholeOrInfinite ∧
      (inst.columns.get j).range.upper.IsWholeOrInfinite

instance (inst : Instance Extended m n) : Decidable inst.HasWholeBounds :=
  inferInstanceAs (Decidable (∀ _, _ = true → _ ∧ _))

/-- A formulation that an instance can adopt without loss. -/
structure Carries (inst : Instance Extended m n) (q : Formulation Extended m n) : Prop where
  columnRange : ∀ j, (q.columns.get j).range = (inst.columns.get j).range
  isCandidate : ∀ j, q.isCandidate j = (inst.columns.get j).kind.isIntegral
  describes : ∀ i, (inst.rows.get i).Describes (q.rows.get i).range
  coefficients : q.HasFiniteCoefficients

theorem Carries.tighten (h : inst.Carries p) : inst.Carries p.tighten where
  columnRange j := (p.alike_tighten j).range.trans (h.columnRange j)
  isCandidate j := (Formulation.isCandidate_tighten j).trans (h.isCandidate j)
  describes i := (h.describes i).tighten
  coefficients := h.coefficients.tighten

theorem IsReadAs.carries (h : inst.IsReadAs p) (hfin : inst.HasFiniteCoefficients) :
    inst.Carries p where
  columnRange := h.columnRange
  isCandidate j := by
    rw [Formulation.isCandidate, Column.isCandidate, h.kind, h.active, Bool.and_true]
  describes i := by
    rw [h.rowRange]
    exact InstanceRow.describes_range _
  coefficients i c hc := by
    have hrow : p.matrix.toRows.get i = Sparse.canonicalRow (inst.matrix.get i) := by
      rw [h.matrix, Sparse.Matrix.get_toRows_ofRows, Sparse.Rows.get_canonical]
    have hmem : (c.column, c.value) ∈ p.matrix.toRows.get i := by
      rw [Sparse.Matrix.get_toRows]
      exact List.mem_map_of_mem hc
    rw [hrow] at hmem
    exact Sparse.hasFiniteValues_canonicalRow (hfin i) _ hmem

theorem isFeasible_iff (h : inst.Carries q)
    (hrange : ∀ i, (inst.rows.get i).range = (q.rows.get i).range)
    (hvalue : ∀ i, Sparse.rowSum (inst.matrix.get i) x = q.rowValue x i) :
    inst.IsFeasible x ↔ q.IsFeasible x := by
  have hbox : (∀ j, (inst.columns.get j).range.Contains (finite (x j))) ↔ q.InBox x :=
    forall_congr' fun j => by rw [h.columnRange]
  have hwhole : (∀ j, (inst.columns.get j).kind.isIntegral = true → IsWhole (x j)) ↔
      q.IsWholeAt x := forall_congr' fun j => by rw [h.isCandidate]
  have hrows : (∀ i, (inst.rows.get i).Admits (Sparse.rowSum (inst.matrix.get i) x)) ↔
      q.SatisfiesRows x := by
    refine forall_congr' fun i => ?_
    rw [hvalue, Formulation.SatisfiesRow, Formulation.rowValue_eq h.coefficients,
      InstanceRow.admits_iff, hrange]
  rw [IsFeasible, Formulation.IsFeasible, hbox, hwhole, hrows]

/-- An instance has the feasible points of its formulation. -/
theorem IsReadAs.isFeasible (h : inst.IsReadAs p) (hfin : inst.HasFiniteCoefficients) :
    inst.IsFeasible x ↔ p.IsFeasible x := by
  apply isFeasible_iff (h.carries hfin)
  · exact fun i => (h.rowRange i).symm
  · intro i
    rw [Formulation.rowValue_eq_rowSum, h.matrix, Sparse.Matrix.get_toRows_ofRows,
      Sparse.Rows.get_canonical, Sparse.rowSum_canonicalRow (hfin i) x]

/-- An adopted formulation has the feasible points of the instance that adopts it. -/
theorem Carries.isFeasible_adopt (h : inst.Carries q) :
    (inst.adopt q).IsFeasible x ↔ q.IsFeasible x := by
  have hrange : ∀ i, ((inst.adopt q).rows.get i).range = (q.rows.get i).range := by
    intro i
    rw [get_rows_adopt]
    exact h.describes i
  have hcarries : (inst.adopt q).Carries q :=
    { h with describes := fun i => by rw [← hrange]; exact InstanceRow.describes_range _ }
  exact isFeasible_iff hcarries hrange fun i => (q.rowValue_eq_rowSum x i).symm

/-! ### Presolving -/

/-- The feasible points after presolving, as a choice from those before. -/
theorem isFeasible_presolve (hfin : inst.HasFiniteCoefficients) {maxRounds : Int}
    {validates : Bool} (h : (inst.presolve maxRounds validates).failure = none) :
    ∃ p, inst.toFormulation = .ok p ∧ inst.Carries p ∧
      (∀ x, inst.IsFeasible x ↔ p.IsFeasible x) ∧
      ∀ x, (inst.presolve maxRounds validates).inst.IsFeasible x ↔
        inst.IsFeasible x ∧ (maxRounds ≤ 0 ∨ ∀ i, p.Withstands x i) := by
  obtain ⟨p, k, hp, hzero, hinst⟩ := exists_presolve h
  have hread := isReadAs_of_toFormulation hp
  have hcarries := hread.carries hfin
  refine ⟨p, hp, hcarries, fun x => hread.isFeasible hfin, fun x => ?_⟩
  rw [hinst, hread.isFeasible hfin]
  cases k with
  | zero =>
    rw [Function.iterate_zero_apply, hcarries.isFeasible_adopt]
    exact (and_iff_left (.inl (hzero.mp rfl))).symm
  | succ k =>
    have hnum := hcarries.coefficients.isNumericRow
    have hpos : ¬ maxRounds ≤ 0 := fun hle => Nat.succ_ne_zero k (hzero.mpr hle)
    rw [Formulation.iterate_tighten_succ hnum, hcarries.tighten.isFeasible_adopt,
      Formulation.isFeasible_tighten hcarries.coefficients, or_iff_right hpos]

end Instance

end CoefficientTightening
