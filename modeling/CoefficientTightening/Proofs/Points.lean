import CoefficientTightening.Proofs.ClosedForm
import Mathlib.Algebra.BigOperators.Ring.List
import Mathlib.Algebra.Order.Ring.Abs

/-! Points of a formulation, in exact arithmetic. A point is rational in every component; it may lie
in the box that the columns' ranges describe, be whole in the columns that may be tightened, and
satisfy rows. A point of the box satisfies the finite side of a row exactly when its terms together
fall short of their extremes by at least the surplus of the row. Each term falls short by the size
of its coefficient times the distance from the column bound in use, so this form of the row knows
neither sides nor signs. -/
namespace CoefficientTightening

open Extended (finite infinite nan)

/-! ### Values within bounds -/

/-- A whole number. -/
def IsWhole (q : ℚ) : Prop := ∃ k : ℤ, (k : ℚ) = q

instance (q : ℚ) : Decidable (IsWhole q) :=
  decidable_of_iff (q.den = 1)
    ⟨fun h => ⟨q.num, Rat.den_eq_one_iff q |>.mp h⟩, fun ⟨k, h⟩ => h ▸ Rat.den_intCast k⟩

/-- A whole number at less than one unit from another is that number. -/
theorem IsWhole.eq_of_abs_sub_lt {p q : ℚ} (hp : IsWhole p) (hq : IsWhole q) (h : |p - q| < 1) :
    p = q := by
  obtain ⟨k, rfl⟩ := hp
  obtain ⟨l, rfl⟩ := hq
  have hkl : |k - l| < 1 := by exact_mod_cast h
  rw [sub_eq_zero.mp (Int.abs_lt_one_iff.mp hkl)]

section Wholes

variable {p q : ℚ}

theorem IsWhole.add (hp : IsWhole p) (hq : IsWhole q) : IsWhole (p + q) := by
  obtain ⟨k, rfl⟩ := hp
  obtain ⟨l, rfl⟩ := hq
  exact ⟨k + l, Int.cast_add k l⟩

theorem IsWhole.mul (hp : IsWhole p) (hq : IsWhole q) : IsWhole (p * q) := by
  obtain ⟨k, rfl⟩ := hp
  obtain ⟨l, rfl⟩ := hq
  exact ⟨k * l, Int.cast_mul k l⟩

theorem IsWhole.neg (hp : IsWhole p) : IsWhole (-p) := by
  obtain ⟨k, rfl⟩ := hp
  exact ⟨-k, Int.cast_neg k⟩

theorem IsWhole.sub (hp : IsWhole p) (hq : IsWhole q) : IsWhole (p - q) :=
  sub_eq_add_neg p q ▸ hp.add hq.neg

theorem IsWhole.one_le_abs (hp : IsWhole p) (h : p ≠ 0) : 1 ≤ |p| := by
  obtain ⟨k, rfl⟩ := hp
  exact_mod_cast Int.one_le_abs (by exact_mod_cast h)

theorem isWhole_orientation (side : Side) : IsWhole side.orientation := by
  cases side
  · exact ⟨-1, by norm_num [Side.orientation]⟩
  · exact ⟨1, by norm_num [Side.orientation]⟩

/-- There is no whole number strictly between zero and one. -/
theorem IsWhole.nonpos_or_one_le (hp : IsWhole p) : p ≤ 0 ∨ 1 ≤ p := by
  obtain ⟨k, rfl⟩ := hp
  rcases le_or_gt k 0 with hk | hk
  · exact .inl (by exact_mod_cast hk)
  · exact .inr (by exact_mod_cast hk)

end Wholes

/-- A bound that is a whole number, or none at all. -/
def Extended.IsWholeOrInfinite : Extended → Prop
  | finite q => IsWhole q
  | infinite _ => True
  | nan => False

instance : (a : Extended) → Decidable a.IsWholeOrInfinite
  | finite q => inferInstanceAs (Decidable (IsWhole q))
  | infinite _ => .isTrue trivial
  | nan => .isFalse id

namespace Interval

variable {α : Type} [Scalar α]

/-- One side of the range admits the value. -/
def AllowsAt (r : Interval α) (value : α) : Side → Prop
  | .lower => r.lower ≤ value
  | .upper => value ≤ r.upper

def Contains (r : Interval α) (value : α) : Prop :=
  r.AllowsAt value .lower ∧ r.AllowsAt value .upper

instance (r : Interval α) (value : α) : (side : Side) → Decidable (r.AllowsAt value side)
  | .lower => inferInstanceAs (Decidable (r.lower ≤ value))
  | .upper => inferInstanceAs (Decidable (value ≤ r.upper))

instance (r : Interval α) (value : α) : Decidable (r.Contains value) :=
  inferInstanceAs (Decidable (_ ∧ _))

theorem contains_iff (r : Interval α) (value : α) (side : Side) :
    r.Contains value ↔ r.AllowsAt value side.opposite ∧ r.AllowsAt value side := by
  cases side with
  | lower => exact and_comm
  | upper => exact Iff.rfl

theorem allowsAt_setBound_opposite (r : Interval α) (bound value : α) (side : Side) :
    (r.setBound bound side).AllowsAt value side.opposite ↔ r.AllowsAt value side.opposite := by
  cases side <;> rfl

variable {r : Interval Extended} {side : Side} {b v w : ℚ}

theorem allowsAt_iff (hb : r.bound side = finite b) :
    r.AllowsAt (finite v) side ↔ side.orientation * (v - b) ≤ 0 := by
  cases side with
  | lower =>
    rw [AllowsAt, show r.lower = finite b from hb, Extended.finite_le, Side.orientation]
    constructor <;> intro h <;> linarith
  | upper =>
    rw [AllowsAt, show r.upper = finite b from hb, Extended.finite_le, Side.orientation]
    constructor <;> intro h <;> linarith

/-- A side that is not finite admits all rational values or none. -/
theorem allowsAt_congr (h : r.isFiniteAt side = false) (v w : ℚ) :
    r.AllowsAt (finite v) side ↔ r.AllowsAt (finite w) side := by
  have key : ∀ a : Extended, Scalar.isFinite a = false →
      (a ≤ finite v ↔ a ≤ finite w) ∧ (finite v ≤ a ↔ finite w ≤ a) := by
    intro a ha
    rcases a with q | s | _
    · cases ha
    · exact ⟨Iff.rfl, Iff.rfl⟩
    · exact ⟨Iff.rfl, Iff.rfl⟩
  cases side with
  | lower => exact (key r.lower h).1
  | upper => exact (key r.upper h).2

/-- A value within a range lies inward of each finite bound. -/
theorem Contains.orientation_mul_sub (h : r.Contains (finite v)) (hb : r.bound side = finite b) :
    side.orientation * (b - v) = |v - b| := by
  have hside := (allowsAt_iff hb).mp ((r.contains_iff _ side).mp h).2
  rw [side.orientation_mul_eq_abs (by linarith), abs_sub_comm]

/-- A multiple falls short of its extreme by the size of the coefficient times the distance from the
bound that it faces. -/
theorem Contains.mul_bound_eq {a : ℚ} (h : r.Contains (finite v)) (ha : a ≠ 0)
    (hb : r.bound (side.facing (finite a)) = finite b) :
    a * b = a * v + side.orientation * (|a| * |v - b|) := by
  have hface := side.mul_orientation_facing ha
  have hgap := h.orientation_mul_sub hb
  have hunit := (side.facing (finite a)).orientation_mul_self
  generalize (side.facing (finite a)).orientation = o at hface hgap hunit
  calc a * b = a * v + a * (o * o) * (b - v) := by rw [hunit]; ring
    _ = a * v + a * o * (o * (b - v)) := by ring
    _ = a * v + side.orientation * (|a| * |v - b|) := by rw [hface, hgap, mul_assoc]

end Interval

/-! ### Terms -/

namespace Tightening

variable {n : Nat} {columns : Vector (Column Extended) n} {side : Side} {x : Fin n → ℚ}

/-- Distance of a point from the column bound at which an entry's term is most extreme. -/
def gap (columns : Vector (Column Extended) n) (side : Side) (x : Fin n → ℚ)
    (c : Sparse.Cell Extended n) : ℚ :=
  |x c.column - (extremeBound columns side c).toRat|

theorem gap_nonneg (c : Sparse.Cell Extended n) : 0 ≤ gap columns side x c :=
  abs_nonneg _

/-- The extreme of a term is its value at a point and what the value falls short of it. -/
theorem extreme_eq_add {c : Sparse.Cell Extended n} (hc : IsRegular columns side c)
    (hx : (columns.get c.column).range.Contains (finite (x c.column))) :
    c.value.toRat * (extremeBound columns side c).toRat =
      c.value.toRat * x c.column + side.orientation * (|c.value.toRat| * gap columns side x c) := by
  obtain ⟨a, hv⟩ : ∃ a, c.value = finite a := ⟨_, hc.value.symm⟩
  by_cases ha : a = 0
  · simp [hv, ha]
  · have hbound : (columns.get c.column).range.bound (side.facing (finite a)) =
        finite (extremeBound columns side c).toRat := by
      rw [hc.bound (by rwa [hv]), extremeBound, hv]
    have hterm := hx.mul_bound_eq ha hbound
    rwa [gap, hv, Extended.toRat_finite]

end Tightening

/-! ### Rows -/

namespace Formulation

open Tightening

variable {m n : Nat}

section Definitions

/-- The value of a row at a point. -/
def rowValue (p : Formulation Extended m n) (x : Fin n → ℚ) (i : Fin m) : Extended :=
  ((p.matrix.rows.get i).toList.map fun c => c.value * finite (x c.column)).sum

/-- Every component is within the range of its column. -/
def InBox (p : Formulation Extended m n) (x : Fin n → ℚ) : Prop :=
  ∀ j, (p.columns.get j).range.Contains (finite (x j))

/-- The columns that may be tightened have whole components. -/
def IsWholeAt (p : Formulation Extended m n) (x : Fin n → ℚ) : Prop :=
  ∀ j, p.isCandidate j = true → IsWhole (x j)

def SatisfiesRow (p : Formulation Extended m n) (x : Fin n → ℚ) (i : Fin m) : Prop :=
  (p.rows.get i).range.Contains (p.rowValue x i)

def SatisfiesRows (p : Formulation Extended m n) (x : Fin n → ℚ) : Prop :=
  ∀ i, p.SatisfiesRow x i

/-- The bounds of the columns that may be tightened are whole numbers or infinite. -/
def HasWholeBounds (p : Formulation Extended m n) : Prop :=
  ∀ j, p.isCandidate j = true → (p.columns.get j).range.lower.IsWholeOrInfinite ∧
    (p.columns.get j).range.upper.IsWholeOrInfinite

instance (p : Formulation Extended m n) (x : Fin n → ℚ) : Decidable (p.InBox x) :=
  inferInstanceAs (Decidable (∀ j, (p.columns.get j).range.Contains (finite (x j))))

instance (p : Formulation Extended m n) (x : Fin n → ℚ) : Decidable (p.IsWholeAt x) :=
  inferInstanceAs (Decidable (∀ j, p.isCandidate j = true → IsWhole (x j)))

instance (p : Formulation Extended m n) (x : Fin n → ℚ) : Decidable (p.SatisfiesRows x) :=
  inferInstanceAs (Decidable (∀ i, (p.rows.get i).range.Contains (p.rowValue x i)))

instance (p : Formulation Extended m n) : Decidable p.HasWholeBounds :=
  inferInstanceAs (Decidable (∀ j, p.isCandidate j = true → _ ∧ _))

/-- How far a row falls short of its extreme activity at a point of the box. -/
def shortfall (p : Formulation Extended m n) (i : Fin m) (side : Side) (x : Fin n → ℚ) : ℚ :=
  ((p.matrix.rows.get i).toList.map fun c => |c.value.toRat| * gap p.columns side x c).sum

end Definitions

variable {p : Formulation Extended m n} {i : Fin m} {side : Side} {s : ℚ} {x : Fin n → ℚ}

theorem rowValue_eq (hfin : p.HasFiniteCoefficients) (x : Fin n → ℚ) (i : Fin m) :
    p.rowValue x i =
      finite ((p.matrix.rows.get i).toList.map fun c => c.value.toRat * x c.column).sum := by
  rw [rowValue, ← Extended.sum_map_finite]
  congr 1
  apply List.map_congr_left
  intro c hc
  rw [← Extended.finite_mul, Extended.finite_toRat (hfin i c hc)]

/-- A row at a point of the box: the side that is not finite plays no part in where the point lies,
and the other one asks the terms to fall short of their extremes by the surplus. -/
theorem satisfiesRow_iff (hfin : p.HasFiniteCoefficients)
    (hside : (p.rows.get i).range.onlySide? = some side) (hs : p.rowSurplus i side = finite s)
    (hx : p.InBox x) :
    p.SatisfiesRow x i ↔
      (p.rows.get i).range.AllowsAt (finite 0) side.opposite ∧ s ≤ p.shortfall i side x := by
  obtain ⟨b, T, hb, hT, hsurplus⟩ := finite_of_rowSurplus hs
  have hreg := (hfin.isNumericRow i).isRegular hs
  rw [rowActivity_eq, sum_extremeTerm hreg, Extended.finite.injEq] at hT
  rw [surplus_finite, Extended.finite.injEq] at hsurplus
  obtain ⟨V, hV, hshort⟩ : ∃ V, p.rowValue x i = finite V ∧
      T = V + side.orientation * p.shortfall i side x := by
    refine ⟨_, rowValue_eq hfin x i, ?_⟩
    rw [← hT, shortfall, ← List.sum_map_mul_left, ← List.sum_map_add]
    congr 1
    exact List.map_congr_left fun c hc => extreme_eq_add (hreg c hc) (hx c.column)
  have hrest : side.orientation * (V - b) = s - p.shortfall i side x := by
    have hunit := side.orientation_mul_self
    rw [← hsurplus, hshort]
    calc side.orientation * (V - b)
        = side.orientation * (V + side.orientation * p.shortfall i side x - b) -
            side.orientation * side.orientation * p.shortfall i side x := by ring
      _ = _ := by rw [hunit, one_mul]
  rw [SatisfiesRow, hV, Interval.contains_iff _ _ side,
    Interval.allowsAt_congr (Interval.onlySide?_eq_some_iff.mp hside).2 V 0,
    Interval.allowsAt_iff hb, hrest, sub_nonpos]

end Formulation

end CoefficientTightening
