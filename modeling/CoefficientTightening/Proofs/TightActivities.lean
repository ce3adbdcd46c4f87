import CoefficientTightening.Proofs.ExtremeValues
import CoefficientTightening.Proofs.PositionMap

/-! Activities as tight bounds, in exact arithmetic. Terms are given by index and coefficient, and the
bounds of the columns are looked up in a list or on the axis of an array. If the indices are in range
and mean different columns, and every column has a value between its bounds, then no look-up fails, and
the two activities are the tight bounds of the terms over the box. Each term has its extreme at the
column bound that it faces; since no two terms share a column, the extremes can be taken at once, and
infinities of different signs never meet. -/
namespace CoefficientTightening

open Extended (finite infinite nan)

/-! ### Ranges -/

namespace Interval

/-- A range whose bounds are in order, and infinite on their own sides only. -/
structure IsProper (r : Interval Extended) : Prop where
  lower_le : r.lower ≤ r.upper
  lower_lt : r.lower < infinite false
  lt_upper : infinite true < r.upper

instance (r : Interval Extended) : Decidable r.IsProper :=
  decidable_of_iff (r.lower ≤ r.upper ∧ r.lower < infinite false ∧ infinite true < r.upper)
    ⟨fun ⟨h, hlow, hup⟩ => ⟨h, hlow, hup⟩, fun h => ⟨h.lower_le, h.lower_lt, h.lt_upper⟩⟩

variable {r : Interval Extended} {side : Side} {t v w : ℚ}

theorem allowsAt_iff_bounds (side : Side) (v : Extended) :
    r.AllowsAt v side ↔ side.Bounds (r.bound side) v := by
  cases side <;> rfl

theorem allowsAt_of_infinity (h : r.bound side = side.infinity) (v : ℚ) :
    r.AllowsAt (finite v) side := by
  rw [allowsAt_iff_bounds, h]
  exact side.infinity_bounds v

/-- A side that admits a value admits all values on from it. -/
theorem AllowsAt.mono (h : r.AllowsAt (finite v) side) (hvw : side.Bounds v w) :
    r.AllowsAt (finite w) side := by
  cases hfin : r.isFiniteAt side with
  | false => exact (allowsAt_congr hfin v w).mp h
  | true =>
    obtain ⟨t, ht⟩ := Extended.isFinite_iff.mp hfin
    rw [allowsAt_iff_bounds, ht, Side.bounds_finite] at h ⊢
    exact h.trans hvw

theorem IsProper.bound_cases (h : r.IsProper) (side : Side) :
    (∃ t, r.bound side = finite t) ∨ r.bound side = side.infinity := by
  obtain ⟨l, u⟩ := r
  obtain ⟨-, hl, hu⟩ := h
  cases side with
  | lower =>
    cases l with
    | finite t => exact .inl ⟨t, rfl⟩
    | infinite s =>
      cases s
      · cases hl
      · exact .inr rfl
    | nan => cases hl
  | upper =>
    cases u with
    | finite t => exact .inl ⟨t, rfl⟩
    | infinite s =>
      cases s
      · exact .inr rfl
      · cases hu
    | nan => cases hu

/-- A finite bound is itself a value of the range. -/
theorem IsProper.contains_bound (h : r.IsProper) (ht : r.bound side = finite t) :
    r.Contains (finite t) := by
  have hself : r.AllowsAt (finite t) side := by
    rw [allowsAt_iff_bounds, ht, Side.bounds_finite]
    exact side.bounds_self t
  have hother : r.AllowsAt (finite t) side.opposite := by
    rw [← ht]
    cases side <;> exact h.lower_le
  exact (r.contains_iff _ side).mpr ⟨hother, hself⟩

theorem IsProper.exists_contains (h : r.IsProper) : ∃ v, r.Contains (finite v) := by
  rcases h.bound_cases .lower with ⟨t, ht⟩ | hlow
  · exact ⟨t, h.contains_bound ht⟩
  · rcases h.bound_cases .upper with ⟨t, ht⟩ | hup
    · exact ⟨t, h.contains_bound ht⟩
    · exact ⟨0, allowsAt_of_infinity hlow 0, allowsAt_of_infinity hup 0⟩

/-- A bound of a range is the extreme of its values. -/
theorem IsProper.extremum (h : r.IsProper) (side : Side) :
    Extremum side (fun v => r.Contains (finite v)) (fun v => v) (r.bound side) := by
  rcases h.bound_cases side with ⟨t, ht⟩ | hinf
  · rw [ht]
    refine .attained (f := fun v => v) t (h.contains_bound ht) fun v hv => ?_
    have hside := ((r.contains_iff _ side).mp hv).2
    rwa [allowsAt_iff_bounds, ht, Side.bounds_finite] at hside
  · rw [hinf]
    refine .unbounded fun k => ?_
    obtain ⟨v, hv⟩ := h.exists_contains
    obtain ⟨w, hk, hw⟩ := side.exists_bounds k v
    have hother : r.AllowsAt (finite w) side.opposite :=
      ((r.contains_iff _ side).mp hv).1.mono (Side.bounds_opposite.mpr hw)
    exact ⟨w, (r.contains_iff _ side).mpr ⟨hother, allowsAt_of_infinity hinf w⟩, hk⟩

end Interval

/-! ### Points of a box -/

section Box

variable {n : Nat} {ranges : Vector (Interval Extended) n} {x : Fin n → ℚ}

/-- Every component is within its range. -/
def InRanges (ranges : Vector (Interval Extended) n) (x : Fin n → ℚ) : Prop :=
  ∀ j, (ranges.get j).Contains (finite (x j))

theorem exists_inRanges (h : ∀ j, (ranges.get j).IsProper) : ∃ x, InRanges ranges x := by
  choose x hx using fun j => (h j).exists_contains
  exact ⟨x, hx⟩

theorem InRanges.update (hx : InRanges ranges x) {j : Fin n} {v : ℚ}
    (hv : (ranges.get j).Contains (finite v)) : InRanges ranges (Function.update x j v) := by
  intro k
  by_cases hk : k = j
  · subst hk
    rwa [Function.update_self]
  · rw [Function.update_of_ne hk]
    exact hx k

/-- A column bound is the extreme of its component over the box. -/
theorem extremum_component (h : ∀ j, (ranges.get j).IsProper) (side : Side) (j : Fin n) :
    Extremum side (InRanges ranges) (fun x => x j) ((ranges.get j).bound side) := by
  obtain ⟨x, hx⟩ := exists_inRanges h
  apply ((h j).extremum side).comp fun y hy => hy j
  exact fun v hv => ⟨Function.update x j v, hx.update hv, Function.update_self j v x⟩

end Box

/-! ### Looking up bounds -/

section LookUp

variable {α ε : Type} [Scalar α]

/-- An activity looks up the bounds of its own terms only. -/
theorem activityFrom_congr (side : Side) (read read' : Side → Int → Except ε α)
    {terms : List (Int × α)} (h : ∀ t ∈ terms, ∀ side, read side t.1 = read' side t.1) :
    activityFrom side read terms = activityFrom side read' terms := by
  have hgo : ∀ sum, activityFrom.go side read sum terms =
      activityFrom.go side read' sum terms := by
    induction terms with
    | nil => exact fun _ => rfl
    | cons t rest ih =>
      obtain ⟨hhere, hrest⟩ := List.forall_mem_cons.mp h
      intro sum
      simp only [activityFrom.go, hhere, ih hrest]
  exact hgo 0

/-- A term without a sign adds nothing, and no bound is looked up for it. -/
theorem activityFrom_filter (side : Side) (read : Side → Int → Except ε α)
    (terms : List (Int × α)) :
    activityFrom side read (terms.filter fun t => isSigned t.2) = activityFrom side read terms := by
  have hgo : ∀ sum, activityFrom.go side read sum (terms.filter fun t => isSigned t.2) =
      activityFrom.go side read sum terms := by
    induction terms with
    | nil => exact fun _ => rfl
    | cons t rest ih =>
      intro sum
      cases ht : isSigned t.2 with
      | false => simpa [activityFrom.go, List.filter_cons, ht] using ih sum
      | true => simp only [List.filter_cons, ht, if_true, activityFrom.go, ih]
  exact hgo 0

end LookUp

section Terms

variable {n : Nat}

/-- The component of a point that an index means, zero if there is none. -/
def componentAt (x : Fin n → ℚ) (index : Int) : ℚ :=
  match resolve? n index with
  | some j => x j
  | none => 0

/-- The value at a point of terms given by index and coefficient. -/
def termsValue (terms : List (Int × ℚ)) (x : Fin n → ℚ) : ℚ :=
  (terms.map fun t => t.2 * componentAt x t.1).sum

instance (index : Int) (position : Fin n) : Decidable (IsIndexOf index position) :=
  inferInstanceAs (Decidable (_ ∧ _))

/-- Every index is in range, and no two of them mean the same column. -/
structure HasDistinctColumns (n : Nat) (terms : List (Int × ℚ)) : Prop where
  inRange : ∀ t ∈ terms, ∃ j : Fin n, IsIndexOf t.1 j
  distinct : (terms.map fun t => resolve? n t.1).Nodup

/-- Activity of terms whose column bounds are looked up in a container indexed by `position`. -/
def activityAt (position : (size : Nat) → Int → Except OutOfRange (Fin size))
    (ranges : Vector (Interval Extended) n) (side : Side) (terms : List (Int × ℚ)) :
    Except OutOfRange Extended :=
  activityFrom side (fun side index => (position n index).map fun j => (ranges.get j).bound side)
    (terms.map fun t => (t.1, finite t.2))

/-- The range of the column that an index means, the point zero if there is none. -/
def rangeAt (ranges : Vector (Interval Extended) n) (index : Int) : Interval Extended :=
  match resolve? n index with
  | some j => ranges.get j
  | none => ⟨0, 0⟩

variable {position : (size : Nat) → Int → Except OutOfRange (Fin size)}
  {ranges : Vector (Interval Extended) n} {terms : List (Int × ℚ)} {index : Int} {j : Fin n}

theorem resolve?_of_isIndexOf (h : IsIndexOf index j) : resolve? n index = some j :=
  resolve?_eq_some_iff.mpr h.2

theorem componentAt_eq (h : IsIndexOf index j) (x : Fin n → ℚ) : componentAt x index = x j := by
  rw [componentAt, resolve?_of_isIndexOf h]

theorem rangeAt_eq (h : IsIndexOf index j) : rangeAt ranges index = ranges.get j := by
  rw [rangeAt, resolve?_of_isIndexOf h]

theorem position_eq_ok (hposition : position = listIndex ∨ position = axisIndex)
    (h : IsIndexOf index j) : position n index = .ok j := by
  rcases hposition with rfl | rfl
  · exact listIndex_eq_ok_iff.mpr h
  · exact axisIndex_eq_ok_iff.mpr h

/-- With indices in range no look-up fails, and the activity is that of the columns meant. -/
theorem activityAt_eq (hposition : position = listIndex ∨ position = axisIndex)
    (h : ∀ t ∈ terms, ∃ j : Fin n, IsIndexOf t.1 j) (side : Side) :
    activityAt position ranges side terms =
      .ok (activity side (terms.map fun t => (finite t.2, rangeAt ranges t.1))) := by
  have hread : ∀ t ∈ terms.map (fun t => (t.1, finite t.2)), ∀ side,
      (position n t.1).map (fun j => (ranges.get j).bound side) =
        .ok ((rangeAt ranges t.1).bound side) := by
    intro t ht side
    obtain ⟨u, hu, rfl⟩ := List.mem_map.mp ht
    obtain ⟨j, hj⟩ := h u hu
    rw [position_eq_ok hposition hj, rangeAt_eq hj]
    rfl
  rw [activityAt,
    activityFrom_congr side _ (fun side index => .ok ((rangeAt ranges index).bound side)) hread,
    activityFrom_total, List.map_map]
  rfl

namespace HasDistinctColumns

theorem tail {t : Int × ℚ} (h : HasDistinctColumns n (t :: terms)) : HasDistinctColumns n terms where
  inRange u hu := h.inRange u (List.mem_cons_of_mem _ hu)
  distinct := (List.nodup_cons.mp h.distinct).2

/-- A component that no term means may be moved without changing their value. -/
theorem termsValue_update {t : Int × ℚ} (h : HasDistinctColumns n (t :: terms))
    (ht : IsIndexOf t.1 j) (x : Fin n → ℚ) (v : ℚ) :
    termsValue terms (Function.update x j v) = termsValue terms x := by
  unfold termsValue
  congr 1
  apply List.map_congr_left
  intro u hu
  obtain ⟨k, hk⟩ := h.tail.inRange u hu
  have hne : k ≠ j := by
    rintro rfl
    apply (List.nodup_cons.mp h.distinct).1
    exact List.mem_map.mpr
      ⟨u, hu, (resolve?_of_isIndexOf hk).trans (resolve?_of_isIndexOf ht).symm⟩
  rw [componentAt_eq hk, componentAt_eq hk, Function.update_of_ne hne]

end HasDistinctColumns

/-! ### Activities -/

/-- The most extreme value of one term is its extreme over the box. -/
theorem extremum_term (hranges : ∀ j, (ranges.get j).IsProper) (side : Side) (a : ℚ) (j : Fin n) :
    Extremum side (InRanges ranges) (fun x => a * x j)
      (addExtreme side 0 (finite a) (ranges.get j)) := by
  rw [addExtreme, Tightening.isSigned_finite, zero_add]
  by_cases ha : a = 0
  · obtain ⟨x, hx⟩ := exists_inRanges hranges
    simpa [ha] using Extremum.const hx side 0
  · rw [if_pos (by simpa using ha)]
    exact (extremum_component hranges _ j).mul ha

theorem extremum_activity (hranges : ∀ j, (ranges.get j).IsProper)
    (hindices : HasDistinctColumns n terms) (side : Side) :
    Extremum side (InRanges ranges) (termsValue terms)
      (activity side (terms.map fun t => (finite t.2, rangeAt ranges t.1))) := by
  rw [Tightening.activity_eq, List.map_map]
  induction terms with
  | nil =>
    obtain ⟨x, hx⟩ := exists_inRanges hranges
    exact .const hx side 0
  | cons t rest ih =>
    obtain ⟨j, hj⟩ := hindices.inRange t List.mem_cons_self
    have hvalue : termsValue (t :: rest) = fun x => t.2 * x j + termsValue rest x := by
      funext x
      rw [termsValue, List.map_cons, List.sum_cons, componentAt_eq hj, termsValue]
    rw [hvalue, List.map_cons, List.sum_cons, Function.comp_apply, rangeAt_eq hj]
    refine (extremum_term hranges side t.2 j).add (ih hindices.tail) fun x y hx hy => ?_
    -- the first point gives the component of the term, the second one all others
    refine ⟨Function.update y j (x j), hy.update (hx j), ?_, hindices.termsValue_update hj y (x j)⟩
    rw [Function.update_self]

/-- The two activities of terms with different columns are the tight bounds of their value over the
box: no look-up fails, the smaller one is not above the larger, terms with a zero coefficient add
nothing, and the order of the terms plays no part. -/
theorem activities_are_tight_bounds (hposition : position = listIndex ∨ position = axisIndex)
    (ranges : Vector (Interval Extended) n) (hranges : ∀ j, (ranges.get j).IsProper)
    (terms : List (Int × ℚ)) (hindices : HasDistinctColumns n terms) :
    ∃ low high,
      activityAt position ranges .lower terms = .ok low ∧
      activityAt position ranges .upper terms = .ok high ∧
      IsTightBound .lower (InRanges ranges) (termsValue terms) low ∧
      IsTightBound .upper (InRanges ranges) (termsValue terms) high ∧ low ≤ high ∧
      (∀ side, activityAt position ranges side (terms.filter fun t => t.2 ≠ 0) =
        activityAt position ranges side terms) ∧
      ∀ side terms', terms'.Perm terms →
        activityAt position ranges side terms' = activityAt position ranges side terms := by
  have hlow := extremum_activity hranges hindices .lower
  have hhigh := extremum_activity hranges hindices .upper
  refine ⟨_, _, activityAt_eq hposition hindices.inRange .lower,
    activityAt_eq hposition hindices.inRange .upper, hlow.isTightBound, hhigh.isTightBound,
    hlow.lower_le_upper hhigh, fun side => ?_, fun side terms' hperm => ?_⟩
  · rw [activityAt, activityAt, ← activityFrom_filter side _ (terms.map _), List.filter_map]
    simp only [Function.comp_def, Tightening.isSigned_finite]
  · have hrange' : ∀ t ∈ terms', ∃ j : Fin n, IsIndexOf t.1 j :=
      fun t ht => hindices.inRange t (hperm.mem_iff.mp ht)
    rw [activityAt_eq hposition hrange', activityAt_eq hposition hindices.inRange,
      Tightening.activity_eq, Tightening.activity_eq]
    exact congrArg _ ((hperm.map _).map _).sum_eq

/-- Columns in `[0, ∞)`, `[-2, 5]` and `(-∞, ∞)`. -/
def openRanges : Vector (Interval Extended) 3 :=
  #v[⟨finite 0, infinite false⟩, ⟨finite (-2), finite 5⟩, ⟨infinite true, infinite false⟩]

/-- `0 x₂ - x₁ + 3 x₀` is at least `-5` on these ranges, and has no upper bound; `x₂` is the last
column. -/
theorem openRanges_activities :
    activityAt listIndex openRanges .lower [(-1, 0), (1, -1), (0, 3)] = .ok (finite (-5)) ∧
    activityAt listIndex openRanges .upper [(-1, 0), (1, -1), (0, 3)] = .ok (infinite false) ∧
    IsTightBound .lower (InRanges openRanges) (termsValue [(-1, 0), (1, -1), (0, 3)])
      (finite (-5)) ∧
    IsTightBound .upper (InRanges openRanges) (termsValue [(-1, 0), (1, -1), (0, 3)])
      (infinite false) := by
  have hlower : activityAt listIndex openRanges .lower [(-1, 0), (1, -1), (0, 3)] =
      .ok (finite (-5)) := by decide +kernel
  have hupper : activityAt listIndex openRanges .upper [(-1, 0), (1, -1), (0, 3)] =
      .ok (infinite false) := by decide +kernel
  obtain ⟨low, high, hlow, hhigh, htight, htight', -⟩ :=
    activities_are_tight_bounds (.inl rfl) openRanges (by decide) [(-1, 0), (1, -1), (0, 3)]
      ⟨by decide, by decide⟩
  obtain rfl : finite (-5) = low := Except.ok.inj (hlower.symm.trans hlow)
  obtain rfl : infinite false = high := Except.ok.inj (hupper.symm.trans hhigh)
  exact ⟨hlower, hupper, htight, htight'⟩

end Terms

end CoefficientTightening
