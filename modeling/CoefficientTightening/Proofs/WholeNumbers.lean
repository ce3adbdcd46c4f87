import CoefficientTightening.Proofs.ComputedValues
import CoefficientTightening.Proofs.Points

/-! The numbers computed in a row of whole numbers. An entry weighs the size of its coefficient
times one more than the larger of its column's bounds in size. In the activities, in the rule for
one coefficient and along the row every number is whole, and no larger than the size of the row's
bound and the weight of its entries together: bound and activity move together, and what a cut adds
to the size of the bound it takes off the coefficient's share. -/
namespace CoefficientTightening

open Extended (finite IsSmallWhole)

/-! ### Whole numbers -/

section Wholes

variable {p q : ℚ}

theorem abs_mul_le (p : ℚ) {M : ℚ} (h : |q| ≤ M) : |p * q| ≤ |p| * M := by
  rw [abs_mul]
  exact mul_le_mul_of_nonneg_left h (abs_nonneg p)

/-- What a coefficient loses in size, the bound of its row moves by, times the column's bound. -/
theorem abs_bound_add_le {a a' b t M : ℚ} (habs : |a - a'| + |a'| = |a|) (hM : |t| ≤ M) :
    |b - (a - a') * t| + |a'| * M ≤ |b| + |a| * M :=
  calc |b - (a - a') * t| + |a'| * M
      ≤ |b| + |(a - a') * t| + |a'| * M := by gcongr; exact abs_sub _ _
    _ ≤ |b| + |a - a'| * M + |a'| * M := by gcongr; exact abs_mul_le _ hM
    _ = |b| + |a| * M := by rw [← habs]; ring

/-- Bound, activity of the visited entries and weight of the others, after a cut of the entry between
them. -/
theorem abs_cut_add_le {a a' b t M P V B : ℚ} (habs : |a - a'| + |a'| = |a|) (hM : |t| ≤ M)
    (hle : |b| + |P| + (|a| * (1 + M) + V) ≤ B) : |b - (a - a') * t| + |P + a' * t| + V ≤ B :=
  calc |b - (a - a') * t| + |P + a' * t| + V
      ≤ |b - (a - a') * t| + (|P| + |a'| * M) + V := by
        gcongr
        exact (abs_add_le _ _).trans (add_le_add_right (abs_mul_le a' hM) _)
    _ = |b - (a - a') * t| + |a'| * M + |P| + V := by ring
    _ ≤ |b| + |a| * M + |P| + V :=
        add_le_add_left (add_le_add_left (abs_bound_add_le habs hM) _) _
    _ ≤ |b| + |P| + (|a| * (1 + M) + V) := by linarith [abs_nonneg a]
    _ ≤ B := hle

theorem IsWhole.isSmallWhole (hq : IsWhole q) (h : |q| ≤ 2 ^ 53) : (finite q).IsSmallWhole := by
  obtain ⟨k, rfl⟩ := hq
  exact ⟨k, by exact_mod_cast h, rfl⟩

/-- A finite whole value. -/
def Extended.IsWholeNumber (a : Extended) : Prop := ∃ q, a = finite q ∧ IsWhole q

instance : (a : Extended) → Decidable a.IsWholeNumber
  | .finite q => decidable_of_iff (IsWhole q)
      ⟨fun h => ⟨q, rfl, h⟩, fun ⟨_, heq, h⟩ => Extended.finite.inj heq ▸ h⟩
  | .infinite _ => .isFalse fun ⟨_, heq, _⟩ => Extended.noConfusion heq
  | .nan => .isFalse fun ⟨_, heq, _⟩ => Extended.noConfusion heq

end Wholes

/-! ### Computing small whole numbers -/

namespace Computed

section Small

variable {β γ : Type}

/-- Only small whole numbers are computed. -/
def IsSmall (x : Computed Extended β) : Prop := ∀ z ∈ x.numbers, z.IsSmallWhole

theorem IsSmall.pure (b : β) : (Pure.pure b : Computed Extended β).IsSmall :=
  List.forall_mem_nil _

theorem IsSmall.bind {x : Computed Extended β} {f : β → Computed Extended γ} (hx : x.IsSmall)
    (hf : (f x.result).IsSmall) : (x >>= f).IsSmall :=
  List.forall_mem_append.mpr ⟨hx, hf⟩

theorem IsSmall.number {a : Extended} {q : ℚ} (ha : a = finite q) (hq : IsWhole q)
    (h : |q| ≤ 2 ^ 53) : (Computed.number a).IsSmall :=
  List.forall_mem_singleton.mpr (ha ▸ hq.isSmallWhole h)

theorem IsSmall.bind_number {a : Extended} {q : ℚ} {f : Extended → Computed Extended γ}
    (ha : a = finite q) (hq : IsWhole q) (h : |q| ≤ 2 ^ 53) (hf : (f (finite q)).IsSmall) :
    (Computed.number a >>= f).IsSmall :=
  (IsSmall.number ha hq h).bind (by rw [result_number, ha]; exact hf)

theorem IsSmall.guarded {d limit : Extended} {change : Computed Extended β} {same : β}
    (h : d ≤ limit ∧ 0 < d → change.IsSmall) : (Computed.guarded d limit change same).IsSmall := by
  unfold Computed.guarded
  split
  · next hguard => exact h hguard
  · exact IsSmall.pure same

end Small

/-! ### One coefficient -/

section Rule

variable {side : Side} {a b o t M : ℚ} {range : Interval Extended}

theorem isSmall_excess (side : Side) {next : ℚ} (ha : IsWhole a) (hb : IsWhole b) (ho : IsWhole o)
    (hnext : IsWhole next) (hle : |b| + |o| + |a * next| ≤ 2 ^ 53) :
    (excess side (finite a) (finite b) (finite next) (finite o)).IsSmall := by
  have hmul := ha.mul hnext
  have h0 := abs_nonneg b
  have h1 := abs_nonneg o
  have h2 := abs_nonneg (a * next)
  cases side with
  | lower =>
    have hsum : |-b + o| ≤ |b| + |o| := (abs_add_le _ _).trans (by rw [abs_neg])
    refine .bind_number (Extended.neg_finite b) hb.neg (by rw [abs_neg]; linarith)
      (.bind_number (Extended.finite_add _ _) (hb.neg.add ho) (by linarith)
        (.bind_number (Extended.finite_mul _ _) hmul (by linarith)
          (.number (Extended.finite_add _ _) ((hb.neg.add ho).add hmul) ?_)))
    exact (abs_add_le _ _).trans (by linarith)
  | upper =>
    have hdiff : |b - o| ≤ |b| + |o| := abs_sub _ _
    refine .bind_number (Extended.finite_sub _ _) (hb.sub ho) (by linarith)
      (.bind_number (Extended.finite_mul _ _) hmul (by linarith)
        (.number (Extended.finite_sub _ _) ((hb.sub ho).sub hmul) ?_))
    exact (abs_sub _ _).trans (by linarith)

theorem isSmall_shrink (ha0 : a ≠ 0) (ha : IsWhole a) (hb : IsWhole b) (ho : IsWhole o)
    (ht : IsWhole t) (hrange : range.bound (side.facing (finite a)) = finite t) (hM : |t| ≤ M)
    (hle : |b| + |o| + |a| * (1 + M) ≤ 2 ^ 53) :
    (shrink side (finite a) (finite b) range (finite o)).IsSmall := by
  have hnext := ht.sub (isWhole_orientation (side.facing (finite a)))
  have hnextM : |t - (side.facing (finite a)).orientation| ≤ 1 + M :=
    (abs_sub _ _).trans (by rw [Side.abs_orientation]; linarith)
  have hone := ha.one_le_abs ha0
  have hb0 := abs_nonneg b
  have ho0 := abs_nonneg o
  have hM0 : 0 ≤ M := (abs_nonneg t).trans hM
  have hstep := abs_mul_le a hnextM
  have hMa : 1 + M ≤ |a| * (1 + M) := le_mul_of_one_le_left (by linarith) hone
  have haM : |a| ≤ |a| * (1 + M) := le_mul_of_one_le_right (abs_nonneg a) (by linarith)
  have hd := (isWhole_orientation side).mul ((hb.sub ho).sub (ha.mul hnext))
  refine .bind_number (inward_finite hrange) hnext (by linarith)
    ((isSmall_excess side ha hb ho hnext (by linarith)).bind ?_)
  rw [result_excess, excess_finite]
  generalize side.orientation *
    (b - o - a * (t - (side.facing (finite a)).orientation)) = d at hd
  have hdt := hd.mul ht
  -- what the guard leaves of the excess is no larger than the coefficient
  have hshift : 0 < d → d ≤ |a| → |d * t| ≤ |a| * M := fun h0 hle => by
    rw [abs_mul, abs_of_pos h0]
    exact mul_le_mul hle hM (abs_nonneg t) (abs_nonneg a)
  simp only [Extended.zero_eq, Extended.finite_lt, hrange]
  split_ifs with hpos hneg
  · rw [abs_of_pos hpos] at *
    refine .guarded ?_
    rintro ⟨hlimit, h0⟩
    have h0 := (Extended.finite_lt 0 d).mp h0
    have hlimit := (Extended.finite_le d _).mp hlimit
    have hcut := hshift h0 hlimit
    refine .bind_number (Extended.finite_sub _ _) (ha.sub hd) ?_
      (.bind_number (Extended.finite_mul _ _) hdt (by linarith)
        (.bind_number (Extended.finite_sub _ _) (hb.sub hdt) ?_ (.pure _)))
    · rw [abs_of_nonneg (by linarith)]
      linarith
    · exact (abs_sub _ _).trans (by linarith)
  · rw [abs_of_neg hneg] at *
    refine .bind_number (Extended.neg_finite a) ha.neg (by rw [abs_of_pos (by linarith)]; linarith)
      (.guarded ?_)
    rintro ⟨hlimit, h0⟩
    have h0 := (Extended.finite_lt 0 d).mp h0
    have hlimit := (Extended.finite_le d _).mp hlimit
    have hcut := hshift h0 hlimit
    refine .bind_number (Extended.finite_add _ _) (ha.add hd) ?_
      (.bind_number (Extended.finite_mul _ _) hdt (by linarith)
        (.bind_number (Extended.finite_add _ _) (hb.add hdt) ?_ (.pure _)))
    · rw [abs_of_nonpos (by linarith)]
      linarith
    · exact (abs_add_le _ _).trans (by linarith)
  · exact .pure _

/-- The rule on whole numbers: what the coefficient loses in size, the bound moves by, times the
bound of the column. -/
theorem exists_shrink_eq (ha : IsWhole a) (hb : IsWhole b) (ho : IsWhole o) (ht : IsWhole t)
    (hrange : range.bound (side.facing (finite a)) = finite t) :
    ∃ a', IsWhole a' ∧ |a - a'| + |a'| = |a| ∧
      CoefficientTightening.shrink side (finite a) (finite b) range (finite o) =
        (finite a', finite (b - (a - a') * t)) := by
  have hsame : ∃ a', IsWhole a' ∧ |a - a'| + |a'| = |a| ∧
      (finite a, finite b) = (finite a', finite (b - (a - a') * t)) := ⟨a, ha, by simp, by simp⟩
  have hd := (isWhole_orientation side).mul
    ((hb.sub ho).sub (ha.mul (ht.sub (isWhole_orientation (side.facing (finite a))))))
  rw [shrink_finite hrange (by rw [inward_finite hrange, excess_finite])]
  generalize side.orientation *
    (b - o - a * (t - (side.facing (finite a)).orientation)) = d at hd
  split_ifs with hpos hguard hneg hguard
  · refine ⟨a - d, ha.sub hd, ?_, by rw [sub_sub_cancel]⟩
    rw [sub_sub_cancel, abs_of_pos hguard.2, abs_of_nonneg (by linarith), abs_of_pos hpos]
    ring
  · exact hsame
  · refine ⟨a + d, ha.add hd, ?_, by rw [sub_add_cancel_left, neg_mul, sub_neg_eq_add]⟩
    rw [sub_add_cancel_left, abs_neg, abs_of_pos hguard.2, abs_of_nonpos (by linarith),
      abs_of_neg hneg]
    ring
  · exact hsame
  · exact hsame

end Rule

end Computed

/-! ### The entries of a row -/

/-- The larger of the bounds in size. -/
def Interval.reach (r : Interval Extended) : ℚ := max |r.lower.toRat| |r.upper.toRat|

theorem Interval.abs_bound_le_reach (r : Interval Extended) (side : Side) :
    |(r.bound side).toRat| ≤ r.reach := by
  cases side
  · exact le_max_left _ _
  · exact le_max_right _ _

namespace Tightening

variable {m n : Nat} {columns : Vector (Column Extended) n} {side : Side}

section Definitions

/-- What an entry adds to the weight of its row. -/
def cellWeight (columns : Vector (Column Extended) n) (c : Sparse.Cell Extended n) : ℚ :=
  |c.value.toRat| * (1 + (columns.get c.column).range.reach)

/-- A whole coefficient, in a column with whole bounds unless it is zero. -/
structure IsWholeCell (columns : Vector (Column Extended) n) (c : Sparse.Cell Extended n) : Prop
    where
  value : c.value.IsWholeNumber
  bound : c.value ≠ finite 0 → ∀ side, ((columns.get c.column).range.bound side).IsWholeNumber

instance (columns : Vector (Column Extended) n) (c : Sparse.Cell Extended n) :
    Decidable (IsWholeCell columns c) :=
  decidable_of_iff (c.value.IsWholeNumber ∧ (c.value ≠ finite 0 →
      (columns.get c.column).range.lower.IsWholeNumber ∧
      (columns.get c.column).range.upper.IsWholeNumber))
    ⟨fun h => ⟨h.1, fun h0 side => match side with
        | .lower => (h.2 h0).1
        | .upper => (h.2 h0).2⟩,
      fun h => ⟨h.value, fun h0 => ⟨h.bound h0 .lower, h.bound h0 .upper⟩⟩⟩

/-- The extreme value of an entry's term, as a rational. -/
def extremeValue (columns : Vector (Column Extended) n) (side : Side)
    (c : Sparse.Cell Extended n) : ℚ :=
  c.value.toRat * (extremeBound columns side c).toRat

end Definitions

variable (columns side) in
theorem abs_extremeValue_add_le (c : Sparse.Cell Extended n) :
    |c.value.toRat| + |extremeValue columns side c| ≤ cellWeight columns c := by
  have hbound := (columns.get c.column).range.abs_bound_le_reach (side.facing c.value)
  rw [extremeValue, cellWeight, abs_mul, mul_add, mul_one]
  exact add_le_add_right (mul_le_mul_of_nonneg_left hbound (abs_nonneg _)) _

variable (columns side) in
theorem abs_extremeValue_le (c : Sparse.Cell Extended n) :
    |extremeValue columns side c| ≤ cellWeight columns c :=
  le_of_add_le_of_nonneg_right (abs_extremeValue_add_le columns side c) (abs_nonneg _)

variable (columns side) in
theorem abs_sum_extremeValue_le (cells : List (Sparse.Cell Extended n)) :
    |(cells.map (extremeValue columns side)).sum| ≤ (cells.map (cellWeight columns)).sum := by
  induction cells with
  | nil => exact abs_zero.le
  | cons c rest ih =>
    rw [List.map_cons, List.sum_cons, List.map_cons, List.sum_cons]
    exact (abs_add_le _ _).trans (add_le_add (abs_extremeValue_le columns side c) ih)

/-- The coefficient of an entry that may be cut, and the bound of its column in use. -/
theorem IsWholeCell.exists_extreme {c : Sparse.Cell Extended n} (h : IsWholeCell columns c)
    (h0 : (c.value == 0) = false) (side : Side) :
    ∃ a t, c.value = finite a ∧ a ≠ 0 ∧ IsWhole a ∧
      (columns.get c.column).range.bound (side.facing (finite a)) = finite t ∧ IsWhole t ∧
      |t| ≤ (columns.get c.column).range.reach := by
  obtain ⟨a, hv, ha⟩ := h.value
  rw [hv] at h0
  have ha0 : a ≠ 0 := by simpa using h0
  obtain ⟨t, hrange, ht⟩ := h.bound (by rw [hv]; simpa using ha0) (side.facing (finite a))
  have hreach := (columns.get c.column).range.abs_bound_le_reach (side.facing (finite a))
  rw [hrange] at hreach
  exact ⟨a, t, hv, ha0, ha, hrange, ht, hreach⟩

theorem IsWholeCell.isRegular {c : Sparse.Cell Extended n} (h : IsWholeCell columns c)
    (side : Side) : IsRegular columns side c where
  value := by
    obtain ⟨a, ha, -⟩ := h.value
    rw [ha]
    rfl
  bound hne := by
    obtain ⟨t, ht, -⟩ := h.bound (fun h0 => hne (by rw [h0]; rfl)) (side.facing c.value)
    rw [extremeBound, ht]
    rfl

theorem IsWholeCell.value_mul_extremeBound {c : Sparse.Cell Extended n}
    (h : IsWholeCell columns c) (h0 : c.value ≠ finite 0) :
    c.value * extremeBound columns side c = finite (extremeValue columns side c) := by
  have hregular := h.isRegular side
  have hne : c.value.toRat ≠ 0 := fun heq => h0 (by rw [← hregular.value, heq])
  conv => lhs; rw [← hregular.value, ← hregular.bound hne]
  rfl

theorem IsWholeCell.isWhole_extremeValue {c : Sparse.Cell Extended n} (h : IsWholeCell columns c)
    (side : Side) : IsWhole (extremeValue columns side c) := by
  obtain ⟨a, ha, hwhole⟩ := h.value
  by_cases h0 : c.value = finite 0
  · exact ⟨0, by rw [extremeValue, h0]; simp⟩
  · obtain ⟨t, ht, htwhole⟩ := h.bound h0 (side.facing c.value)
    rw [extremeValue, extremeBound, ht, ha]
    exact hwhole.mul htwhole

end Tightening

namespace Computed

open Tightening

variable {m n : Nat} {columns : Vector (Column Extended) n} {side : Side} {b T : ℚ}
  {cells : List (Sparse.Cell Extended n)}

theorem result_addExtreme {c : Sparse.Cell Extended n} (hc : IsWholeCell columns c) :
    (addExtreme side (finite T) c.value (columns.get c.column).range).result =
      finite (T + extremeValue columns side c) := by
  obtain ⟨a, ha, -⟩ := hc.value
  unfold addExtreme
  rw [ha, isSigned_finite]
  by_cases h0 : a = 0
  · rw [if_neg (by simpa using h0), result_pure, extremeValue, ha, h0]
    simp
  · have hterm : c.value * extremeBound columns side c = _ :=
      hc.value_mul_extremeBound (by rw [ha]; simpa using h0)
    rw [extremeBound, ha] at hterm
    rw [if_pos (by simpa using h0), result_bind, result_number, result_number, hterm,
      Extended.finite_add]

theorem isSmall_addExtreme {c : Sparse.Cell Extended n} (hc : IsWholeCell columns c)
    (hT : IsWhole T) (hle : |T| + cellWeight columns c ≤ 2 ^ 53) :
    (addExtreme side (finite T) c.value (columns.get c.column).range).IsSmall := by
  have hterm := abs_extremeValue_le columns side c
  have hwhole := hc.isWhole_extremeValue side
  have hT0 := abs_nonneg T
  unfold addExtreme
  split
  · next hsigned =>
    have h0 : c.value ≠ finite 0 := fun heq => by simp [heq, isSigned] at hsigned
    exact .bind_number (hc.value_mul_extremeBound h0) hwhole (by linarith)
      (.number (Extended.finite_add _ _) (hT.add hwhole) ((abs_add_le _ _).trans (by linarith)))
  · exact .pure _

/-- Partial sums of whole terms stay below the weight of the entries. -/
theorem isSmall_activityFrom (hcells : ∀ c ∈ cells, IsWholeCell columns c) (hT : IsWhole T)
    (hle : |T| + (cells.map (cellWeight columns)).sum ≤ 2 ^ 53) :
    (activityFrom side (finite T)
      (cells.map fun c => (c.value, (columns.get c.column).range))).IsSmall := by
  induction cells generalizing T with
  | nil => exact .pure _
  | cons c rest ih =>
    obtain ⟨hc, hrest⟩ := List.forall_mem_cons.mp hcells
    rw [List.map_cons, List.sum_cons] at hle
    have hterm := abs_extremeValue_le columns side c
    have hsum := abs_sum_extremeValue_le columns side rest
    have hsum0 := abs_nonneg (rest.map (extremeValue columns side)).sum
    have hnext := abs_add_le T (extremeValue columns side c)
    rw [List.map_cons, activityFrom]
    refine (isSmall_addExtreme hc hT (by linarith)).bind ?_
    rw [result_addExtreme hc]
    exact ih hrest (hT.add (hc.isWhole_extremeValue side)) (by linarith)

theorem isWhole_sum_extremeValue (side : Side) (hcells : ∀ c ∈ cells, IsWholeCell columns c) :
    IsWhole (cells.map (extremeValue columns side)).sum := by
  induction cells with
  | nil => exact ⟨0, rfl⟩
  | cons c rest ih =>
    obtain ⟨hc, hrest⟩ := List.forall_mem_cons.mp hcells
    rw [List.map_cons, List.sum_cons]
    exact (hc.isWhole_extremeValue side).add (ih hrest)

/-- One entry, where those before it add `P` to the activity, and those after it add `S` and weigh
`V`. -/
theorem isSmall_walk_cons {row : Fin m} {position : Nat} {c : Sparse.Cell Extended n}
    {P S V : ℚ} (hc : IsWholeCell columns c) (hb : IsWhole b) (hP : IsWhole P) (hS : IsWhole S)
    (hSV : |S| ≤ V) (hle : |b| + |P| + (cellWeight columns c + V) ≤ 2 ^ 53)
    (hrest : ∀ {b P}, IsWhole b → IsWhole P → |b| + |P| + V ≤ 2 ^ 53 →
      (walk columns row side (position + 1) (finite b) (finite (P + S)) cells).IsSmall) :
    (walk columns row side position (finite b) (finite (P + (extremeValue columns side c + S)))
      (c :: cells)).IsSmall := by
  have hterm := abs_extremeValue_add_le columns side c
  -- an entry that keeps its coefficient joins those before it
  have hkeep : (walk columns row side (position + 1) (finite b)
      (finite (P + (extremeValue columns side c + S))) cells).IsSmall := by
    have hnext := abs_add_le P (extremeValue columns side c)
    have hc0 := abs_nonneg c.value.toRat
    rw [← add_assoc]
    exact hrest hb (hP.add (hc.isWhole_extremeValue side)) (by linarith)
  rw [walk]
  split
  · next hcand =>
    have hnonzero : (c.value == 0) = false := by simpa using (Bool.and_eq_true_iff.mp hcand).2
    obtain ⟨a, t, hv, ha0, ha, hrange, ht, hM⟩ := hc.exists_extreme hnonzero side
    have hτ : extremeValue columns side c = a * t := by
      rw [extremeValue, extremeBound, hv, hrange]
      rfl
    have hweight : cellWeight columns c = |a| * (1 + (columns.get c.column).range.reach) := by
      rw [cellWeight, hv]
      rfl
    rw [hweight] at hle
    rw [hv, Extended.toRat_finite, hτ, hweight] at hterm
    rw [hτ] at hkeep ⊢
    generalize (columns.get c.column).range.reach = M at hM hle hterm
    have hb0 := abs_nonneg b
    have hP0 := abs_nonneg P
    have hS0 := abs_nonneg S
    have hsize := abs_nonneg a
    have hat0 := abs_nonneg (a * t)
    have hPS := abs_add_le P S
    have hothers : P + (a * t + S) - a * t = P + S := by ring
    simp only [hv, hrange]
    refine .bind_number (Extended.finite_mul a t) (ha.mul ht) (by linarith)
      (.bind_number (by rw [Extended.finite_sub, hothers]) (hP.add hS) (by linarith)
        ((isSmall_shrink ha0 ha hb (hP.add hS) ht hrange hM (by linarith)).bind ?_))
    obtain ⟨a', ha', habs, hshrink⟩ := exists_shrink_eq ha hb (hP.add hS) ht hrange
    rw [result_shrink, hshrink]
    dsimp only
    split
    · exact hkeep
    · have hcut : |a - a'| ≤ |a| := by linarith [abs_nonneg a']
      have hloss : |(a - a') * t| ≤ |a| * M :=
        (abs_mul_le _ hM).trans (mul_le_mul_of_nonneg_right hcut ((abs_nonneg t).trans hM))
      have hnext := abs_cut_add_le habs hM hle
      have hb'0 := abs_nonneg (b - (a - a') * t)
      have htotal := abs_add_le (P + a' * t) S
      have hsum : P + (a * t + S) - (a - a') * t = P + a' * t + S := by ring
      exact .bind_number (Extended.finite_sub _ _) (ha.sub ha') (by linarith)
        (.bind_number (Extended.finite_mul _ _) ((ha.sub ha').mul ht) (by linarith)
          (.bind_number (by rw [Extended.finite_sub, hsum])
            ((hP.add (ha'.mul ht)).add hS) (by linarith)
            ((hrest (hb.sub ((ha.sub ha').mul ht)) (hP.add (ha'.mul ht)) hnext).bind
              (.pure _))))
  · exact hkeep

/-- The loop over a row whose entries before `cells` add `P` to the activity. Bound, `P` and the
weight of what is still to come stay below the weight of the row. -/
theorem isSmall_walk {row : Fin m} {P : ℚ} (position : Nat)
    (hcells : ∀ c ∈ cells, IsWholeCell columns c) (hb : IsWhole b) (hP : IsWhole P)
    (hle : |b| + |P| + (cells.map (cellWeight columns)).sum ≤ 2 ^ 53) :
    (walk columns row side position (finite b)
      (finite (P + (cells.map (extremeValue columns side)).sum)) cells).IsSmall := by
  induction cells generalizing b P position with
  | nil => exact .pure _
  | cons c rest ih =>
    obtain ⟨hc, hrest⟩ := List.forall_mem_cons.mp hcells
    rw [List.map_cons, List.sum_cons] at hle
    rw [List.map_cons, List.sum_cons]
    exact isSmall_walk_cons hc hb hP (isWhole_sum_extremeValue side hrest)
      (abs_sum_extremeValue_le columns side rest) hle fun hb hP => ih (position + 1) hrest hb hP

end Computed

end CoefficientTightening
