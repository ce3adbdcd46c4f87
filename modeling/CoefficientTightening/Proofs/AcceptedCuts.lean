import CoefficientTightening.Proofs.ChangeTrace
import CoefficientTightening.Proofs.RoundedArithmetic
import Mathlib.Algebra.Order.Group.Abs
import Mathlib.Tactic.Linarith

/-! What an accepted change does to a coefficient, exact or rounded. The guard of the rule admits an
excess that is positive and at most the size of the coefficient. A finite coefficient thus comes
closer to zero and does not change its sign; bound, activity and column bound were finite. An
infinite coefficient is never changed: its term stands in the activity of its row whatever else is
changed there, so the activity of the other columns is a NaN, and so is the excess. A NaN coefficient
is never changed either, but it differs from itself, so the pass records it as changed. -/
namespace CoefficientTightening

open Extended (finite infinite nan)
open RoundedScalar

variable {α : Type} [Scalar α]

section Cases

variable {side : Side} {coef bound others : α} {range : Interval α}

/-- The rule changes nothing, or the excess passed the guard of the coefficient's sign. -/
theorem shrink_cases (side : Side) (coef bound : α) (range : Interval α) (others : α) :
    shrink side coef bound range others = (coef, bound) ∨
    ∃ d, d = excess side coef bound (range.inward (side.facing coef)) others ∧ 0 < d ∧
      (0 < coef ∧ d ≤ coef ∧ shrink side coef bound range others =
          (coef - d, bound - d * range.bound (side.facing coef)) ∨
        coef < 0 ∧ d ≤ -coef ∧ shrink side coef bound range others =
          (coef + d, bound + d * range.bound (side.facing coef))) := by
  unfold shrink
  dsimp only
  split_ifs with hpos hguard hneg hguard
  · exact .inr ⟨_, rfl, hguard.2, .inl ⟨hpos, hguard.1, rfl⟩⟩
  · exact .inl rfl
  · exact .inr ⟨_, rfl, hguard.2, .inr ⟨hneg, hguard.1, rfl⟩⟩
  · exact .inl rfl
  · exact .inl rfl

end Cases

variable [RoundedScalar α]

namespace RoundedScalar

/-! ### The rule at special values -/

variable {side : Side} {coef bound next others : α} {range : Interval α} {q : ℚ}

theorem pos_iff_denote {a : α} : 0 < a ↔ finite 0 < denote a := by
  rw [denote_lt, denote_zero]

theorem neg_iff_denote {a : α} : a < 0 ↔ denote a < finite 0 := by
  rw [denote_lt, denote_zero]

theorem finite_of_denote_inward (h : denote (range.inward side) = finite q) :
    ∃ t, denote (range.bound side) = finite t := by
  cases side with
  | lower => exact (finite_of_denote_add h).1
  | upper => exact (finite_of_denote_sub h).1

/-- Everything that goes into a finite excess is finite. -/
theorem finite_of_denote_excess (h : denote (excess side coef bound next others) = finite q) :
    (∃ b, denote bound = finite b) ∧ (∃ o, denote others = finite o) ∧
      ∃ t, denote next = finite t := by
  cases side with
  | lower =>
    obtain ⟨⟨e, he⟩, t, ht⟩ := finite_of_denote_add h
    obtain ⟨⟨b, hb⟩, hothers⟩ := finite_of_denote_add he
    rw [denote_neg] at hb
    exact ⟨⟨-b, Extended.finite_of_neg hb⟩, hothers, (finite_of_denote_mul ht).2⟩
  | upper =>
    obtain ⟨⟨e, he⟩, t, ht⟩ := finite_of_denote_sub h
    obtain ⟨hbound, hothers⟩ := finite_of_denote_sub he
    exact ⟨hbound, hothers, (finite_of_denote_mul ht).2⟩

theorem denote_excess_of_nan (h : denote others = nan) :
    denote (excess side coef bound next others) = nan := by
  cases side with
  | lower => exact denote_add_of_nan (denote_add_of_nan_right _ h) _
  | upper => exact denote_sub_of_nan (denote_sub_of_nan_right _ h) _

/-- A NaN for the other columns leaves coefficient and bound as they were. -/
theorem shrink_of_others_nan (h : denote others = nan) :
    shrink side coef bound range others = (coef, bound) := by
  rcases shrink_cases side coef bound range others with hsame | ⟨d, rfl, hpos, -⟩
  · exact hsame
  · exact absurd (denote_excess_of_nan h) (Extended.ne_nan_of_lt (pos_iff_denote.mp hpos)).2

/-- So does a NaN coefficient. -/
theorem shrink_of_coef_nan (h : denote coef = nan) :
    shrink side coef bound range others = (coef, bound) := by
  rcases shrink_cases side coef bound range others with hsame | ⟨d, -, -, hpos | hneg⟩
  · exact hsame
  · exact absurd h (Extended.ne_nan_of_lt (pos_iff_denote.mp hpos.1)).2
  · exact absurd h (Extended.ne_nan_of_lt (neg_iff_denote.mp hneg.1)).1

/-! ### The rule at a finite coefficient -/

/-- A finite coefficient is left as it is, or moves towards zero; then the bound was finite and does
not become a NaN. -/
theorem shrink_of_finite {a : ℚ} (ha : denote coef = finite a) :
    shrink side coef bound range others = (coef, bound) ∨
    ∃ b, denote (shrink side coef bound range others).1 = finite b ∧
      (0 ≤ b ∧ b ≤ a ∨ a ≤ b ∧ b ≤ 0) ∧ (∃ β, denote bound = finite β) ∧
      denote (shrink side coef bound range others).2 ≠ nan := by
  have hzero : denote (0 : α) = finite 0 := denote_zero
  have hfinite : ∀ d, 0 < d → ∀ c : ℚ, denote d ≤ finite c →
      d = excess side coef bound (range.inward (side.facing coef)) others →
      ∃ δ β t, denote d = finite δ ∧ 0 < δ ∧ δ ≤ c ∧ denote bound = finite β ∧
        denote (range.bound (side.facing coef)) = finite t := by
    intro d hpos c hle hd
    obtain ⟨δ, hδ, hδ0, hδc⟩ := Extended.finite_of_pos_le (pos_iff_denote.mp hpos) hle
    obtain ⟨⟨β, hβ⟩, -, t, ht⟩ := finite_of_denote_excess (hd ▸ hδ)
    obtain ⟨t', ht'⟩ := finite_of_denote_inward ht
    exact ⟨δ, β, t', hδ, hδ0, hδc, hβ, ht'⟩
  rcases shrink_cases side coef bound range others with hsame | ⟨d, hd, hpos, hup | hdown⟩
  · exact .inl hsame
  · obtain ⟨-, hle, hshrink⟩ := hup
    rw [denote_le, ha] at hle
    obtain ⟨δ, β, t, hδ, hδ0, hδa, hβ, ht⟩ := hfinite d hpos a hle hd
    have hexact : denote coef - denote d = finite (a - δ) := by
      rw [ha, hδ, Extended.finite_sub]
    have hround := denote_sub coef d
    rw [hexact] at hround
    obtain ⟨b, hb, hb0, hba⟩ := Extended.finite_of_between
      (hzero ▸ hround.not_below 0 (by rw [hzero, Extended.finite_le]; linarith))
      (ha ▸ hround.not_above coef (by rw [ha, Extended.finite_le]; linarith))
    rw [hshrink]
    exact .inr ⟨b, hb, .inl ⟨hb0, hba⟩, ⟨β, hβ⟩, denote_sub_ne_nan hβ (denote_mul_ne_nan hδ ht)⟩
  · obtain ⟨-, hle, hshrink⟩ := hdown
    rw [denote_le, denote_neg, ha, Extended.neg_finite] at hle
    obtain ⟨δ, β, t, hδ, hδ0, hδa, hβ, ht⟩ := hfinite d hpos (-a) hle hd
    have hexact : denote coef + denote d = finite (a + δ) := by
      rw [ha, hδ, Extended.finite_add]
    have hround := denote_add coef d
    rw [hexact] at hround
    obtain ⟨b, hb, hba, hb0⟩ := Extended.finite_of_between
      (ha ▸ hround.not_below coef (by rw [ha, Extended.finite_le]; linarith))
      (hzero ▸ hround.not_above 0 (by rw [hzero, Extended.finite_le]; linarith))
    rw [hshrink]
    exact .inr ⟨b, hb, .inr ⟨hba, hb0⟩, ⟨β, hβ⟩, denote_add_ne_nan hβ (denote_mul_ne_nan hδ ht)⟩

/-! ### Terms of the activity -/

variable {term total : α}

theorem Carries.addExtreme (h : Carries term total)
    (hterm : Scalar.isFinite (denote term) = false) (side : Side) (coef : α)
    (range : Interval α) : Carries term (addExtreme side total coef range) := by
  unfold CoefficientTightening.addExtreme
  split
  · exact h.add hterm _
  · exact h

/-- A term that is not finite stands in the activity, in any order of summation. -/
theorem carries_activity {terms : List (α × Interval α)} {t : α × Interval α} (ht : t ∈ terms)
    (hsigned : isSigned t.1 = true) (hterm : term = t.1 * t.2.bound (side.facing t.1))
    (hspecial : Scalar.isFinite (denote term) = false) : Carries term (activity side terms) := by
  have hkeep : ∀ (rest : List (α × Interval α)) (sum : α), Carries term sum →
      Carries term (rest.foldl (fun sum u => addExtreme side sum u.1 u.2) sum) := by
    intro rest
    induction rest with
    | nil => exact fun _ h => h
    | cons u rest ih => exact fun sum h => ih _ (h.addExtreme hspecial side u.1 u.2)
  obtain ⟨before, after, rfl⟩ := List.append_of_mem ht
  rw [activity, List.foldl_append, List.foldl_cons]
  apply hkeep
  rw [addExtreme, if_pos hsigned, ← hterm]
  exact carries_add_self hspecial _

theorem isSigned_of_infinite {a : α} {s : Bool} (h : denote a = infinite s) :
    isSigned a = true := by
  unfold isSigned
  rw [Bool.or_eq_true, decide_eq_true_iff, decide_eq_true_iff, pos_iff_denote, neg_iff_denote, h]
  cases s
  · exact .inl rfl
  · exact .inr rfl

theorem not_isFinite_mul_of_infinite {a : α} {s : Bool} (h : denote a = infinite s) (b : α) :
    Scalar.isFinite (denote (a * b)) = false := by
  rw [Bool.eq_false_iff]
  intro hfin
  obtain ⟨q, hq⟩ := Extended.isFinite_iff.mp hfin
  obtain ⟨⟨p, hp⟩, -⟩ := finite_of_denote_mul hq
  rw [h] at hp
  cases hp

end RoundedScalar

/-! ### The changes of a pass -/

variable {m n : Nat} {p : Formulation α m n} {t : Tightening α m n}

namespace Tightening

/-- The change moves its coefficient towards zero, without a change of sign. -/
structure IsCut (t : Tightening α m n) (a b : ℚ) : Prop where
  old_eq : denote t.old = finite a
  new_eq : denote t.new = finite b
  closer : 0 ≤ b ∧ b < a ∨ a < b ∧ b ≤ 0
  oldBound_finite : ∃ β, denote t.oldBound = finite β
  newBound_ne_nan : denote t.newBound ≠ nan

/-- Every infinite coefficient of the entries has its term in the total. -/
def CarriesInfinite (columns : Vector (Column α) n) (side : Side)
    (order : List (Sparse.Cell α n × Nat)) (total : α) : Prop :=
  ∀ e ∈ order, ∀ s, denote e.1.value = infinite s →
    Carries (e.1.value * extremeBound columns side e.1) total

variable {columns : Vector (Column α) n} {row : Fin m} {side : Side} {bound total : α}
  {entry : Sparse.Cell α n × Nat} {order : List (Sparse.Cell α n × Nat)}

theorem carriesInfinite_activity (columns : Vector (Column α) n) (side : Side)
    (order : List (Sparse.Cell α n × Nat)) :
    CarriesInfinite columns side order
      (activity side (order.map fun e => (e.1.value, (columns.get e.1.column).range))) :=
  fun _ he _ hinf => carries_activity (List.mem_map_of_mem he) (isSigned_of_infinite hinf) rfl
    (not_isFinite_mul_of_infinite hinf _)

theorem CarriesInfinite.sub (h : CarriesInfinite columns side order total) (x : α) :
    CarriesInfinite columns side order (total - x) :=
  fun e he s hinf => (h e he s hinf).sub (not_isFinite_mul_of_infinite hinf _) x

/-- A change of a coefficient that is no NaN is a cut, as long as infinite coefficients have their
terms in the total. -/
theorem IsProposed.exists_isCut (h : IsProposed columns row side bound total entry t)
    (hmem : entry ∈ order) (hcarries : CarriesInfinite columns side order total)
    (hnan : denote t.old ≠ nan) : ∃ a b, t.IsCut a b := by
  have hmoved : ¬ (t.new = t.old) := by
    intro heq
    have hself : (t.new == t.old) = true := by
      rw [heq]
      exact beq_self_iff.mpr hnan
    rw [h.moved] at hself
    cases hself
  have hshrunk := h.shrunk
  rw [← h.old_eq] at hshrunk
  have hnot_same : shrink side t.old bound (columns.get entry.1.column).range
      (total - t.old * extremeBound columns side entry.1) ≠ (t.old, bound) := by
    rw [hshrunk]
    exact fun heq => hmoved (congrArg Prod.fst heq)
  cases hold : denote t.old with
  | finite a =>
    rcases shrink_of_finite hold with hsame | ⟨b, hb, hbetween, hbound, hnew⟩
    · exact absurd hsame hnot_same
    · rw [hshrunk] at hb hnew
      have hne : b ≠ a := by
        intro heq
        have hbeq : (t.new == t.old) = true :=
          beq_iff_denote.mpr ⟨by rw [hb, hold, heq], by rw [hb]; simp⟩
        rw [h.moved] at hbeq
        cases hbeq
      refine ⟨a, b, hold, hb, ?_, by rw [h.oldBound_eq]; exact hbound, hnew⟩
      rcases hbetween with ⟨h0, hle⟩ | ⟨hle, h0⟩
      · exact .inl ⟨h0, lt_of_le_of_ne hle hne⟩
      · exact .inr ⟨lt_of_le_of_ne hle hne.symm, h0⟩
  | infinite s =>
    rw [h.old_eq] at hold hnot_same
    exact absurd (shrink_of_others_nan ((hcarries entry hmem s hold).sub_self
      (not_isFinite_mul_of_infinite hold _))) hnot_same
  | nan => exact absurd hold hnan

/-- A change of a NaN changes nothing. -/
theorem IsProposed.eq_of_nan (h : IsProposed columns row side bound total entry t)
    (hnan : denote t.old = nan) : t.new = t.old ∧ t.newBound = t.oldBound := by
  have hshrunk := h.shrunk
  rw [← h.old_eq, shrink_of_coef_nan hnan] at hshrunk
  rw [h.oldBound_eq]
  exact ⟨(congrArg Prod.fst hshrunk).symm, (congrArg Prod.snd hshrunk).symm⟩

end Tightening

namespace Formulation

open Tightening

/-- Every change of a pass is the change of an entry of its row, at a total that has the terms of all
infinite coefficients. -/
theorem exists_isProposed_of_mem_tightenings (h : t ∈ p.tightenings) :
    ∃ e ∈ p.entries t.row, ∃ T,
      CarriesInfinite p.columns t.side (p.entries t.row) T ∧
        IsProposed p.columns t.row t.side t.oldBound T e t := by
  have hside := onlySide?_of_mem_tightenings h
  rw [mem_tightenings, rowTightenings_eq, rowTighteningsIn_eq_visit hside] at h
  obtain ⟨e, he, b, T, hT, hprop⟩ := exists_isProposed_of_mem_visit
    (I := fun _ total => CarriesInfinite p.columns t.side (p.entries t.row) total)
    (carriesInfinite_activity _ _ _) (fun _ _ _ _ _ hT _ => hT.sub _) h
  refine ⟨e, he, T, hT, ?_⟩
  rw [hprop.oldBound_eq]
  exact hprop

/-- Every change of a pass is a cut, or the change of a NaN. -/
theorem exists_isCut_of_mem_tightenings (h : t ∈ p.tightenings) (hnan : denote t.old ≠ nan) :
    ∃ a b, t.IsCut a b := by
  obtain ⟨e, he, T, hT, hprop⟩ := exists_isProposed_of_mem_tightenings h
  exact hprop.exists_isCut he hT hnan

theorem eq_of_mem_tightenings_of_nan (h : t ∈ p.tightenings) (hnan : denote t.old = nan) :
    t.new = t.old ∧ t.newBound = t.oldBound := by
  obtain ⟨e, -, T, -, hprop⟩ := exists_isProposed_of_mem_tightenings h
  exact hprop.eq_of_nan hnan

end Formulation

end CoefficientTightening
