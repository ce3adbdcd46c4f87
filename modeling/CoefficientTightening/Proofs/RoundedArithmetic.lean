import CoefficientTightening.Proofs.ExactArithmetic

/-! What exact and rounded arithmetic have in common. A number stands for an exact value, and
comparisons compare these values. An operation rounds: its result stands for the exact result where
that is infinite or a NaN, and is otherwise not separated from it by any number, so a sum of two
numbers within a range of numbers stays within that range. Exact arithmetic rounds in this sense
without changing anything, and doubles do so too (`Binary64`). A term that is not finite is never
lost from a rounded sum: whatever is added to it later, taking it off leaves a NaN. -/
namespace CoefficientTightening

open Extended (finite infinite nan)

/-- A rounded result: special values are kept, and no number lies strictly between the exact and the
rounded value. -/
structure RoundsTo {α : Type} (denote : α → Extended) (exact rounded : Extended) : Prop where
  special : Scalar.isFinite exact = false → rounded = exact
  not_below : ∀ c, denote c ≤ exact → denote c ≤ rounded
  not_above : ∀ c, exact ≤ denote c → rounded ≤ denote c

/-- Scalars that stand for exact values, with operations that round. -/
class RoundedScalar (α : Type) [Scalar α] where
  denote : α → Extended
  denote_lt : ∀ a b : α, a < b ↔ denote a < denote b
  denote_le : ∀ a b : α, a ≤ b ↔ denote a ≤ denote b
  denote_beq : ∀ a b : α, (a == b) = (denote a == denote b)
  isFinite_denote : ∀ a : α, Scalar.isFinite (denote a) = Scalar.isFinite a
  denote_zero : denote 0 = finite 0
  denote_neg : ∀ a : α, denote (-a) = -denote a
  denote_add : ∀ a b : α, RoundsTo denote (denote a + denote b) (denote (a + b))
  denote_sub : ∀ a b : α, RoundsTo denote (denote a - denote b) (denote (a - b))
  denote_mul : ∀ a b : α, RoundsTo denote (denote a * denote b) (denote (a * b))

theorem RoundsTo.refl {α : Type} (denote : α → Extended) (exact : Extended) :
    RoundsTo denote exact exact := ⟨fun _ => rfl, fun _ h => h, fun _ h => h⟩

instance : RoundedScalar Extended where
  denote a := a
  denote_lt _ _ := Iff.rfl
  denote_le _ _ := Iff.rfl
  denote_beq _ _ := rfl
  isFinite_denote _ := rfl
  denote_zero := rfl
  denote_neg _ := rfl
  denote_add _ _ := .refl _ _
  denote_sub _ _ := .refl _ _
  denote_mul _ _ := .refl _ _

namespace Extended

/-! ### Values between finite ones -/

theorem ne_nan_of_lt {a b : Extended} (h : a < b) : a ≠ nan ∧ b ≠ nan := by
  rcases a with p | s | _ <;> rcases b with q | t | _ <;> simp <;> cases h

theorem ne_nan_of_le {a b : Extended} (h : a ≤ b) : a ≠ nan ∧ b ≠ nan := by
  rcases a with p | s | _ <;> rcases b with q | t | _ <;> simp <;> cases h

/-- What lies between two finite values is finite. -/
theorem finite_of_between {a : Extended} {p q : ℚ} (h : finite p ≤ a) (h' : a ≤ finite q) :
    ∃ r, a = finite r ∧ p ≤ r ∧ r ≤ q := by
  rcases a with r | s | _
  · exact ⟨r, rfl, (finite_le p r).mp h, (finite_le r q).mp h'⟩
  · cases s
    · cases h'
    · cases h
  · cases h

theorem finite_of_pos_le {a : Extended} {q : ℚ} (h : finite 0 < a) (h' : a ≤ finite q) :
    ∃ r, a = finite r ∧ 0 < r ∧ r ≤ q := by
  rcases a with r | s | _
  · exact ⟨r, rfl, (finite_lt 0 r).mp h, (finite_le r q).mp h'⟩
  · cases s
    · cases h'
    · cases h
  · cases h

theorem finite_of_neg {a : Extended} {q : ℚ} (h : -a = finite q) : a = finite (-q) := by
  rw [← neg_neg a, h, neg_finite]

/-- A sum or difference with a finite first part is no NaN unless the second part is one. -/
theorem finite_add_ne_nan (p : ℚ) {a : Extended} (h : a ≠ nan) : finite p + a ≠ nan := by
  rcases a with q | s | _
  · simp
  · simp
  · exact absurd rfl h

theorem neg_ne_nan {a : Extended} (h : a ≠ nan) : -a ≠ nan := by
  rcases a with q | s | _
  · simp
  · simp
  · exact absurd rfl h

theorem neg_le_neg {a b : Extended} (h : a ≤ b) : -b ≤ -a := by
  rcases a with p | s | _ <;> rcases b with q | t | _
  case finite.finite =>
    rw [neg_finite, neg_finite, finite_le]
    exact neg_le_neg_iff.mpr ((finite_le p q).mp h)
  all_goals (try cases s) <;> (try cases t) <;> first | rfl | cases h

end Extended

section Rounding

open RoundedScalar

variable {α : Type} [Scalar α] [RoundedScalar α] {exact rounded : Extended}

/-- Rounding treats both signs alike if the numbers do. -/
theorem RoundsTo.neg {β : Type} [Neg β] {value : β → Extended}
    (hneg : ∀ c, value (-c) = -value c) (h : RoundsTo value exact rounded) :
    RoundsTo value (-exact) (-rounded) where
  special hexact := by
    rw [h.special]
    cases exact <;> first | rfl | cases hexact
  not_below c hc := by
    have hle := Extended.neg_le_neg hc
    rw [Extended.neg_neg, ← hneg] at hle
    simpa only [hneg, Extended.neg_neg] using Extended.neg_le_neg (h.not_above _ hle)
  not_above c hc := by
    have hle := Extended.neg_le_neg hc
    rw [Extended.neg_neg, ← hneg] at hle
    simpa only [hneg, Extended.neg_neg] using Extended.neg_le_neg (h.not_below _ hle)

/-- A finite result has a finite exact result. -/
theorem RoundsTo.exact_of_finite {q : ℚ} (h : RoundsTo (denote : α → Extended) exact rounded)
    (hfin : rounded = finite q) : ∃ r, exact = finite r := by
  rw [← Extended.isFinite_iff]
  cases hexact : Scalar.isFinite exact with
  | true => rfl
  | false =>
    rw [← h.special hexact, hfin] at hexact
    cases hexact

/-- Rounding makes no NaN: the result lies on the same side of zero. -/
theorem RoundsTo.ne_nan (h : RoundsTo (denote : α → Extended) exact rounded)
    (hexact : exact ≠ nan) : rounded ≠ nan := by
  cases exact with
  | finite q =>
    rcases le_total 0 q with hq | hq
    · exact (Extended.ne_nan_of_le (h.not_below 0 (by simpa [denote_zero] using hq))).2
    · exact (Extended.ne_nan_of_le (h.not_above 0 (by simpa [denote_zero] using hq))).1
  | infinite s =>
    rw [h.special rfl]
    exact hexact
  | nan => exact absurd rfl hexact

end Rounding

namespace RoundedScalar

variable {α : Type} [Scalar α] [RoundedScalar α] {a b c : α} {q : ℚ}

/-! ### Single operations -/

theorem beq_self_iff : (a == a) = true ↔ denote a ≠ nan := by
  rw [denote_beq, Extended.beq_iff, and_iff_right rfl]

theorem beq_zero_iff : (a == 0) = true ↔ denote a = finite 0 := by
  rw [denote_beq, denote_zero, Extended.beq_iff]
  exact and_iff_left_of_imp fun h => by rw [h]; simp

theorem beq_iff_denote : (a == b) = true ↔ denote a = denote b ∧ denote a ≠ nan := by
  rw [denote_beq, Extended.beq_iff]

/-- Adding to zero loses nothing but the sign of a zero. -/
theorem denote_zero_add (a : α) : denote (0 + a) = denote a := by
  have hexact : denote (0 : α) + denote a = denote a := by
    rw [denote_zero, Extended.finite_zero_add]
  have hround := denote_add (0 : α) a
  rw [hexact] at hround
  cases hfin : Scalar.isFinite (denote a) with
  | false => exact hround.special hfin
  | true =>
    obtain ⟨q, hq⟩ := Extended.isFinite_iff.mp hfin
    have hself : denote a ≤ denote a := by rw [hq, Extended.finite_le]
    have hbelow := hround.not_below a hself
    have habove := hround.not_above a hself
    rw [hq] at hbelow habove
    obtain ⟨r, hr, hle, hge⟩ := Extended.finite_of_between hbelow habove
    rw [hr, hq, le_antisymm hge hle]

theorem finite_of_denote_add (h : denote (a + b) = finite q) :
    (∃ p, denote a = finite p) ∧ ∃ r, denote b = finite r := by
  obtain ⟨r, hr⟩ := (denote_add a b).exact_of_finite h
  exact Extended.finite_of_add hr

theorem finite_of_denote_sub (h : denote (a - b) = finite q) :
    (∃ p, denote a = finite p) ∧ ∃ r, denote b = finite r := by
  obtain ⟨r, hr⟩ := (denote_sub a b).exact_of_finite h
  exact Extended.finite_of_sub hr

theorem finite_of_denote_mul (h : denote (a * b) = finite q) :
    (∃ p, denote a = finite p) ∧ ∃ r, denote b = finite r := by
  obtain ⟨r, hr⟩ := (denote_mul a b).exact_of_finite h
  exact Extended.finite_of_mul hr

theorem denote_add_of_nan (ha : denote a = nan) (b : α) : denote (a + b) = nan := by
  rw [(denote_add a b).special] <;> rw [ha, Extended.nan_add]
  rfl

theorem denote_add_of_nan_right (a : α) (hb : denote b = nan) : denote (a + b) = nan := by
  rw [(denote_add a b).special] <;> rw [hb, Extended.add_nan]
  rfl

theorem denote_sub_of_nan (ha : denote a = nan) (b : α) : denote (a - b) = nan := by
  rw [(denote_sub a b).special] <;> rw [ha, Extended.sub_eq, Extended.nan_add]
  rfl

theorem denote_sub_of_nan_right (a : α) (hb : denote b = nan) : denote (a - b) = nan := by
  rw [(denote_sub a b).special] <;> rw [hb, Extended.sub_eq, Extended.neg_nan, Extended.add_nan]
  rfl

theorem denote_mul_ne_nan {p r : ℚ} (ha : denote a = finite p) (hb : denote b = finite r) :
    denote (a * b) ≠ nan := by
  apply (denote_mul a b).ne_nan
  rw [ha, hb, Extended.finite_mul]
  simp

theorem denote_add_ne_nan {p : ℚ} (ha : denote a = finite p) (hb : denote b ≠ nan) :
    denote (a + b) ≠ nan := by
  apply (denote_add a b).ne_nan
  rw [ha]
  exact Extended.finite_add_ne_nan p hb

theorem denote_sub_ne_nan {p : ℚ} (ha : denote a = finite p) (hb : denote b ≠ nan) :
    denote (a - b) ≠ nan := by
  apply (denote_sub a b).ne_nan
  rw [ha]
  exact Extended.finite_add_ne_nan p (Extended.neg_ne_nan hb)

/-! ### Terms that are not finite -/

/-- The total is a sum in which the term stands. -/
def Carries (term total : α) : Prop :=
  ∃ rest, denote total = denote term + rest

variable {term total : α}

theorem not_isFinite_add (hterm : Scalar.isFinite (denote term) = false) (rest : Extended) :
    Scalar.isFinite (denote term + rest) = false := by
  rw [Bool.eq_false_iff]
  intro h
  obtain ⟨q, hq⟩ := Extended.isFinite_iff.mp h
  rw [Extended.isFinite_iff.mpr (Extended.finite_of_add hq).1] at hterm
  cases hterm

theorem carries_add_self (hterm : Scalar.isFinite (denote term) = false) (x : α) :
    Carries term (x + term) := by
  refine ⟨denote x, ?_⟩
  rw [add_comm (denote term), (denote_add x term).special]
  rw [add_comm]
  exact not_isFinite_add hterm _

theorem Carries.add (h : Carries term total) (hterm : Scalar.isFinite (denote term) = false)
    (x : α) : Carries term (total + x) := by
  obtain ⟨rest, hrest⟩ := h
  refine ⟨rest + denote x, ?_⟩
  have hexact : denote total + denote x = denote term + (rest + denote x) := by
    rw [hrest, add_assoc]
  rw [(denote_add total x).special (by rw [hexact]; exact not_isFinite_add hterm _), hexact]

theorem Carries.sub (h : Carries term total) (hterm : Scalar.isFinite (denote term) = false)
    (x : α) : Carries term (total - x) := by
  obtain ⟨rest, hrest⟩ := h
  refine ⟨rest + -denote x, ?_⟩
  have hexact : denote total - denote x = denote term + (rest + -denote x) := by
    rw [hrest, Extended.sub_eq, add_assoc]
  rw [(denote_sub total x).special (by rw [hexact]; exact not_isFinite_add hterm _), hexact]

/-- Taking off a term that is not finite leaves a NaN. -/
theorem Carries.sub_self (h : Carries term total)
    (hterm : Scalar.isFinite (denote term) = false) : denote (total - term) = nan := by
  obtain ⟨rest, hrest⟩ := h
  have hexact : denote total - denote term = nan := by
    rw [hrest, Extended.add_sub_self_of_not_finite hterm]
  rw [(denote_sub total term).special (by rw [hexact]; rfl), hexact]

end RoundedScalar

end CoefficientTightening
