import CoefficientTightening.Scalar.Extended
import Mathlib.Algebra.BigOperators.Group.List.Basic
import Mathlib.Algebra.Field.Rat
import Mathlib.Algebra.Order.Ring.Rat

/-! Laws of exact arithmetic with special values. On finite operands it is rational arithmetic.
Addition is commutative and associative also where infinities of both signs meet, so sums do not
depend on their order; a sum is finite exactly when every summand is, and a summand that is not
finite cannot be taken off again: what remains is a NaN. -/
namespace CoefficientTightening.Extended

/-- The sum and the zero of the scalars are those of the monoid below. -/
instance : Add Extended := ⟨add⟩

instance : Zero Extended := ⟨finite 0⟩

/-! ### Finite operands -/

@[simp] theorem zero_eq : (0 : Extended) = finite 0 := rfl

@[simp] theorem one_eq : (1 : Extended) = finite 1 := rfl

@[simp] theorem finite_add (p q : ℚ) : finite p + finite q = finite (p + q) := rfl

@[simp] theorem finite_mul (p q : ℚ) : finite p * finite q = finite (p * q) := rfl

@[simp] theorem neg_finite (p : ℚ) : -finite p = finite (-p) := rfl

theorem sub_eq (a b : Extended) : a - b = a + -b := rfl

@[simp] theorem finite_sub (p q : ℚ) : finite p - finite q = finite (p - q) := by
  rw [sub_eq, neg_finite, finite_add, sub_eq_add_neg]

@[simp] theorem finite_lt (p q : ℚ) : finite p < finite q ↔ p < q := by
  show decide (p < q) = true ↔ p < q
  simp

@[simp] theorem finite_le (p q : ℚ) : finite p ≤ finite q ↔ p ≤ q := by
  show (decide (p < q) || decide (p = q)) = true ↔ p ≤ q
  simp [le_iff_lt_or_eq]

@[simp] theorem finite_beq (p q : ℚ) : (finite p == finite q) = decide (p = q) := rfl

@[simp] theorem isFinite_finite (q : ℚ) : Scalar.isFinite (finite q) = true := rfl

@[simp] theorem isFinite_infinite (s : Bool) : Scalar.isFinite (infinite s) = false := rfl

@[simp] theorem isFinite_nan : Scalar.isFinite nan = false := rfl

theorem isFinite_iff {a : Extended} : Scalar.isFinite a = true ↔ ∃ q, a = finite q := by
  cases a <;> simp

/-- A value of numbers other than a NaN is equal to itself only. -/
theorem beq_iff {a b : Extended} : (a == b) = true ↔ a = b ∧ a ≠ nan := by
  show eqv a b = true ↔ _
  cases a <;> cases b <;> simp [eqv]

/-! ### Special values -/

@[simp] theorem neg_infinite (s : Bool) : -infinite s = infinite (!s) := rfl

@[simp] theorem neg_nan : -nan = nan := rfl

@[simp] theorem neg_neg (a : Extended) : - -a = a := by
  cases a <;> simp

@[simp] theorem nan_add (a : Extended) : nan + a = nan := by
  cases a <;> rfl

@[simp] theorem add_nan (a : Extended) : a + nan = nan := by
  cases a <;> rfl

@[simp] theorem finite_add_infinite (q : ℚ) (s : Bool) : finite q + infinite s = infinite s := rfl

@[simp] theorem infinite_add_finite (q : ℚ) (s : Bool) : infinite s + finite q = infinite s := rfl

theorem infinite_add_infinite (s t : Bool) :
    infinite s + infinite t = if s = t then infinite s else nan := rfl

@[simp] theorem nan_mul (a : Extended) : nan * a = nan := by
  cases a <;> rfl

@[simp] theorem mul_nan (a : Extended) : a * nan = nan := by
  cases a <;> rfl

theorem not_lt_nan (a : Extended) : ¬ a < nan := by
  show ¬ lt a nan = true
  cases a <;> simp [lt]

/-- Only finite factors have a finite product. -/
theorem finite_of_mul {a b : Extended} {q : ℚ} (h : a * b = finite q) :
    (∃ p, a = finite p) ∧ ∃ r, b = finite r := by
  change mul a b = finite q at h
  unfold mul at h
  split at h
  · exact ⟨⟨_, rfl⟩, ⟨_, rfl⟩⟩
  · cases h
  · cases h
  · split at h <;> cases h

/-- Only finite summands have a finite sum. -/
theorem finite_of_add {a b : Extended} {q : ℚ} (h : a + b = finite q) :
    (∃ p, a = finite p) ∧ ∃ r, b = finite r := by
  change add a b = finite q at h
  unfold add at h
  split at h
  · exact ⟨⟨_, rfl⟩, ⟨_, rfl⟩⟩
  · cases h
  · cases h
  · split at h <;> cases h
  · cases h
  · cases h

theorem finite_of_sub {a b : Extended} {q : ℚ} (h : a - b = finite q) :
    (∃ p, a = finite p) ∧ ∃ r, b = finite r := by
  obtain ⟨ha, r, hr⟩ := finite_of_add (b := -b) h
  refine ⟨ha, ?_⟩
  cases b with
  | finite p => exact ⟨p, rfl⟩
  | infinite s => cases hr
  | nan => cases hr

/-! ### Sums -/

instance : AddCommMonoid Extended where
  add_assoc a b c := by
    rcases a with p | s | _ <;> rcases b with q | t | _ <;> rcases c with r | u | _ <;>
      (try cases s) <;> (try cases t) <;> (try cases u) <;> simp [infinite_add_infinite, add_assoc]
  zero_add a := by cases a <;> simp
  add_zero a := by cases a <;> simp
  add_comm a b := by
    rcases a with p | s | _ <;> rcases b with q | t | _ <;>
      (try cases s) <;> (try cases t) <;> simp [infinite_add_infinite, add_comm]
  nsmul := nsmulRec

@[simp] theorem finite_zero_add (a : Extended) : finite 0 + a = a := zero_add a

@[simp] theorem add_finite_zero (a : Extended) : a + finite 0 = a := add_zero a

/-- The rational value of a finite number, zero for the others. -/
def toRat : Extended → ℚ
  | finite q => q
  | _ => 0

@[simp] theorem toRat_finite (q : ℚ) : (finite q).toRat = q := rfl

theorem finite_toRat {a : Extended} (h : Scalar.isFinite a = true) : finite a.toRat = a := by
  obtain ⟨q, rfl⟩ := isFinite_iff.mp h
  rfl

theorem sum_map_finite {ι : Type} (l : List ι) (f : ι → ℚ) :
    (l.map fun i => finite (f i)).sum = finite (l.map f).sum := by
  induction l with
  | nil => rfl
  | cons i rest ih => simp [ih]

theorem finite_of_sum {l : List Extended} {q : ℚ} (h : l.sum = finite q) {a : Extended}
    (ha : a ∈ l) : Scalar.isFinite a = true := by
  induction l generalizing q with
  | nil => cases ha
  | cons b rest ih =>
    rw [List.sum_cons] at h
    obtain ⟨hb, r, hr⟩ := finite_of_add h
    rcases List.mem_cons.mp ha with rfl | hmem
    · exact isFinite_iff.mpr hb
    · exact ih hr hmem

theorem add_sub_self_of_not_finite {a b : Extended} (ha : Scalar.isFinite a = false) :
    a + b - a = nan := by
  rcases a with p | s | _
  · simp at ha
  · rw [sub_eq, neg_infinite]
    rcases b with q | t | _
    · simp [infinite_add_infinite]
    · cases s <;> cases t <;> simp [infinite_add_infinite]
    · simp
  · simp [sub_eq]

/-- A summand that is not finite cannot be taken off again. -/
theorem sum_sub_of_not_finite {l : List Extended} {a : Extended} (hmem : a ∈ l)
    (ha : Scalar.isFinite a = false) : l.sum - a = nan := by
  obtain ⟨before, after, rfl⟩ := List.append_of_mem hmem
  rw [List.perm_middle.sum_eq, List.sum_cons]
  exact add_sub_self_of_not_finite ha

end CoefficientTightening.Extended
