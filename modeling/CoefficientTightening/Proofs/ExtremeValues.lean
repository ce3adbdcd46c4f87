import CoefficientTightening.Proofs.Points

/-! The extreme of a rational function over a set of points, on one side. Either a point of the set
attains it, or the values go past every rational and the extreme is the infinity of that side. The
bound of a range is the extreme of its values; extremes may be scaled, carried over to other points,
and added as soon as the points for the two summands can be chosen apart. An extreme is the best bound
there is: no value passes it, and no other bound on that side is tighter. -/
namespace CoefficientTightening

open Extended (finite infinite nan)

namespace Side

/-- The value does not pass the bound on this side. -/
def Bounds {α : Type} [LE α] : Side → (bound value : α) → Prop
  | lower, bound, value => bound ≤ value
  | upper, bound, value => value ≤ bound

/-- What lies past every rational on this side. -/
def infinity : Side → Extended
  | lower => infinite true
  | upper => infinite false

variable {side : Side} {a b v w : ℚ}

theorem bounds_iff : side.Bounds b v ↔ side.orientation * (v - b) ≤ 0 := by
  cases side <;> simp only [Bounds, orientation] <;> constructor <;> intro h <;> linarith

theorem bounds_finite : side.Bounds (finite b) (finite v) ↔ side.Bounds b v := by
  cases side <;> exact Extended.finite_le _ _

theorem bounds_opposite : side.opposite.Bounds v w ↔ side.Bounds w v := by
  cases side <;> rfl

theorem bounds_self (side : Side) (v : ℚ) : side.Bounds v v := by
  cases side <;> exact le_refl v

theorem Bounds.trans (h : side.Bounds b v) (h' : side.Bounds v w) : side.Bounds b w := by
  cases side
  · exact le_trans h h'
  · exact le_trans h' h

theorem Bounds.add {b' v' : ℚ} (h : side.Bounds b v) (h' : side.Bounds b' v') :
    side.Bounds (b + b') (v + v') := by
  cases side <;> exact add_le_add h h'

/-- A bound of values gives one of their multiples, on the side from which the coefficient turns. -/
theorem bounds_mul (side : Side) (ha : a ≠ 0) :
    (side.facing (finite a)).Bounds b v ↔ side.Bounds (a * b) (a * v) := by
  rcases lt_or_gt_of_ne ha with hneg | hpos
  · rw [side.facing_of_neg hneg]
    cases side <;> exact (mul_le_mul_left_of_neg hneg).symm
  · rw [side.facing_of_pos hpos]
    cases side <;> exact (mul_le_mul_iff_right₀ hpos).symm

/-- Two values have a common bound. -/
theorem exists_bounds (side : Side) (v w : ℚ) : ∃ b, side.Bounds b v ∧ side.Bounds b w := by
  cases side
  · exact ⟨min v w, min_le_left v w, min_le_right v w⟩
  · exact ⟨max v w, le_max_left v w, le_max_right v w⟩

theorem infinity_bounds (side : Side) (v : ℚ) : side.Bounds side.infinity (finite v) := by
  cases side <;> rfl

theorem infinity_bounds_self (side : Side) : side.Bounds side.infinity side.infinity := by
  cases side <;> rfl

theorem infinity_add_self (side : Side) : side.infinity + side.infinity = side.infinity := by
  cases side <;> rfl

theorem finite_add_infinity (side : Side) (q : ℚ) : finite q + side.infinity = side.infinity := by
  cases side <;> rfl

theorem infinity_add_finite (side : Side) (q : ℚ) : side.infinity + finite q = side.infinity := by
  cases side <;> rfl

theorem finite_mul_infinity (side : Side) (ha : a ≠ 0) :
    finite a * (side.facing (finite a)).infinity = side.infinity := by
  rcases lt_or_gt_of_ne ha with hneg | hpos
  · rw [side.facing_of_neg hneg]
    cases side <;> show Extended.mul _ _ = _ <;>
      simp [Extended.mul, Extended.negative?, infinity, opposite, hneg]
  · rw [side.facing_of_pos hpos]
    cases side <;> show Extended.mul _ _ = _ <;>
      simp [Extended.mul, Extended.negative?, infinity, hpos, hpos.not_gt]

/-- Only the infinity of a side is past every rational there. -/
theorem Bounds.eq_infinity {B : Extended} (h : ∀ k : ℚ, ∃ v, side.Bounds v k ∧
    side.Bounds B (finite v)) : B = side.infinity := by
  cases B with
  | finite q =>
    obtain ⟨v, hk, hv⟩ := h (q + side.orientation)
    have hpast : side.Bounds q (q + side.orientation) := (bounds_finite.mp hv).trans hk
    rw [bounds_iff, add_sub_cancel_left, orientation_mul_self] at hpast
    exact absurd hpast one_pos.not_ge
  | infinite s =>
    obtain ⟨v, -, hv⟩ := h 0
    cases side <;> cases s
    · cases hv
    · rfl
    · rfl
    · cases hv
  | nan =>
    obtain ⟨v, -, hv⟩ := h 0
    cases side <;> cases hv

end Side

/-! ### Extremes -/

/-- An extreme of the values of a function on a set of points: one that a point attains, or the
infinity of the side if the values go past every rational. -/
inductive Extremum {X : Type} (side : Side) (S : X → Prop) (f : X → ℚ) : Extended → Prop
  | attained (x : X) (hx : S x) (h : ∀ y, S y → side.Bounds (f x) (f y)) :
    Extremum side S f (finite (f x))
  | unbounded (h : ∀ k, ∃ x, S x ∧ side.Bounds (f x) k) : Extremum side S f side.infinity

/-- A bound that no value passes on its side, and the tightest one: it is the value at some point if
it is finite, and otherwise the values go past every rational. -/
structure IsTightBound {X : Type} (side : Side) (S : X → Prop) (f : X → ℚ) (bound : Extended) :
    Prop where
  ne_nan : bound ≠ nan
  bounds : ∀ x, S x → side.Bounds bound (finite (f x))
  least : ∀ other, (∀ x, S x → side.Bounds other (finite (f x))) → side.Bounds other bound
  attained : Scalar.isFinite bound = true → ∃ x, S x ∧ finite (f x) = bound
  unbounded : Scalar.isFinite bound = false → ∀ k, ∃ x, S x ∧ side.Bounds (f x) k

namespace Extremum

variable {X Y : Type} {side : Side} {S : X → Prop} {T : Y → Prop} {f g : X → ℚ} {M N : Extended}

theorem exists_point (h : Extremum side S f M) : ∃ x, S x := by
  cases h with
  | attained x hx _ => exact ⟨x, hx⟩
  | unbounded h =>
    obtain ⟨x, hx, -⟩ := h 0
    exact ⟨x, hx⟩

theorem isTightBound (h : Extremum side S f M) : IsTightBound side S f M := by
  cases h with
  | attained x hx h =>
    exact
      { ne_nan := Extended.noConfusion
        bounds := fun y hy => Side.bounds_finite.mpr (h y hy)
        least := fun other hother => hother x hx
        attained := fun _ => ⟨x, hx, rfl⟩
        unbounded := fun hfin => Bool.noConfusion hfin }
  | unbounded h =>
    have hspecial : Scalar.isFinite side.infinity = false := by cases side <;> rfl
    refine
      { ne_nan := by cases side <;> exact Extended.noConfusion
        bounds := fun x _ => side.infinity_bounds (f x)
        least := fun other hother => ?_
        attained := fun hfin => by rw [hspecial] at hfin; cases hfin
        unbounded := fun _ => h }
    have hpast : other = side.infinity := Side.Bounds.eq_infinity fun k => by
      obtain ⟨x, hx, hk⟩ := h k
      exact ⟨f x, hk, hother x hx⟩
    rw [hpast]
    exact side.infinity_bounds_self

/-- Points whose images are the points of another set have the same extreme. -/
theorem comp {p : Y → X} (h : Extremum side S f M) (hmap : ∀ y, T y → S (p y))
    (hsurj : ∀ x, S x → ∃ y, T y ∧ p y = x) : Extremum side T (fun y => f (p y)) M := by
  cases h with
  | attained x hx h =>
    obtain ⟨y, hy, rfl⟩ := hsurj x hx
    exact .attained (f := fun y => f (p y)) y hy fun y' hy' => h (p y') (hmap y' hy')
  | unbounded h =>
    refine .unbounded fun k => ?_
    obtain ⟨x, hx, hk⟩ := h k
    obtain ⟨y, hy, rfl⟩ := hsurj x hx
    exact ⟨y, hy, hk⟩

/-- A multiple has its extreme where the coefficient faces. -/
theorem mul {a : ℚ} (ha : a ≠ 0) (h : Extremum (side.facing (finite a)) S f M) :
    Extremum side S (fun x => a * f x) (finite a * M) := by
  cases h with
  | attained x hx h =>
    exact .attained (f := fun x => a * f x) x hx fun y hy => (side.bounds_mul ha).mp (h y hy)
  | unbounded h =>
    rw [side.finite_mul_infinity ha]
    refine .unbounded fun k => ?_
    obtain ⟨x, hx, hk⟩ := h (k / a)
    refine ⟨x, hx, ?_⟩
    rwa [side.bounds_mul ha, mul_div_cancel₀ k ha] at hk

theorem const {x : X} (hx : S x) (side : Side) (q : ℚ) :
    Extremum side S (fun _ => q) (finite q) :=
  .attained (f := fun _ => q) x hx fun _ _ => side.bounds_self q

/-- Extremes add up if the points for the two summands can be chosen apart. -/
theorem add (hf : Extremum side S f M) (hg : Extremum side S g N)
    (happart : ∀ x y, S x → S y → ∃ z, S z ∧ f z = f x ∧ g z = g y) :
    Extremum side S (fun x => f x + g x) (M + N) := by
  have hpast : ∀ u v k : ℚ, side.Bounds u (k - v) → side.Bounds (u + v) k := fun u v k h => by
    have hadd := h.add (side.bounds_self v)
    rwa [sub_add_cancel] at hadd
  cases hf with
  | attained x hx hf =>
    cases hg with
    | attained y hy hg =>
      obtain ⟨z, hz, hfz, hgz⟩ := happart x y hx hy
      rw [Extended.finite_add, ← hfz, ← hgz]
      refine .attained (f := fun x => f x + g x) z hz fun w hw => ?_
      rw [hfz, hgz]
      exact (hf w hw).add (hg w hw)
    | unbounded hg =>
      rw [side.finite_add_infinity]
      refine .unbounded fun k => ?_
      obtain ⟨y, hy, hk⟩ := hg (k - f x)
      obtain ⟨z, hz, hfz, hgz⟩ := happart x y hx hy
      refine ⟨z, hz, ?_⟩
      rw [hfz, hgz, add_comm]
      exact hpast _ _ _ hk
  | unbounded hf =>
    obtain ⟨y, hy⟩ := hg.exists_point
    have hsum : side.infinity + N = side.infinity := by
      cases hg with
      | attained => exact side.infinity_add_finite _
      | unbounded => exact side.infinity_add_self
    rw [hsum]
    refine .unbounded fun k => ?_
    obtain ⟨x, hx, hk⟩ := hf (k - g y)
    obtain ⟨z, hz, hfz, hgz⟩ := happart x y hx hy
    refine ⟨z, hz, ?_⟩
    rw [hfz, hgz]
    exact hpast _ _ _ hk

/-- The lower extreme of a function is not above its upper one. -/
theorem lower_le_upper (hlow : Extremum .lower S f M) (hhigh : Extremum .upper S f N) : M ≤ N := by
  cases hlow with
  | attained x hx _ => exact hhigh.isTightBound.bounds x hx
  | unbounded _ =>
    cases hhigh with
    | attained y _ _ => exact Side.lower.infinity_bounds (f y)
    | unbounded _ => rfl

end Extremum

end CoefficientTightening
