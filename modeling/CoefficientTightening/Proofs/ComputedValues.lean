import CoefficientTightening.Proofs.Binary64.Wholes
import CoefficientTightening.Proofs.ReductionReplay

/-! The numbers that are computed while a row is processed. Each rule is written once more, with the
result of every operation noted down; leaving the notes out gives the rule itself. A run on doubles
follows the run on the exact values of the same data as long as the latter notes only whole numbers
of at most 53 bits: then each number noted has the exact value that the exact run notes, every
comparison comes out the same, and so do the changes found. -/
namespace CoefficientTightening

/-- The change with each number read as another one. -/
def Tightening.map {α β : Type} {m n : Nat} (f : α → β) (t : Tightening α m n) :
    Tightening β m n where
  row := t.row
  side := t.side
  position := t.position
  column := t.column
  old := f t.old
  new := f t.new
  oldBound := f t.oldBound
  newBound := f t.newBound

/-- A result, and all numbers computed on the way to it. -/
structure Computed (α β : Type) where
  result : β
  numbers : List α

namespace Computed

section Runs

variable {α β : Type}

instance : Monad (Computed α) where
  pure x := ⟨x, []⟩
  bind x f := ⟨(f x.result).result, x.numbers ++ (f x.result).numbers⟩

/-- A number just computed. -/
def number (a : α) : Computed α α := ⟨a, [a]⟩

variable {γ : Type} (x : Computed α β) (f : β → Computed α γ) (b : β) (a : α)

@[simp] theorem result_pure : (pure b : Computed α β).result = b := rfl

@[simp] theorem result_bind : (x >>= f).result = (f x.result).result := rfl

@[simp] theorem result_number : (number a).result = a := rfl

@[simp] theorem numbers_bind : (x >>= f).numbers = x.numbers ++ (f x.result).numbers := rfl

@[simp] theorem result_ite {c : Prop} [Decidable c] (y : Computed α β) :
    (if c then x else y).result = if c then x.result else y.result := apply_ite _ _ _ _

end Runs

/-! ### The rules with their numbers -/

section Rules

variable {α : Type} [Scalar α] {m n : Nat}

def excess (side : Side) (coef bound next others : α) : Computed α α :=
  match side with
  | .upper => do
    let room ← number (bound - others)
    let step ← number (coef * next)
    number (room - step)
  | .lower => do
    let turned ← number (-bound)
    let sum ← number (turned + others)
    let step ← number (coef * next)
    number (sum + step)

/-- Go on if the excess passes the guard. -/
def guarded {β : Type} (d limit : α) (change : Computed α β) (same : β) : Computed α β :=
  if d ≤ limit ∧ 0 < d then change else return same

def shrink (side : Side) (coef bound : α) (range : Interval α) (others : α) :
    Computed α (α × α) := do
  let extreme := side.facing coef
  let next ← number (range.inward extreme)
  let d ← excess side coef bound next others
  if 0 < coef then
    guarded d coef (do
      let newCoef ← number (coef - d)
      let shift ← number (d * range.bound extreme)
      let newBound ← number (bound - shift)
      return (newCoef, newBound)) (coef, bound)
  else if coef < 0 then
    let limit ← number (-coef)
    guarded d limit (do
      let newCoef ← number (coef + d)
      let shift ← number (d * range.bound extreme)
      let newBound ← number (bound + shift)
      return (newCoef, newBound)) (coef, bound)
  else return (coef, bound)

def addExtreme (side : Side) (sum coef : α) (range : Interval α) : Computed α α :=
  if isSigned coef then do
    let term ← number (coef * range.bound (side.facing coef))
    number (sum + term)
  else return sum

def activityFrom (side : Side) (sum : α) : List (α × Interval α) → Computed α α
  | [] => return sum
  | t :: rest => do
    let sum ← addExtreme side sum t.1 t.2
    activityFrom side sum rest

def activity (side : Side) (terms : List (α × Interval α)) : Computed α α :=
  activityFrom side 0 terms

def walk (columns : Vector (Column α) n) (row : Fin m) (side : Side) :
    (position : Nat) → (bound total : α) → List (Sparse.Cell α n) →
      Computed α (List (Tightening α m n))
  | _, _, _, [] => return []
  | position, bound, total, cell :: rest =>
    let column := columns.get cell.column
    let coef := cell.value
    if column.isCandidate && !(coef == 0) then do
      let extreme := column.range.bound (side.facing coef)
      let term ← number (coef * extreme)
      let others ← number (total - term)
      let new ← shrink side coef bound column.range others
      if new.1 == coef then walk columns row side (position + 1) bound total rest
      else do
        let cut ← number (coef - new.1)
        let loss ← number (cut * extreme)
        let total ← number (total - loss)
        let later ← walk columns row side (position + 1) new.2 total rest
        return { row, side, position, column := cell.column
                 old := coef, new := new.1, oldBound := bound, newBound := new.2 } :: later
    else walk columns row side (position + 1) bound total rest

/-- Both activities of the row are computed, whichever side is in use. -/
def rowTightenings (p : Formulation α m n) (i : Fin m) : Computed α (List (Tightening α m n)) :=
  let range := (p.rows.get i).range
  let cells := (p.matrix.rows.get i).toList
  match range.onlySide? with
  | none => return []
  | some side =>
    if cells.any fun c => p.columnIsIntegral c.column then do
      let upper ← activity .upper (p.rowTerms i)
      let lower ← activity .lower (p.rowTerms i)
      let total := match side with
        | .upper => upper
        | .lower => lower
      walk p.columns i side 0 (range.bound side) total cells
    else return []

theorem walk_congr {columns columns' : Vector (Column α) n}
    (h : ∀ j, (columns.get j).Alike (columns'.get j)) (row : Fin m) (side : Side)
    (position : Nat) (bound total : α) (cells : List (Sparse.Cell α n)) :
    walk columns' row side position bound total cells =
      walk columns row side position bound total cells := by
  induction cells generalizing position bound total with
  | nil => rfl
  | cons c rest ih =>
    simp only [walk, (h c.column).range, (h c.column).isCandidate, ih]

theorem rowTightenings_congr {p q : Formulation α m n} {i : Fin m}
    (h : Formulation.AgreesAt i p q) : rowTightenings q i = rowTightenings p i := by
  unfold rowTightenings Formulation.rowTerms Formulation.columnIsIntegral
  simp only [Formulation.cells_eq h.row, Formulation.range_eq h.row, (h.columns _).range,
    (h.columns _).kind, walk_congr h.columns]

/-! ### Leaving the numbers out -/

theorem result_excess (side : Side) (coef bound next others : α) :
    (excess side coef bound next others).result =
      CoefficientTightening.excess side coef bound next others := by
  cases side <;> rfl

theorem result_guarded {β : Type} (d limit : α) (change : Computed α β) (same : β) :
    (guarded d limit change same).result = if d ≤ limit ∧ 0 < d then change.result else same :=
  result_ite _ _

theorem result_shrink (side : Side) (coef bound : α) (range : Interval α) (others : α) :
    (shrink side coef bound range others).result =
      CoefficientTightening.shrink side coef bound range others := by
  simp only [shrink, CoefficientTightening.shrink, result_bind, result_number, result_excess,
    result_ite, result_guarded, result_pure]

theorem result_activity (side : Side) (terms : List (α × Interval α)) :
    (activity side terms).result = CoefficientTightening.activity side terms := by
  have hrun : ∀ sum, (activityFrom side sum terms).result =
      terms.foldl (fun sum t => CoefficientTightening.addExtreme side sum t.1 t.2) sum := by
    induction terms with
    | nil => exact fun _ => rfl
    | cons t rest ih =>
      intro sum
      rw [activityFrom, result_bind, ih, List.foldl_cons]
      congr 1
      unfold addExtreme CoefficientTightening.addExtreme
      split <;> rfl
  exact hrun 0

theorem result_walk (columns : Vector (Column α) n) (row : Fin m) (side : Side) (position : Nat)
    (bound total : α) (cells : List (Sparse.Cell α n)) :
    (walk columns row side position bound total cells).result =
      Tightening.walk columns row side position bound total cells := by
  induction cells generalizing position bound total with
  | nil => rfl
  | cons c rest ih =>
    simp only [walk, Tightening.walk, result_ite, result_bind, result_number, result_shrink,
      result_pure, ih]

/-- The changes noted are those of the row. -/
theorem result_rowTightenings (p : Formulation α m n) (i : Fin m) :
    (rowTightenings p i).result = p.rowTightenings i := by
  unfold rowTightenings Formulation.rowTightenings
  dsimp only
  cases (p.rows.get i).range.onlySide? with
  | none => rfl
  | some side =>
    simp only [result_ite, result_bind, result_walk, result_activity, result_pure]
    cases side <;> rfl

end Rules

/-! ### Doubles and exact values -/

open Extended (IsSmallWhole)
open RoundedScalar (denote denote_lt denote_le denote_beq denote_zero denote_neg denote_add
  denote_sub denote_mul)

section Follows

variable {β γ β' γ' : Type}

/-- As long as the exact run computes small whole numbers only, the run on doubles computes the same
numbers, and its result is that of the exact run. -/
def Follows (value : β → γ) (x : Computed Float β) (y : Computed Extended γ) : Prop :=
  (∀ z ∈ y.numbers, z.IsSmallWhole) → x.numbers.map denote = y.numbers ∧ value x.result = y.result

theorem Follows.pure {value : β → γ} {b : β} {c : γ} (h : value b = c) :
    Follows value (Pure.pure b) (Pure.pure c) := fun _ => ⟨rfl, h⟩

theorem Follows.bind {value : β → γ} {value' : β' → γ'} {x : Computed Float β}
    {y : Computed Extended γ} {f : β → Computed Float β'} {g : γ → Computed Extended γ'}
    (h : Follows value x y) (hf : ∀ b, Follows value' (f b) (g (value b))) :
    Follows value' (x >>= f) (y >>= g) := by
  intro hsmall
  rw [numbers_bind, List.forall_mem_append] at hsmall
  obtain ⟨hnumbers, hresult⟩ := h hsmall.1
  obtain ⟨hnumbers', hresult'⟩ := hf x.result (by rw [hresult]; exact hsmall.2)
  rw [hresult] at hnumbers' hresult'
  exact ⟨by rw [numbers_bind, List.map_append, hnumbers, hnumbers', numbers_bind], hresult'⟩

theorem Follows.number {a : Float} {z : Extended} (h : z.IsSmallWhole → denote a = z) :
    Follows denote (Computed.number a) (Computed.number z) := fun hsmall =>
  have heq := h (hsmall z (List.mem_singleton_self z))
  ⟨congrArg ([·]) heq, heq⟩

theorem Follows.ite {value : β → γ} {x x' : Computed Float β} {y y' : Computed Extended γ}
    {c d : Prop} [Decidable c] [Decidable d] (hcd : c ↔ d) (h : Follows value x y)
    (h' : Follows value x' y') : Follows value (if c then x else x') (if d then y else y') := by
  by_cases hc : c
  · rwa [if_pos hc, if_pos (hcd.mp hc)]
  · rwa [if_neg hc, if_neg (mt hcd.mpr hc)]

end Follows

section Rules

variable {m n : Nat}

theorem follows_add (a b : Float) :
    Follows denote (number (a + b)) (number (denote a + denote b)) :=
  .number (Binary64.eq_of_isSmallWhole (denote_add a b))

theorem follows_sub (a b : Float) :
    Follows denote (number (a - b)) (number (denote a - denote b)) :=
  .number (Binary64.eq_of_isSmallWhole (denote_sub a b))

theorem follows_mul (a b : Float) :
    Follows denote (number (a * b)) (number (denote a * denote b)) :=
  .number (Binary64.eq_of_isSmallWhole (denote_mul a b))

theorem follows_neg (a : Float) : Follows denote (number (-a)) (number (-denote a)) :=
  .number fun _ => denote_neg a

theorem follows_excess (side : Side) (coef bound next others : Float) :
    Follows denote (excess side coef bound next others)
      (excess side (denote coef) (denote bound) (denote next) (denote others)) := by
  cases side with
  | lower =>
    exact (follows_neg _).bind fun _ => (follows_add _ _).bind fun _ => (follows_mul _ _).bind
      fun _ => follows_add _ _
  | upper =>
    exact (follows_sub _ _).bind fun _ => (follows_mul _ _).bind fun _ => follows_sub _ _

theorem follows_inward (range : Interval Float) (side : Side) :
    Follows denote (number (range.inward side)) (number ((range.map denote).inward side)) := by
  have hone : (denote (1 : Float) : Extended) = 1 := Binary64.denote_one
  cases side with
  | lower =>
    have h := follows_add range.lower 1
    rwa [hone] at h
  | upper =>
    have h := follows_sub range.upper 1
    rwa [hone] at h

theorem pos_iff (a : Float) : 0 < a ↔ 0 < (denote a : Extended) :=
  RoundedScalar.pos_iff_denote

theorem neg_iff (a : Float) : a < 0 ↔ (denote a : Extended) < 0 :=
  RoundedScalar.neg_iff_denote

theorem facing_denote (side : Side) (coef : Float) :
    side.facing (denote coef) = side.facing coef := by
  unfold Side.facing
  simp only [pos_iff]

theorem follows_guarded {β γ : Type} {value : β → γ} (d limit : Float) {change : Computed Float β}
    {change' : Computed Extended γ} (h : Follows value change change') (same : β) :
    Follows value (guarded d limit change same)
      (guarded (denote d) (denote limit) change' (value same)) :=
  .ite (by rw [denote_le, pos_iff]) h (.pure rfl)

theorem follows_shrink (side : Side) (coef bound : Float) (range : Interval Float)
    (others : Float) :
    Follows (Prod.map denote denote) (shrink side coef bound range others)
      (shrink side (denote coef) (denote bound) (range.map denote) (denote others)) := by
  unfold shrink
  simp only [facing_denote, Interval.bound_map]
  refine (follows_inward _ _).bind fun next => (follows_excess _ _ _ _ _).bind fun d => ?_
  refine .ite (pos_iff coef) (follows_guarded _ _ ?_ (coef, bound))
    (.ite (neg_iff coef) ((follows_neg coef).bind fun limit =>
      follows_guarded _ _ ?_ (coef, bound)) (.pure rfl))
  · exact (follows_sub _ _).bind fun newCoef => (follows_mul _ _).bind fun shift =>
      (follows_sub _ _).bind fun newBound => .pure rfl
  · exact (follows_add _ _).bind fun newCoef => (follows_mul _ _).bind fun shift =>
      (follows_add _ _).bind fun newBound => .pure rfl

theorem isSigned_denote (coef : Float) : isSigned (denote coef) = isSigned coef := by
  simp only [isSigned, pos_iff, neg_iff]

theorem follows_addExtreme (side : Side) (sum coef : Float) (range : Interval Float) :
    Follows denote (addExtreme side sum coef range)
      (addExtreme side (denote sum) (denote coef) (range.map denote)) := by
  unfold addExtreme
  rw [isSigned_denote, facing_denote, Interval.bound_map]
  exact .ite Iff.rfl ((follows_mul _ _).bind fun term => follows_add _ _) (.pure rfl)

theorem follows_activity (side : Side) (terms : List (Float × Interval Float)) :
    Follows denote (activity side terms)
      (activity side (terms.map fun t => (denote t.1, t.2.map denote))) := by
  have hrun : ∀ sum, Follows denote (activityFrom side sum terms)
      (activityFrom side (denote sum) (terms.map fun t => (denote t.1, t.2.map denote))) := by
    induction terms with
    | nil => exact fun _ => .pure rfl
    | cons t rest ih =>
      intro sum
      exact (follows_addExtreme _ _ _ _).bind fun sum => ih sum
  exact hrun 0

theorem follows_walk (columns : Vector (Column Float) n) (row : Fin m) (side : Side)
    (position : Nat) (bound total : Float) (cells : List (Sparse.Cell Float n)) :
    Follows (List.map (Tightening.map denote)) (walk columns row side position bound total cells)
      (walk (columns.map (Column.map denote)) row side position (denote bound) (denote total)
        (cells.map (Sparse.Cell.map denote))) := by
  induction cells generalizing position bound total with
  | nil => exact .pure rfl
  | cons c rest ih =>
    have hzero : ((denote c.value : Extended) == 0) = (c.value == 0) := (denote_beq c.value 0).symm
    rw [List.map_cons, walk, walk]
    simp only [Sparse.Cell.map, get_map, Column.map, hzero, facing_denote, Interval.bound_map]
    refine .ite Iff.rfl ?_ (ih _ _ _)
    refine (follows_mul _ _).bind fun term => (follows_sub _ _).bind fun others =>
      (follows_shrink _ _ _ _ _).bind fun new => .ite ?_ (ih _ _ _) ?_
    · rw [denote_beq]
      rfl
    · exact (follows_sub _ _).bind fun cut => (follows_mul _ _).bind fun loss =>
        (follows_sub _ _).bind fun total => (ih _ _ _).bind fun later => .pure rfl

theorem onlySide?_denote (range : Interval Float) :
    (range.map denote).onlySide? = range.onlySide? := by
  unfold Interval.onlySide? Interval.isRanged Interval.isFree Interval.isFiniteAt
  simp only [Interval.bound_map, RoundedScalar.isFinite_denote]

/-- What is computed on doubles in a row is what exact arithmetic computes there, as long as that is
small whole numbers. -/
theorem follows_rowTightenings (p : Formulation Float m n) (i : Fin m) :
    Follows (List.map (Tightening.map denote)) (rowTightenings p i)
      (rowTightenings (p.map denote) i) := by
  have hrange : ((p.map denote).rows.get i).range = (p.rows.get i).range.map denote := by
    rw [Formulation.map, get_map]
    rfl
  have hcells : ((p.map denote).matrix.rows.get i).toList =
      (p.matrix.rows.get i).toList.map (Sparse.Cell.map denote) := by
    rw [Formulation.map, Sparse.Matrix.get_rows_map, Array.toList_map]
  have hintegral : ∀ j, (p.map denote).columnIsIntegral j = p.columnIsIntegral j := fun j => by
    simp only [Formulation.columnIsIntegral, Formulation.map, get_map, Column.map]
  have hterms : (p.map denote).rowTerms i =
      (p.rowTerms i).map fun t => (denote t.1, t.2.map denote) := by
    rw [Formulation.rowTerms, Formulation.rowTerms, hcells, List.map_map, List.map_map]
    apply List.map_congr_left
    intro c _
    simp only [Function.comp_apply, Sparse.Cell.map, Formulation.map, get_map, Column.map]
  unfold rowTightenings
  dsimp only
  rw [hrange, onlySide?_denote, hcells, hterms, List.any_map]
  cases (p.rows.get i).range.onlySide? with
  | none => exact .pure rfl
  | some side =>
    simp only [Function.comp_def, Sparse.Cell.map, hintegral]
    refine .ite Iff.rfl ?_ (.pure rfl)
    refine (follows_activity _ _).bind fun upper => (follows_activity _ _).bind fun lower => ?_
    rw [Interval.bound_map]
    cases side with
    | lower => exact follows_walk _ _ _ _ _ _ _
    | upper => exact follows_walk _ _ _ _ _ _ _

end Rules

end Computed

end CoefficientTightening
