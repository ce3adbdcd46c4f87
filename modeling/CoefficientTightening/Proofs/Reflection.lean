import CoefficientTightening.Proofs.ReductionReplay

/-! The pass in a mirror, in exact arithmetic. Some rows and some columns are negated: the
coefficients where one of the two is negated change their sign, and the range of a negated row or
column is turned over, its sides exchanged and their bounds negated. The pass makes of the turned
formulation what one gets by turning its outcome, and it reports the turned records. So the two
directions of a row, the two signs of a coefficient and the two sides of a column are treated alike
everywhere, with infinite bounds and NaN too. -/
namespace CoefficientTightening

open Extended (finite infinite nan)

/-! ### Turning over -/

section Definitions

variable {α : Type} [Scalar α] {m n : Nat}

/-- The number, negated if the flag is set. -/
def negateIf (flip : Bool) (a : α) : α := if flip then -a else a

def Side.turn (flip : Bool) (side : Side) : Side := if flip then side.opposite else side

/-- The range of the negated number. -/
def Interval.turn (flip : Bool) (range : Interval α) : Interval α :=
  if flip then ⟨-range.upper, -range.lower⟩ else range

/-- Numbers of the rows and of the columns that are negated. -/
structure Reflection where
  rows : Nat → Bool
  columns : Nat → Bool

namespace Reflection

variable (r : Reflection)

/-- Exactly one of the row and the column is negated. -/
def flips (i j : Nat) : Bool := r.rows i != r.columns j

def reduction : Reduction α → Reduction α
  | .tightenCoefficient i j old new =>
    .tightenCoefficient i j (negateIf (r.flips i j) old) (negateIf (r.flips i j) new)
  | .zeroCoefficient i j old => .zeroCoefficient i j (negateIf (r.flips i j) old)
  | .tightenRowBound i side old new =>
    .tightenRowBound i (side.turn (r.rows i)) (negateIf (r.rows i) old) (negateIf (r.rows i) new)
  | .custom kind target value => .custom kind target value

def tightening (t : Tightening α m n) : Tightening α m n :=
  { t with
    side := t.side.turn (r.rows t.row)
    old := negateIf (r.flips t.row t.column) t.old
    new := negateIf (r.flips t.row t.column) t.new
    oldBound := negateIf (r.rows t.row) t.oldBound
    newBound := negateIf (r.rows t.row) t.newBound }

def cell (i : Nat) (c : Sparse.Cell α n) : Sparse.Cell α n :=
  { c with value := negateIf (r.flips i c.column) c.value }

def columnEntry (j : Nat) (e : Sparse.ColumnEntry α m) : Sparse.ColumnEntry α m :=
  { e with value := negateIf (r.flips e.row j) e.value }

def matrix (M : Sparse.Matrix α m n) : Sparse.Matrix α m n where
  rows := .ofFn fun i => (M.rows.get i).map (r.cell i)
  columns := .ofFn fun j => (M.columns.get j).map (r.columnEntry j)

def row (i : Nat) (row : Row α) : Row α := { row with range := row.range.turn (r.rows i) }

def column (j : Nat) (column : Column α) : Column α :=
  { column with range := column.range.turn (r.columns j) }

def columnVector (columns : Vector (Column α) n) : Vector (Column α) n :=
  .ofFn fun j => r.column j (columns.get j)

/-- The counts of nonzeros stay as they are. -/
def formulation (p : Formulation α m n) : Formulation α m n where
  matrix := r.matrix p.matrix
  rows := .ofFn fun i => r.row i (p.rows.get i)
  columns := r.columnVector p.columns

end Reflection

end Definitions

section Reading

variable {α : Type} [Scalar α] {m n : Nat} (r : Reflection)

@[simp] theorem Interval.bound_turn (flip : Bool) (range : Interval α) (side : Side) :
    (range.turn flip).bound (side.turn flip) = negateIf flip (range.bound side) := by
  cases flip <;> cases side <;> rfl

@[simp] theorem Interval.setBound_turn (flip : Bool) (range : Interval α) (value : α)
    (side : Side) :
    (range.turn flip).setBound (negateIf flip value) (side.turn flip) =
      (range.setBound value side).turn flip := by
  cases flip <;> cases side <;> rfl

namespace Reflection

@[simp] theorem row_tightening (t : Tightening α m n) : (r.tightening t).row = t.row := rfl

@[simp] theorem column_tightening (t : Tightening α m n) :
    (r.tightening t).column = t.column := rfl

@[simp] theorem get_rows_matrix (M : Sparse.Matrix α m n) (i : Fin m) :
    (r.matrix M).rows.get i = (M.rows.get i).map (r.cell i) := by
  simp [matrix, get_eq_getElem]

@[simp] theorem get_columns_matrix (M : Sparse.Matrix α m n) (j : Fin n) :
    (r.matrix M).columns.get j = (M.columns.get j).map (r.columnEntry j) := by
  simp [matrix, get_eq_getElem]

@[simp] theorem get_columnVector (columns : Vector (Column α) n) (j : Fin n) :
    (r.columnVector columns).get j = r.column j (columns.get j) := by
  simp [columnVector, get_eq_getElem]

@[simp] theorem get_rows_formulation (p : Formulation α m n) (i : Fin m) :
    (r.formulation p).rows.get i = r.row i (p.rows.get i) := by
  simp [formulation, get_eq_getElem]

end Reflection

theorem shrink_of_unsigned {side : Side} {coef bound others : α} {range : Interval α}
    (h : isSigned coef = false) : shrink side coef bound range others = (coef, bound) := by
  simp only [isSigned, Bool.or_eq_false_iff, decide_eq_false_iff_not] at h
  simp [shrink, h.1, h.2]

end Reading

/-! ### Negative numbers -/

namespace Extended

variable {a b : Extended}

theorem neg_add_eq (a b : Extended) : -(a + b) = -a + -b := by
  rcases a with p | s | _ <;> rcases b with q | t | _ <;> (try cases s) <;> (try cases t) <;>
    simp [infinite_add_infinite, add_comm]

theorem mul_of_special (h : Scalar.isFinite a = false ∨ Scalar.isFinite b = false) :
    a * b = match a.negative?, b.negative? with
      | some s, some t => infinite (s != t)
      | _, _ => nan := by
  rcases a with p | s | _ <;> rcases b with q | t | _
  case finite.finite => rcases h with h | h <;> cases h
  case finite.nan => cases (finite p).negative? <;> rfl
  all_goals rfl

theorem negative?_neg (a : Extended) : (-a).negative? = a.negative?.map not := by
  rcases a with p | s | _
  · rcases lt_trichotomy p 0 with h | h | h
    · simp [negative?, h, h.le]
    · simp [negative?, h]
    · simp [negative?, h, h.le]
  · rfl
  · rfl

theorem negative?_negateIf (flip : Bool) (a : Extended) :
    (negateIf flip a).negative? = a.negative?.map (· != flip) := by
  cases flip
  · rw [negateIf, if_neg Bool.false_ne_true]
    cases a.negative? <;> simp
  · rw [negateIf, if_pos rfl, negative?_neg]
    cases a.negative? <;> simp

@[simp] theorem isFinite_neg (a : Extended) : Scalar.isFinite (-a) = Scalar.isFinite a := by
  cases a <;> rfl

@[simp] theorem isFinite_negateIf (flip : Bool) (a : Extended) :
    Scalar.isFinite (negateIf flip a) = Scalar.isFinite a := by
  cases flip <;> simp [negateIf]

theorem negateIf_mul_negateIf (s t : Bool) (a b : Extended) :
    negateIf s a * negateIf t b = negateIf (s != t) (a * b) := by
  by_cases h : Scalar.isFinite a = true ∧ Scalar.isFinite b = true
  · obtain ⟨p, rfl⟩ := isFinite_iff.mp h.1
    obtain ⟨q, rfl⟩ := isFinite_iff.mp h.2
    cases s <;> cases t <;> simp [negateIf]
  · -- only the signs of the factors count
    rw [not_and_or, Bool.not_eq_true, Bool.not_eq_true] at h
    rw [mul_of_special h, mul_of_special (by rwa [isFinite_negateIf, isFinite_negateIf]),
      negative?_negateIf, negative?_negateIf]
    cases a.negative? <;> cases b.negative? <;> cases s <;> cases t <;> simp [negateIf]

@[simp] theorem neg_mul_eq (a b : Extended) : -a * b = -(a * b) :=
  negateIf_mul_negateIf true false a b

@[simp] theorem mul_neg_eq (a b : Extended) : a * -b = -(a * b) :=
  negateIf_mul_negateIf false true a b

@[simp] theorem neg_pos_iff : finite 0 < -a ↔ a < finite 0 := by
  rcases a with p | s | _
  · simp
  · cases s <;> decide
  · decide

@[simp] theorem neg_lt_zero_iff : -a < finite 0 ↔ finite 0 < a := by
  rw [← neg_pos_iff, neg_neg]

theorem pos_or_neg_of_isSigned (h : isSigned a = true) :
    finite 0 < a ∧ ¬ a < finite 0 ∨ a < finite 0 ∧ ¬ finite 0 < a := by
  rcases a with p | s | _
  · rw [Tightening.isSigned_finite, decide_eq_true_eq] at h
    rw [finite_lt, finite_lt]
    exact h.lt_or_gt.symm.imp (fun h => ⟨h, h.le.not_gt⟩) fun h => ⟨h, h.le.not_gt⟩
  · cases s <;> decide
  · cases h

@[simp] theorem neg_beq_neg : (-a == -b) = (a == b) := by
  rw [Bool.eq_iff_iff, beq_iff, beq_iff]
  rcases a with p | s | _ <;> rcases b with q | t | _ <;> simp

end Extended

/-! ### The rule -/

section Rule

variable (row column : Bool) {side : Side} {a b : Extended}

@[simp] theorem negateIf_zero (flip : Bool) : negateIf flip (0 : Extended) = 0 := by
  cases flip <;> simp [negateIf]

theorem negateIf_add (flip : Bool) (a b : Extended) :
    negateIf flip (a + b) = negateIf flip a + negateIf flip b := by
  cases flip
  · rfl
  · exact Extended.neg_add_eq a b

theorem negateIf_sub (flip : Bool) (a b : Extended) :
    negateIf flip (a - b) = negateIf flip a - negateIf flip b := by
  cases flip
  · rfl
  · exact Extended.neg_add_eq a (-b)

/-- A term of a row is negated with the row. -/
theorem negateIf_mul (a b : Extended) :
    negateIf (row != column) a * negateIf column b = negateIf row (a * b) := by
  rw [Extended.negateIf_mul_negateIf, Bool.bne_assoc, bne_self_eq_false, Bool.bne_false]

@[simp] theorem negateIf_beq (flip : Bool) (a b : Extended) :
    (negateIf flip a == negateIf flip b) = (a == b) := by
  cases flip <;> simp [negateIf]

@[simp] theorem negateIf_beq_zero (flip : Bool) (a : Extended) :
    (negateIf flip a == 0) = (a == 0) := by
  rw [← negateIf_beq flip a 0, negateIf_zero]

@[simp] theorem isSigned_negateIf (flip : Bool) (a : Extended) :
    isSigned (negateIf flip a) = isSigned a := by
  cases flip
  · rfl
  · simp [negateIf, isSigned, Bool.or_comm]

/-- A coefficient faces the turned side of its column. -/
theorem facing_negateIf (h : isSigned a = true) :
    (side.turn row).facing (negateIf (row != column) a) = (side.facing a).turn column := by
  rcases Extended.pos_or_neg_of_isSigned h with ⟨hpos, hneg⟩ | ⟨hneg, hpos⟩ <;> cases row <;>
    cases column <;> cases side <;>
    simp [Side.facing, Side.turn, Side.opposite, negateIf, hpos, hneg]

theorem inward_turn (range : Interval Extended) (side : Side) :
    (range.turn column).inward (side.turn column) = negateIf column (range.inward side) := by
  cases column
  · rfl
  · cases side <;>
      simp [Interval.turn, Side.turn, Side.opposite, Interval.inward, negateIf, Extended.sub_eq,
        Extended.neg_add_eq]

/-- The room of a row does not change. -/
theorem excess_negateIf (coef bound next others : Extended) :
    excess (side.turn row) (negateIf (row != column) coef) (negateIf row bound)
        (negateIf column next) (negateIf row others) = excess side coef bound next others := by
  cases side <;> cases row <;> cases column <;>
    simp [excess, Side.turn, Side.opposite, negateIf, Extended.sub_eq]

theorem shrink_turn (side : Side) (coef bound others : Extended) (range : Interval Extended) :
    shrink (side.turn row) (negateIf (row != column) coef) (negateIf row bound)
        (range.turn column) (negateIf row others) =
      (negateIf (row != column) (shrink side coef bound range others).1,
        negateIf row (shrink side coef bound range others).2) := by
  cases hsigned : isSigned coef with
  | false =>
    rw [shrink_of_unsigned hsigned, shrink_of_unsigned (by rwa [isSigned_negateIf])]
  | true =>
    unfold shrink
    dsimp only
    rw [facing_negateIf row column hsigned, inward_turn, excess_negateIf, Interval.bound_turn]
    generalize excess side coef bound (range.inward (side.facing coef)) others = d
    generalize range.bound (side.facing coef) = extreme
    -- either sign of the coefficient under the four settings of the flags
    rcases Extended.pos_or_neg_of_isSigned hsigned with ⟨hpos, hneg⟩ | ⟨hneg, hpos⟩ <;>
      cases row <;> cases column <;> simp [negateIf, hpos, hneg] <;> split_ifs <;>
        simp [Extended.sub_eq, Extended.neg_add_eq]

end Rule

/-! ### Rows -/

theorem addExtreme_turn (row column : Bool) (side : Side) (sum coef : Extended)
    (range : Interval Extended) :
    addExtreme (side.turn row) (negateIf row sum) (negateIf (row != column) coef)
        (range.turn column) = negateIf row (addExtreme side sum coef range) := by
  unfold addExtreme
  rw [isSigned_negateIf]
  split
  · next hsigned =>
    rw [facing_negateIf row column hsigned, Interval.bound_turn, negateIf_mul, negateIf_add]
  · rfl

/-- The activity of a turned row is the other activity of the row, negated. -/
theorem activity_turn {β : Type} (row : Bool) (side : Side) (column : β → Bool)
    (coef : β → Extended) (range : β → Interval Extended) (terms : List β) :
    activity (side.turn row)
        (terms.map fun x => (negateIf (row != column x) (coef x), (range x).turn (column x))) =
      negateIf row (activity side (terms.map fun x => (coef x, range x))) := by
  have hrun : ∀ sum : Extended,
      (terms.map fun x => (negateIf (row != column x) (coef x), (range x).turn (column x))).foldl
          (fun sum t => addExtreme (side.turn row) sum t.1 t.2) (negateIf row sum) =
        negateIf row ((terms.map fun x => (coef x, range x)).foldl
          (fun sum t => addExtreme side sum t.1 t.2) sum) := by
    induction terms with
    | nil => exact fun _ => rfl
    | cons x rest ih =>
      intro sum
      simp only [List.map_cons, List.foldl_cons, addExtreme_turn]
      exact ih _
  have hzero := hrun 0
  rwa [negateIf_zero] at hzero

theorem onlySide?_turn (flip : Bool) (range : Interval Extended) :
    (range.turn flip).onlySide? = range.onlySide?.map (Side.turn flip) := by
  cases flip
  · exact Option.map_id'.symm
  · cases hl : Scalar.isFinite range.lower <;> cases hu : Scalar.isFinite range.upper <;>
      simp [Interval.onlySide?, Interval.isRanged, Interval.isFree, Interval.isFiniteAt,
        Interval.bound, Interval.turn, Side.turn, Side.opposite, hl, hu]

variable {m n : Nat} (r : Reflection)

namespace Tightening

variable {columns : Vector (Column Extended) n} {i : Fin m} {side : Side} {bound total : Extended}
  {e : Sparse.Cell Extended n × Nat} {t : Tightening Extended m n}

/-- An entry of a turned row. -/
def turnEntry (r : Reflection) (i : Fin m) (e : Sparse.Cell Extended n × Nat) :
    Sparse.Cell Extended n × Nat := (r.cell i e.1, e.2)

theorem extremeBound_turn (columns : Vector (Column Extended) n) (i : Fin m) (side : Side)
    {c : Sparse.Cell Extended n} (h : isSigned c.value = true) :
    extremeBound (r.columnVector columns) (side.turn (r.rows i)) (r.cell i c) =
      negateIf (r.columns c.column) (extremeBound columns side c) := by
  have hface : (side.turn (r.rows i)).facing (r.cell i c).value =
      (side.facing c.value).turn (r.columns c.column) :=
    facing_negateIf (r.rows i) (r.columns c.column) h
  rw [extremeBound, hface, r.get_columnVector]
  exact Interval.bound_turn _ _ _

/-- The rule says the turned of an entry, whatever its coefficient. -/
theorem shrink_entry_turn (columns : Vector (Column Extended) n) (i : Fin m) (side : Side)
    (bound total : Extended) (c : Sparse.Cell Extended n) :
    shrink (side.turn (r.rows i)) (r.cell i c).value (negateIf (r.rows i) bound)
        ((r.columnVector columns).get (r.cell i c).column).range
        (negateIf (r.rows i) total -
          (r.cell i c).value *
            extremeBound (r.columnVector columns) (side.turn (r.rows i)) (r.cell i c)) =
      let new := shrink side c.value bound (columns.get c.column).range
        (total - c.value * extremeBound columns side c)
      (negateIf (r.flips i c.column) new.1, negateIf (r.rows i) new.2) := by
  have hvalue : (r.cell i c).value = negateIf (r.rows i != r.columns c.column) c.value := rfl
  cases hsigned : isSigned c.value with
  | false =>
    rw [shrink_of_unsigned hsigned, shrink_of_unsigned (by rwa [hvalue, isSigned_negateIf])]
    rfl
  | true =>
    rw [extremeBound_turn r columns i side hsigned, hvalue, negateIf_mul, ← negateIf_sub,
      r.get_columnVector]
    exact shrink_turn _ _ _ _ _ _ _

theorem propose?_turn (columns : Vector (Column Extended) n) (i : Fin m) (side : Side)
    (bound total : Extended) (e : Sparse.Cell Extended n × Nat) :
    propose? (r.columnVector columns) i (side.turn (r.rows i)) (negateIf (r.rows i) bound)
        (negateIf (r.rows i) total) (turnEntry r i e) =
      (propose? columns i side bound total e).map r.tightening := by
  have hcandidate : isCandidate (r.columnVector columns) (r.cell i e.1) =
      isCandidate columns e.1 := by
    unfold isCandidate
    rw [r.get_columnVector]
    rfl
  have hzero : ((r.cell i e.1).value == 0) = (e.1.value == 0) := negateIf_beq_zero _ _
  unfold propose? turnEntry
  dsimp only
  rw [hcandidate, hzero]
  split
  · have hshrink := shrink_entry_turn r columns i side bound total e.1
    have hmoved : ∀ new : Extended,
        (negateIf (r.flips i e.1.column) new == (r.cell i e.1).value) = (new == e.1.value) :=
      fun new => negateIf_beq _ _ _
    dsimp only at hshrink
    rw [hshrink, hmoved]
    split <;> rfl
  · rfl

/-- What a change takes off the carried activity is negated with the row. -/
theorem carry_turn (h : IsProposed columns i side bound total e t) :
    ((r.tightening t).old - (r.tightening t).new) *
        extremeBound (r.columnVector columns) (side.turn (r.rows i)) (turnEntry r i e).1 =
      negateIf (r.rows i) ((t.old - t.new) * extremeBound columns side e.1) := by
  have hflips : r.flips t.row t.column = (r.rows i != r.columns e.1.column) := by
    rw [h.row_eq, h.column_eq]
    rfl
  have hchange : (r.tightening t).old - (r.tightening t).new =
      negateIf (r.rows i != r.columns e.1.column) (t.old - t.new) := by
    rw [negateIf_sub, ← hflips]
    rfl
  rw [hchange]
  cases hsigned : isSigned e.1.value with
  | true =>
    rw [turnEntry, extremeBound_turn r columns i side hsigned, negateIf_mul]
  | false =>
    -- the entry is not zero, so it is a NaN
    have hnan : t.old = nan := by
      have hzero := h.nonzero
      rw [h.old_eq] at hzero ⊢
      cases hvalue : e.1.value with
      | finite q => simp_all [isSigned_finite]
      | infinite s =>
        rw [hvalue, isSigned_infinite] at hsigned
        cases hsigned
      | nan => rfl
    have hgone : t.old - t.new = nan := by
      rw [hnan, Extended.sub_eq, Extended.nan_add]
    have hturned : ∀ flip, negateIf flip nan = nan := fun flip => by
      cases flip <;> rfl
    rw [hgone, hturned, Extended.nan_mul, Extended.nan_mul, hturned]

theorem visit_turn (columns : Vector (Column Extended) n) (i : Fin m) (side : Side)
    (bound total : Extended) (order : List (Sparse.Cell Extended n × Nat)) :
    visit (r.columnVector columns) i (side.turn (r.rows i)) (negateIf (r.rows i) bound)
        (negateIf (r.rows i) total) (order.map (turnEntry r i)) =
      (visit columns i side bound total order).map r.tightening := by
  induction order generalizing bound total with
  | nil => rfl
  | cons e rest ih =>
    rw [List.map_cons, visit, propose?_turn, visit]
    cases ht : propose? columns i side bound total e with
    | none => exact ih bound total
    | some t =>
      have hprop := isProposed_of_propose? ht
      have hbound : (r.tightening t).newBound = negateIf (r.rows i) t.newBound := by
        rw [← hprop.row_eq]
        rfl
      rw [Option.map_some, List.map_cons, ← ih, negateIf_sub, ← carry_turn r hprop, ← hbound]

theorem reductions_turn (t : Tightening Extended m n) :
    (r.tightening t).reductions = t.reductions.map r.reduction := by
  unfold reductions
  simp only [Reflection.tightening, negateIf_beq, negateIf_beq_zero]
  split <;> split <;> rfl

end Tightening

namespace Formulation

open Tightening

variable {p : Formulation Extended m n} {t : Tightening Extended m n}

theorem rowTightenings_turn (p : Formulation Extended m n) (i : Fin m) :
    (r.formulation p).rowTightenings i = (p.rowTightenings i).map r.tightening := by
  have hrange : ((r.formulation p).rows.get i).range = (p.rows.get i).range.turn (r.rows i) := by
    rw [r.get_rows_formulation]
    rfl
  have hentries : (r.formulation p).entries i = (p.entries i).map (turnEntry r i) := by
    rw [entries, entries, Reflection.formulation, r.get_rows_matrix, Array.toList_map,
      List.zipIdx_map]
    rfl
  rw [rowTightenings_eq, rowTightenings_eq]
  cases hside : (p.rows.get i).range.onlySide? with
  | none =>
    have hturned : ((r.formulation p).rows.get i).range.onlySide? = none := by
      rw [hrange, onlySide?_turn, hside, Option.map_none]
    simp only [rowTighteningsIn, hside, hturned, List.map_nil]
  | some side =>
    have hturned : ((r.formulation p).rows.get i).range.onlySide? =
        some (side.turn (r.rows i)) := by
      rw [hrange, onlySide?_turn, hside, Option.map_some]
    have hactivity := activity_turn (r.rows i) side (fun e : Sparse.Cell Extended n × Nat =>
      r.columns e.1.column) (fun e => e.1.value) (fun e => (p.columns.get e.1.column).range)
      (p.entries i)
    have hterms : (fun e => (e.1.value, ((r.formulation p).columns.get e.1.column).range)) ∘
        turnEntry r i = fun e => (negateIf (r.rows i != r.columns e.1.column) e.1.value,
          (p.columns.get e.1.column).range.turn (r.columns e.1.column)) := by
      funext e
      rw [Function.comp_apply, Reflection.formulation, r.get_columnVector]
      rfl
    rw [rowTighteningsIn_eq_visit hside, rowTighteningsIn_eq_visit hturned, ← visit_turn, hrange,
      Interval.bound_turn, ← hactivity, hentries, List.map_map, hterms]
    rfl

theorem tightenings_turn (p : Formulation Extended m n) :
    (r.formulation p).tightenings = p.tightenings.map r.tightening := by
  rw [tightenings_eq, tightenings_eq, List.map_flatMap]
  exact congrArg (List.flatMap · _) (funext fun i => rowTightenings_turn r p i)

/-! ### Changes -/

theorem matrix_put_turn (M : Sparse.Matrix Extended m n) (i : Fin m) (j : Fin n)
    (value : Extended) :
    r.matrix (M.put i j value) = (r.matrix M).put i j (negateIf (r.flips i j) value) := by
  have hrows : (r.matrix (M.put i j value)).rows =
      ((r.matrix M).put i j (negateIf (r.flips i j) value)).rows := by
    apply vector_ext
    intro i'
    rw [r.get_rows_matrix, Sparse.Matrix.put, Sparse.Matrix.put, get_updateAt, get_updateAt,
      r.get_rows_matrix]
    split
    · next heq =>
      rw [Array.map_map, Array.map_map]
      congr 1
      funext c
      by_cases hc : c.column = j <;> simp [Reflection.cell, hc, heq, Fin.val_inj]
    · rfl
  have hcolumns : (r.matrix (M.put i j value)).columns =
      ((r.matrix M).put i j (negateIf (r.flips i j) value)).columns := by
    apply vector_ext
    intro j'
    rw [r.get_columns_matrix, Sparse.Matrix.put, Sparse.Matrix.put, get_updateAt, get_updateAt,
      r.get_columns_matrix]
    split
    · next heq =>
      rw [Array.map_map, Array.map_map]
      congr 1
      funext e
      by_cases he : e.row = i <;> simp [Reflection.columnEntry, he, heq, Fin.val_inj]
    · rfl
  calc r.matrix (M.put i j value)
      = ⟨(r.matrix (M.put i j value)).rows, (r.matrix (M.put i j value)).columns⟩ := rfl
    _ = ⟨((r.matrix M).put i j (negateIf (r.flips i j) value)).rows,
        ((r.matrix M).put i j (negateIf (r.flips i j) value)).columns⟩ := by
      rw [hrows, hcolumns]

theorem sameShape_turn (M : Sparse.Matrix Extended m n) : M.SameShape (r.matrix M) where
  places_eq i := by
    unfold Sparse.Matrix.places
    rw [r.get_rows_matrix, Array.toList_map, List.map_map]
    rfl
  owners_eq j := by
    unfold Sparse.Matrix.owners
    rw [r.get_columns_matrix, Array.toList_map, List.map_map]
    rfl

theorem get_rows_commit {α : Type} [Scalar α] (p : Formulation α m n) (t : Tightening α m n)
    (i : Fin m) :
    (p.commit t).rows.get i =
      if t.row = i then
        { range := (p.rows.get i).range.setBound t.newBound t.side
          nonzeros := if t.new == 0 then (p.rows.get i).nonzeros - 1 else (p.rows.get i).nonzeros }
      else p.rows.get i := by
  unfold commit setRow setColumn
  by_cases hrow : t.row = i <;> by_cases hzero : t.new == 0 <;> simp [hrow, hzero]

theorem get_columns_commit {α : Type} [Scalar α] (p : Formulation α m n) (t : Tightening α m n)
    (j : Fin n) :
    (p.commit t).columns.get j =
      if t.column = j then
        { p.columns.get j with
          nonzeros :=
            if t.new == 0 then (p.columns.get j).nonzeros - 1 else (p.columns.get j).nonzeros }
      else p.columns.get j := by
  unfold commit setRow setColumn
  by_cases hcolumn : t.column = j <;> by_cases hzero : t.new == 0 <;> simp [hcolumn, hzero]

theorem eq_of_parts {α : Type} {p q : Formulation α m n} (hmatrix : p.matrix = q.matrix)
    (hrows : ∀ i, p.rows.get i = q.rows.get i) (hcolumns : ∀ j, p.columns.get j = q.columns.get j) :
    p = q := by
  cases p
  cases q
  rw [mk.injEq]
  exact ⟨hmatrix, vector_ext hrows, vector_ext hcolumns⟩

theorem commit_turn (hp : p.matrix.IsLinked) (ht : t.Fits p) :
    (r.formulation p).commit (r.tightening t) = r.formulation (p.commit t) := by
  have hzero : ((r.tightening t).new == 0) = (t.new == 0) := negateIf_beq_zero _ _
  obtain ⟨slot, hc⟩ := ht.cell
  apply eq_of_parts
  · have hturned : ((r.matrix p.matrix).rows.get t.row)[t.position]? =
        some (r.cell t.row ⟨t.column, slot, t.old⟩) := by
      rw [r.get_rows_matrix, Array.getElem?_map, hc, Option.map_some]
    have hlinked := (sameShape_turn r p.matrix).isLinked hp
    rw [matrix_commit, Reflection.formulation, Reflection.formulation, matrix_commit,
      ← hp.put_eq_write hc, matrix_put_turn]
    exact (hlinked.put_eq_write hturned _).symm
  · intro i
    rw [get_rows_commit, hzero, r.row_tightening, r.get_rows_formulation, r.get_rows_formulation,
      get_rows_commit]
    by_cases hrow : t.row = i
    · subst hrow
      rw [if_pos rfl, if_pos rfl]
      exact congrArg (Row.mk · _) (Interval.setBound_turn _ _ _ _)
    · rw [if_neg hrow, if_neg hrow]
  · intro j
    have hcolumns : ∀ q : Formulation Extended m n,
        (r.formulation q).columns.get j = r.column j (q.columns.get j) :=
      fun q => r.get_columnVector q.columns j
    rw [get_columns_commit, hzero, r.column_tightening, hcolumns, hcolumns, get_columns_commit]
    by_cases hcolumn : t.column = j
    · rw [if_pos hcolumn, if_pos hcolumn]
      rfl
    · rw [if_neg hcolumn, if_neg hcolumn]

theorem foldl_commit_turn {ts : List (Tightening Extended m n)} (hp : p.matrix.IsLinked)
    (hts : p.Trace ts) :
    (ts.map r.tightening).foldl commit (r.formulation p) = r.formulation (ts.foldl commit p) := by
  induction ts generalizing p with
  | nil => rfl
  | cons t rest ih =>
    rw [List.map_cons, List.foldl_cons, List.foldl_cons, commit_turn r hp hts.1,
      ih ((p.sameShape_commit t).isLinked hp) hts.2]

/-- The pass commutes with turning rows and columns over. -/
theorem tighteningPass_turn (p : Formulation Extended m n) (hp : p.matrix.IsLinked) :
    (r.formulation p).tighteningPass.data = r.formulation p.tighteningPass.data ∧
      (r.formulation p).tighteningPass.reductions =
        p.tighteningPass.reductions.map r.reduction := by
  constructor
  · rw [data_tighteningPass, data_tighteningPass, ← foldl_commit_tightenings, tightenings_turn,
      foldl_commit_turn r hp p.trace_tightenings, foldl_commit_tightenings]
  · rw [reductions_tighteningPass, reductions_tighteningPass, tightenings_turn, List.flatMap_map,
      List.map_flatMap]
    simp only [reductions_turn]

/-- The mixed row turned over, `-4 x₀ - 3 x₁ - x₂ ≥ -10` with `x₁` negated too, comes out as
`-2 x₀ - 2 x₁ - x₂ ≥ -5`. -/
theorem mixedRow_turned :
    let r : Reflection := ⟨fun _ => true, fun j => j == 1⟩
    (r.formulation (mixedRow 10 2)).tighten.rowState 0 =
        ⟨#[⟨0, 0, finite (-2)⟩, ⟨1, 0, finite (-2)⟩, ⟨2, 0, finite (-1)⟩],
          ⟨finite (-5), infinite false⟩⟩ ∧
      (r.formulation (mixedRow 10 2)).tighteningPass.reductions =
        (mixedRow 10 2).tighteningPass.reductions.map r.reduction := by
  intro r
  obtain ⟨hdata, hreductions⟩ :=
    tighteningPass_turn r (mixedRow 10 2) (isLinked_mixedRow 10 2)
  refine ⟨?_, hreductions⟩
  rw [← data_tighteningPass, hdata]
  decide +kernel

end Formulation

end CoefficientTightening
