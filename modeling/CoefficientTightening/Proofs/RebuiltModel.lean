import CoefficientTightening.Proofs.HandedBack
import CoefficientTightening.Proofs.HugeBounds
import CoefficientTightening.Proofs.Points

/-! A model that is read and built again. It has the same objective and the same rows at every
point, since nothing is rounded on the way that the solver had not rounded. The domains of the
variables stay the same too, except that a reversed bound, which allows nothing, becomes no bound. -/
namespace CoefficientTightening

open Extended (finite infinite nan)
open RoundedScalar (denote denote_le beq_zero_iff)
open HasHugeSize (neg_unbounded_le_self unbounded_le_self le_neg_unbounded_of_infinite
  unbounded_le_of_infinite)
open Sparse (term dropZeros canonicalRow HasIncreasingColumns)

variable {α : Type} [Scalar α] [RoundedScalar α]

/-! ### Points of a model -/

namespace Variable

/-- The value lies within the bounds, where a huge bound is none. -/
def Allows (v : Variable α) (x : ℚ) : Prop :=
  (v.lower ≤ -Scalar.unbounded ∨ denote v.lower ≤ finite x) ∧
    (Scalar.unbounded ≤ v.upper ∨ finite x ≤ denote v.upper)

instance (v : Variable α) (x : ℚ) : Decidable (v.Allows x) :=
  inferInstanceAs (Decidable ((_ ∨ _) ∧ (_ ∨ _)))

/-- The values of a variable. Kinds other than the three known ones are semicontinuous: zero, or a
value within the bounds, whole if the tag is `N`. -/
def Takes (v : Variable α) (x : ℚ) : Prop :=
  match v.kind with
  | .continuous => v.Allows x
  | .integer => IsWhole x ∧ v.Allows x
  | .binary => (x = 0 ∨ x = 1) ∧ v.Allows x
  | .other tag => (tag = "N" → IsWhole x) ∧ (x = 0 ∨ v.Allows x)

instance (v : Variable α) (x : ℚ) : Decidable (v.Takes x) := by
  unfold Takes
  split <;> infer_instance

end Variable

/-- The value of a row at a point. -/
def Sparse.valueAt {n : ℕ} (row : List (Fin n × α)) (x : ℕ → ℚ) : Extended :=
  (row.map fun t => denote t.2 * finite (x t.1)).sum

/-- The comparison of a constraint with its right-hand side. -/
def Constraint.Admits (c : Constraint α) (value : Extended) : Prop :=
  (c.sense = "<" ∧ value ≤ denote c.bound) ∨ (c.sense = ">" ∧ denote c.bound ≤ value) ∨
    (c.sense = "=" ∧ (value == denote c.bound) = true)

instance (c : Constraint α) (value : Extended) : Decidable (c.Admits value) :=
  inferInstanceAs (Decidable ((_ ∧ _) ∨ (_ ∧ _) ∨ (_ ∧ _)))

namespace Model

/-- The point gives every variable one of its values and satisfies every constraint. The coefficients
are those of the matrix, where repeated columns of a constraint are added up. -/
def IsFeasible (model : Model α) (x : ℕ → ℚ) : Prop :=
  (∀ v ∈ model.vars.zipIdx, v.1.Takes (x v.2)) ∧
    ∀ i : Fin model.height, model.constraints[i].Admits (Sparse.valueAt (model.matrix.get i) x)

instance (model : Model α) (x : ℕ → ℚ) : Decidable (model.IsFeasible x) :=
  inferInstanceAs (Decidable ((∀ _ ∈ _, _) ∧ ∀ _, _))

def objectiveAt (model : Model α) (x : ℕ → ℚ) : Extended :=
  (model.vars.zipIdx.map fun v => denote v.1.objective * finite (x v.2)).sum + denote model.constant

end Model

/-! ### Domains -/

namespace Variable

variable [HasHugeSize α] {v w : Variable α} {x : ℚ}

/-- A rebuilt bound allows what the bound allowed, and everything if it was reversed. -/
theorem allows_rebuilt (v : Variable α) (x : ℚ) : v.column.variable.Allows x ↔
    (denote v.lower = infinite false ∨ v.lower ≤ -Scalar.unbounded ∨ denote v.lower ≤ finite x) ∧
      (denote v.upper = infinite true ∨ Scalar.unbounded ≤ v.upper ∨ finite x ≤ denote v.upper) := by
  have hlower : v.column.variable.lower = Instance.solverBound .lower v.range.lower := rfl
  have hupper : v.column.variable.upper = Instance.solverBound .upper v.range.upper := rfl
  rw [Allows, hlower, hupper, ← or_assoc, ← or_assoc]
  refine and_congr ?_ ?_
  · rcases v.solverBound_lower with ⟨h, hbound⟩ | ⟨h, hbound⟩
    · rw [hbound]
      exact iff_of_true (.inl neg_unbounded_le_self) (.inl h)
    · rw [hbound, or_iff_right h, or_iff_right (not_or.mp h).2]
  · rcases v.solverBound_upper with ⟨h, hbound⟩ | ⟨h, hbound⟩
    · rw [hbound]
      exact iff_of_true (.inl unbounded_le_self) (.inl h)
    · rw [hbound, or_iff_right h, or_iff_right (not_or.mp h).2]

theorem not_allows_of_isReversed (h : v.IsReversed) : ¬ v.Allows x := by
  obtain ⟨q, hq⟩ := HasHugeSize.exists_unbounded (α := α)
  rintro ⟨hlower, hupper⟩
  rw [denote_le, RoundedScalar.denote_neg, hq] at hlower
  rw [denote_le, hq] at hupper
  rcases h with h | h
  · rw [h] at hlower
    rcases hlower with hle | hle <;> cases hle
  · rw [h] at hupper
    rcases hupper with hle | hle <;> cases hle

theorem allows_rebuilt_of_allows (h : v.Allows x) : v.column.variable.Allows x :=
  (v.allows_rebuilt x).mpr ⟨.inr h.1, .inr h.2⟩

theorem allows_rebuilt_iff (h : ¬ v.IsReversed) : v.column.variable.Allows x ↔ v.Allows x := by
  obtain ⟨hlower, hupper⟩ := not_or.mp h
  rw [allows_rebuilt, or_iff_right hlower, or_iff_right hupper, Allows]

/-- A reversed variable allows something after it was rebuilt, unless its other bound is a NaN. -/
theorem exists_allows_rebuilt (h : v.IsReversed) (hlower : denote v.lower ≠ nan)
    (hupper : denote v.upper ≠ nan) : ∃ x, v.column.variable.Allows x := by
  simp only [allows_rebuilt]
  rcases hl : denote v.lower with p | s | _ <;> rcases hu : denote v.upper with q | t | _
  case nan.finite | nan.infinite | nan.nan => exact absurd hl hlower
  case finite.nan | infinite.nan => exact absurd hu hupper
  case finite.finite => rw [IsReversed, hl, hu] at h; simp at h
  case finite.infinite =>
    obtain rfl : t = true := by simpa [IsReversed, hl, hu] using h
    exact ⟨p, .inr (.inr (by simp)), .inl rfl⟩
  case infinite.finite =>
    obtain rfl : s = false := by simpa [IsReversed, hl, hu] using h
    exact ⟨q, .inl rfl, .inr (.inr (by simp))⟩
  case infinite.infinite =>
    refine ⟨0, ?_, ?_⟩
    · cases s
      · exact .inl rfl
      · exact .inr (.inl (le_neg_unbounded_of_infinite hl))
    · cases t
      · exact .inr (.inl (unbounded_le_of_infinite hu))
      · exact .inl rfl

omit [HasHugeSize α] in
theorem Takes.mono (h : v.Takes x) (hkind : w.kind = v.kind) (hallows : v.Allows x → w.Allows x) :
    w.Takes x := by
  unfold Takes at h ⊢
  rw [hkind]
  split at h
  · exact hallows h
  · exact ⟨h.1, hallows h.2⟩
  · exact ⟨h.1, hallows h.2⟩
  · exact ⟨h.1, h.2.imp_right hallows⟩

theorem takes_rebuilt_of_takes (h : v.Takes x) : v.column.variable.Takes x :=
  h.mono rfl allows_rebuilt_of_allows

theorem takes_rebuilt_iff (h : ¬ v.IsReversed) : v.column.variable.Takes x ↔ v.Takes x :=
  ⟨fun hx => hx.mono rfl (allows_rebuilt_iff h).mp, takes_rebuilt_of_takes⟩

end Variable

/-! ### Rows -/

namespace Sparse

variable {n n' : ℕ} {row : List (Fin n × α)} {row' : List (Fin n' × α)}

theorem valueAt_eq_of_map_term (h : row'.map term = row.map term) (x : ℕ → ℚ) :
    valueAt row' x = valueAt row x := by
  have hterms : ∀ {k : ℕ} (l : List (Fin k × α)), valueAt l x =
      ((l.map term).map fun t => denote t.2 * finite (x t.1.toNat)).sum := by
    intro k l
    rw [List.map_map]
    rfl
  rw [hterms, h, hterms]

theorem valueAt_dropZeros (row : List (Fin n × α)) (x : ℕ → ℚ) :
    valueAt (dropZeros row) x = valueAt row x := by
  induction row with
  | nil => rfl
  | cons t rest ih =>
    have hcons : ∀ l : List (Fin n × α),
        valueAt (t :: l) x = denote t.2 * finite (x t.1) + valueAt l x := fun _ => rfl
    rw [hcons, ← ih, dropZeros, List.filter_cons]
    split
    · exact hcons _
    · next hzero =>
      rw [beq_zero_iff.mp (by simpa using hzero), Extended.finite_mul, zero_mul]
      exact (Extended.finite_zero_add _).symm

end Sparse

/-- A constraint that can be read has the sense and the right-hand side of its row. -/
theorem Constraint.sense_of_row {α : Type} {c : Constraint α} {r : InstanceRow α}
    (h : c.row = .ok r) : c.sense = r.sense.symbol ∧ c.bound = r.bound := by
  unfold row Sense.ofSymbol? at h
  split at h
  · next sense hsense =>
    cases h
    refine ⟨?_, rfl⟩
    split at hsense
    · next hsymbol => cases hsense; exact hsymbol
    · split at hsense
      · next hsymbol => cases hsense; exact hsymbol
      · split at hsense
        · next hsymbol => cases hsense; exact hsymbol
        · cases hsense
  · cases h

/-! ### The rebuilt model -/

namespace Model

variable {model rebuilt : Model α} {inst : Instance α model.height model.width}

omit [RoundedScalar α] in
theorem vars_rebuilt (hread : model.IsReadInto inst) (hkept : inst.IsKeptIn rebuilt) :
    rebuilt.vars = model.vars.map fun v => v.column.variable := by
  rw [hkept.vars, hread.columns, List.map_map]
  rfl

theorem objectiveAt_rebuilt (hread : model.IsReadInto inst) (hkept : inst.IsKeptIn rebuilt)
    (x : ℕ → ℚ) : rebuilt.objectiveAt x = model.objectiveAt x := by
  have hconstant : denote rebuilt.constant = denote model.constant := by
    rw [hkept.constant, hread.constant, RoundedScalar.denote_zero_add]
  rw [objectiveAt, vars_rebuilt hread hkept, List.zipIdx_map, List.map_map, hconstant, objectiveAt]
  rfl

theorem admits_rebuilt_iff (hread : model.IsReadInto inst) (hkept : inst.IsKeptIn rebuilt)
    (i : Fin rebuilt.height) (i₀ : Fin model.height) (hi : (i : ℕ) = i₀) (x : ℕ → ℚ) :
    rebuilt.constraints[i].Admits (Sparse.valueAt (rebuilt.matrix.get i) x) ↔
      model.constraints[i₀].Admits (Sparse.valueAt (model.matrix.get i₀) x) := by
  obtain ⟨c, hc, -, hsense, hbound, -⟩ := hkept.constraint i₀
  rw [← hi, List.getElem?_eq_getElem i.isLt, Option.some_inj] at hc
  obtain ⟨hsense', hbound'⟩ := Constraint.sense_of_row (hread.row_eq_ok i₀)
  have hvalue : Sparse.valueAt (rebuilt.matrix.get i) x = Sparse.valueAt (model.matrix.get i₀) x := by
    rw [Sparse.valueAt_eq_of_map_term (hkept.map_term_matrix hread.increasing hi),
      Sparse.valueAt_dropZeros, hread.matrix]
  have hsame : rebuilt.constraints[i].sense = model.constraints[i₀].sense ∧
      rebuilt.constraints[i].bound = model.constraints[i₀].bound := by
    show rebuilt.constraints[(i : ℕ)].sense = _ ∧ rebuilt.constraints[(i : ℕ)].bound = _
    rw [hc]
    exact ⟨hsense.trans hsense'.symm, hbound.trans hbound'.symm⟩
  rw [Constraint.Admits, Constraint.Admits, hsame.1, hsame.2, hvalue]

/-- A model that is read and built again without presolving has the same objective, and every
feasible point stays one. The points that become feasible are those at which a reversed variable takes
a value that is not its own; a bound changes what it allows exactly if it is reversed. -/
theorem isFeasible_iff_rebuilt [HasHugeSize α] (hread : model.toInstance = .ok inst)
    (hkeeps : rebuilt.Keeps inst.build) :
    rebuilt.direction = model.direction ∧ (∀ x, rebuilt.objectiveAt x = model.objectiveAt x) ∧
    (∀ x, model.IsFeasible x ↔ rebuilt.IsFeasible x ∧
      ∀ v ∈ model.vars.zipIdx, v.1.IsReversed → v.1.Takes (x v.2)) ∧
    ((∀ v ∈ model.vars, ¬ v.IsReversed) → ∀ x, rebuilt.IsFeasible x ↔ model.IsFeasible x) ∧
    ∀ (k : ℕ) (v w : Variable α), model.vars[k]? = some v → rebuilt.vars[k]? = some w →
      denote v.lower ≠ nan → denote v.upper ≠ nan →
      ((∀ x, w.Allows x ↔ v.Allows x) ↔ ¬ v.IsReversed) := by
  have hinst := toInstance_eq_ok_iff.mp hread
  have hkept := Instance.isKeptIn_of_keeps hkeeps
  have hvars : ∀ x : ℕ → ℚ, (∀ v ∈ rebuilt.vars.zipIdx, v.1.Takes (x v.2)) ↔
      ∀ v ∈ model.vars.zipIdx, v.1.column.variable.Takes (x v.2) := by
    intro x
    rw [vars_rebuilt hinst hkept, List.zipIdx_map, List.forall_mem_map]
    rfl
  have hrows : ∀ x : ℕ → ℚ,
      (∀ i : Fin rebuilt.height,
        rebuilt.constraints[i].Admits (Sparse.valueAt (rebuilt.matrix.get i) x)) ↔
      ∀ i : Fin model.height,
        model.constraints[i].Admits (Sparse.valueAt (model.matrix.get i) x) := by
    intro x
    constructor
    · intro h i
      exact (admits_rebuilt_iff hinst hkept ⟨i, i.isLt.trans_eq hkept.height.symm⟩ i rfl x).mp (h _)
    · intro h i
      exact (admits_rebuilt_iff hinst hkept i ⟨i, i.isLt.trans_eq hkept.height⟩ rfl x).mpr (h _)
  have hfeasible : ∀ x, model.IsFeasible x ↔ rebuilt.IsFeasible x ∧
      ∀ v ∈ model.vars.zipIdx, v.1.IsReversed → v.1.Takes (x v.2) := by
    intro x
    rw [IsFeasible, IsFeasible, hvars, hrows]
    constructor
    · rintro ⟨hdomains, hrest⟩
      exact ⟨⟨fun v hv => Variable.takes_rebuilt_of_takes (hdomains v hv), hrest⟩,
        fun v hv _ => hdomains v hv⟩
    · rintro ⟨⟨hdomains, hrest⟩, hreversed⟩
      refine ⟨fun v hv => ?_, hrest⟩
      by_cases h : v.1.IsReversed
      · exact hreversed v hv h
      · exact (Variable.takes_rebuilt_iff h).mp (hdomains v hv)
  refine ⟨hkept.direction.trans hinst.direction, objectiveAt_rebuilt hinst hkept, hfeasible,
    fun hnone x => ?_, fun k v w hv hw hlower hupper => ?_⟩
  · rw [hfeasible, iff_self_and]
    exact fun _ v hv h => absurd h (hnone v.1 (List.fst_mem_of_mem_zipIdx hv))
  · rw [vars_rebuilt hinst hkept, List.getElem?_map, hv] at hw
    obtain rfl := Option.some.inj hw
    constructor
    · intro hsame h
      obtain ⟨x, hx⟩ := Variable.exists_allows_rebuilt h hlower hupper
      exact Variable.not_allows_of_isReversed h ((hsame x).mp hx)
    · exact fun h x => Variable.allows_rebuilt_iff h

/-- The model `x ≤ 4` with `x` between the given bounds, to be minimized. -/
def bounded (lower upper : Float) : Model Float where
  vars := [⟨"x", lower, upper, .continuous, 1⟩]
  constraints := [⟨"c", [(0, 1)], "<", 4⟩]
  direction := 1
  constant := 0

def boundedRead (lower upper : Float) : Instance Float 1 1 where
  columns := #v[⟨"x", ⟨lower, upper⟩, .continuous, 1⟩]
  rows := #v[⟨"c", .atMost, 4⟩]
  matrix := #v[[(Fin.last 0, 1)]]
  direction := 1
  constant := 0

/-- A lower bound of minus the huge size is none, and an infinite upper bound stays one. -/
theorem bounded_keeps_points :
    (bounded (-1e100) (1 / 0)).toInstance = .ok (boundedRead (-(1 / 0)) (1 / 0)) ∧
    ∀ x, (boundedRead (-(1 / 0)) (1 / 0)).handedBack.IsFeasible x ↔
      (bounded (-1e100) (1 / 0)).IsFeasible x := by
  have hread : (bounded (-1e100) (1 / 0)).toInstance = .ok (boundedRead (-(1 / 0)) (1 / 0)) := by
    decide +kernel
  obtain ⟨-, -, -, hsame, -⟩ := isFeasible_iff_rebuilt hread (Instance.keeps_handedBack _)
  exact ⟨hread, hsame (by decide +kernel)⟩

/-- With the lower bound plus infinity no value is allowed; after reading and building, zero is. -/
theorem bounded_gains_point :
    (bounded (1 / 0) 5).toInstance = .ok (boundedRead (1 / 0) 5) ∧
    (boundedRead (1 / 0) 5).handedBack.Keeps (boundedRead (1 / 0) 5).build ∧
    (∀ x, ¬ (bounded (1 / 0) 5).IsFeasible x) ∧
    (boundedRead (1 / 0) 5).handedBack.IsFeasible fun _ => 0 := by
  refine ⟨by decide +kernel, Instance.keeps_handedBack _, ?_, by decide +kernel⟩
  rintro x ⟨hvars, -⟩
  exact Variable.not_allows_of_isReversed (.inl HasHugeSize.denote_infinity)
    (hvars _ List.mem_cons_self)

end Model

end CoefficientTightening
