import CoefficientTightening.Proofs.ReadModel

/-! A model that a solver holds after an instance was built for it. The solver keeps the variables,
the objective and the constraints in their order, and may list the terms of a constraint in any
order. Zero coefficients of constraints were left out when the model was built. -/
namespace CoefficientTightening

variable {α : Type}

/-- The constraint is the one that was handed over. -/
structure Constraint.Keeps (c : Constraint α) (given : String × Sense × α × List (α × Nat)) :
    Prop where
  name : c.name = given.1
  sense : c.sense = given.2.1.symbol
  bound : c.bound = given.2.2.1
  terms : c.terms.Perm (given.2.2.2.map fun t => ((t.2 : Int), t.1))

/-- The model is the one that was handed over. -/
structure Model.Keeps (model : Model α) (built : BuiltModel α) : Prop where
  vars : model.vars.map (fun v => (v.name, v.lower, v.upper, v.kind)) = built.vars
  objective : model.vars.zipIdx.map (fun v => (v.1.objective, v.2)) = built.objective
  constraints : List.Forall₂ Constraint.Keeps model.constraints built.constraints
  constant : model.constant = built.constant
  direction : model.direction = built.direction

variable [Scalar α] {m n : Nat}

/-! ### Rows without zeros -/

namespace Sparse

omit [Scalar α] in
theorem term_injective : Function.Injective (term : Fin n × α → Int × α) := by
  intro t u h
  obtain ⟨hcolumn, hvalue⟩ := Prod.mk.inj h
  exact Prod.ext (Fin.ext (Int.ofNat_inj.mp hcolumn)) hvalue

omit [Scalar α] in
theorem sortByColumn_of_perm {row row' : List (Fin n × α)} (h : row'.Perm row)
    (hrow : HasIncreasingColumns row) : sortByColumn row' = row := by
  have hperm : (sortByColumn row').Perm row := (sortByColumn_perm row').trans h
  have hsorted : row.Pairwise fun t u => t.1 ≤ u.1 := (List.pairwise_map.mp hrow).imp le_of_lt
  refine hperm.eq_of_pairwise (fun t u ht hu hle hge => ?_) (pairwise_sortByColumn row') hsorted
  have hnodup : (row.map (·.1)).Nodup := hrow.imp ne_of_lt
  exact List.inj_on_of_nodup_map hnodup (hperm.mem_iff.mp ht) hu (le_antisymm hle hge)

/-- Terms in any order, no column repeated, are sorted when they are read. -/
theorem map_term_canonicalRow {n' : Nat} (hsize : n' = n) {row' : List (Fin n' × α)}
    {row : List (Fin n × α)} (hrow : HasIncreasingColumns row)
    (h : (row'.map term).Perm (row.map term)) : (canonicalRow row').map term = row.map term := by
  subst hsize
  have hsort := sortByColumn_of_perm ((List.map_perm_map_iff term_injective).mp h) hrow
  have hself := sortByColumn_of_perm (List.Perm.refl row) hrow
  have hcanonical : canonicalRow row' = canonicalRow row := by
    rw [canonicalRow, canonicalRow, hsort, hself]
  rw [hcanonical, canonicalRow_of_increasing hrow]

end Sparse

/-! ### Handing over -/

/-- The variable that a column is handed over as. -/
def InstanceColumn.variable (c : InstanceColumn α) : Variable α where
  name := c.name
  lower := Instance.solverBound .lower c.range.lower
  upper := Instance.solverBound .upper c.range.upper
  kind := c.kind
  objective := c.objective

namespace Instance

/-- The model handed over, its terms in the order of the columns. -/
def handedBack (inst : Instance α m n) : Model α where
  vars := inst.columns.toList.map InstanceColumn.variable
  constraints := (List.finRange m).map fun i =>
    { name := (inst.rows.get i).name
      terms := (Sparse.dropZeros (inst.matrix.get i)).map Sparse.term
      sense := (inst.rows.get i).sense.symbol
      bound := (inst.rows.get i).bound }
  direction := inst.direction
  constant := 0 + inst.constant

/-- What a model keeps of an instance, row by row. -/
structure IsKeptIn (inst : Instance α m n) (model : Model α) : Prop where
  vars : model.vars = inst.columns.toList.map InstanceColumn.variable
  height : model.height = m
  constraint : ∀ i : Fin m, ∃ c, model.constraints[(i : Nat)]? = some c ∧
    c.name = (inst.rows.get i).name ∧ c.sense = (inst.rows.get i).sense.symbol ∧
    c.bound = (inst.rows.get i).bound ∧
    c.terms.Perm ((Sparse.dropZeros (inst.matrix.get i)).map Sparse.term)
  constant : model.constant = 0 + inst.constant
  direction : model.direction = inst.direction

variable {inst : Instance α m n} {model : Model α}

theorem isKeptIn_of_keeps (h : model.Keeps inst.build) : inst.IsKeptIn model where
  vars := by
    apply List.ext_getElem?
    intro k
    have hvars := congrArg (fun l => l[k]?) h.vars
    have hobjective := congrArg (fun l => l[k]?) h.objective
    simp only [build, List.getElem?_map, List.getElem?_zipIdx, Option.map_map] at hvars hobjective ⊢
    cases hv : model.vars[k]? <;> cases hc : inst.columns.toList[k]? <;>
      rw [hv, hc] at hvars hobjective
    case none.none => rfl
    case some.some v c =>
      obtain ⟨_, _, _, _, _⟩ := v
      simp_all [InstanceColumn.variable]
    all_goals cases hvars
  height := by simpa [build] using h.constraints.length_eq
  constraint i := by
    have hlength : i < model.constraints.length := by
      rw [h.constraints.length_eq]
      simp [build]
    obtain ⟨hname, hsense, hbound, hterms⟩ := h.constraints.get hlength (by simp [build])
    simp only [build, List.get_eq_getElem, List.getElem_map, List.getElem_finRange, List.map_map]
      at hname hsense hbound hterms
    exact ⟨_, List.getElem?_eq_getElem hlength, hname, hsense, hbound, hterms⟩
  constant := h.constant
  direction := h.direction

theorem IsKeptIn.width (h : inst.IsKeptIn model) : model.width = n := by
  rw [Model.width, h.vars]
  simp

/-- Reading the kept constraints gives the rows without their zeros. -/
theorem IsKeptIn.map_term_matrix (h : inst.IsKeptIn model)
    (hrows : ∀ i, Sparse.HasIncreasingColumns (inst.matrix.get i)) {i : Fin model.height} {i₀ : Fin m}
    (hi : (i : Nat) = i₀) :
    (model.matrix.get i).map Sparse.term = (Sparse.dropZeros (inst.matrix.get i₀)).map Sparse.term := by
  obtain ⟨c, hc, -, -, -, hterms⟩ := h.constraint i₀
  rw [← hi, List.getElem?_eq_getElem i.isLt, Option.some_inj] at hc
  rw [← hc] at hterms
  obtain ⟨row', hrow'⟩ : ∃ row' : List (Fin model.width × α), model.constraints[i].terms =
      row'.map Sparse.term := by
    apply Sparse.exists_map_term
    intro t ht
    obtain ⟨u, -, rfl⟩ := List.mem_map.mp (hterms.mem_iff.mp ht)
    rw [h.width]
    exact ⟨Int.natCast_nonneg _, Int.ofNat_lt.mpr u.1.isLt⟩
  rw [Model.get_matrix hrow']
  exact Sparse.map_term_canonicalRow h.width (hrows i₀).dropZeros (hrow' ▸ hterms)

theorem keeps_handedBack (inst : Instance α m n) : inst.handedBack.Keeps inst.build where
  vars := by
    rw [handedBack, List.map_map]
    rfl
  objective := by
    rw [handedBack, List.zipIdx_map, List.map_map]
    rfl
  constraints := by
    rw [handedBack, build, List.forall₂_map_left_iff, List.forall₂_map_right_iff, List.forall₂_same]
    intro i _
    refine ⟨rfl, rfl, rfl, ?_⟩
    rw [List.map_map]
    exact List.Perm.refl _
  constant := rfl
  direction := rfl

end Instance

end CoefficientTightening
