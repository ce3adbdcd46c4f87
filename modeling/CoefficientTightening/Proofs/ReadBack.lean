import CoefficientTightening.Proofs.HandedBack
import CoefficientTightening.Proofs.HugeBounds
import CoefficientTightening.Proofs.StructuralZeros

/-! An instance that is built for a solver and read back. Reading turns the huge bounds that
building writes into infinite ones again, so every bound comes back as it was, unless it is infinite
on the wrong side. Rows and columns come back in order, and the matrix comes back without its zeros.
What building and reading need of an instance holds of one that was read, and presolving keeps it.
As zeros do not show in presolving, the instance that was read back is presolved like the one that
was built. -/
namespace CoefficientTightening

open RoundedScalar (denote beq_iff_denote beq_self_iff denote_zero_add)
open Sparse (dropZeros)

variable {α : Type} [Scalar α] {m n : Nat}

/-! ### What was read, and presolved -/

namespace Instance

/-- What building and reading back need of an instance. -/
structure IsBuildable (inst : Instance α m n) : Prop where
  increasing : ∀ i, Sparse.HasIncreasingColumns (inst.matrix.get i)
  words : ∀ i, ∀ j : Fin n, j ∈ (inst.matrix.get i).map (·.1) → fitsWord (j : Nat) = true
  ranges : ∀ j, ∃ v : Variable α, (inst.columns.get j).range = v.range

/-- Presolve an instance again and again; each call has a limit of rounds, and may validate. -/
def presolveAll (inst : Instance α m n) (calls : List (Int × Bool)) : Instance α m n :=
  calls.foldl (fun inst call => (inst.presolve call.1 call.2).inst) inst

variable {inst : Instance α m n}

/-- Presolving keeps the columns of an instance and the places of its coefficients. -/
theorem presolve_keeps_places (hrows : ∀ i, Sparse.HasIncreasingColumns (inst.matrix.get i))
    (maxRounds : Int) (validates : Bool) :
    (inst.presolve maxRounds validates).inst.columns = inst.columns ∧
      ∀ i, ((inst.presolve maxRounds validates).inst.matrix.get i).map (·.1) =
        (inst.matrix.get i).map (·.1) := by
  by_cases h : (inst.presolve maxRounds validates).failure = none
  · obtain ⟨p, k, hp, -, hinst⟩ := exists_presolve h
    rw [hinst]
    refine ⟨rfl, fun i => ?_⟩
    have hplaces := (p.sameShape_iterate_tighten k).places_eq i
    rw [← (isReadAs_of_toFormulation hp).toRows_eq hrows, get_columns_toRows, ← hplaces]
    exact get_columns_toRows _ i
  · rw [presolve_of_failed h]
    exact ⟨rfl, fun _ => rfl⟩

theorem IsBuildable.presolve (h : inst.IsBuildable) (maxRounds : Int) (validates : Bool) :
    (inst.presolve maxRounds validates).inst.IsBuildable := by
  obtain ⟨hcolumns, hplaces⟩ := presolve_keeps_places h.increasing maxRounds validates
  refine ⟨fun i => ?_, fun i => ?_, fun j => ?_⟩
  · rw [Sparse.HasIncreasingColumns, hplaces]
    exact h.increasing i
  · rw [hplaces]
    exact h.words i
  · rw [hcolumns]
    exact h.ranges j

theorem IsBuildable.presolveAll (h : inst.IsBuildable) (calls : List (Int × Bool)) :
    (inst.presolveAll calls).IsBuildable := by
  induction calls generalizing inst with
  | nil => exact h
  | cons call rest ih => exact ih (h.presolve call.1 call.2)

end Instance

theorem Model.IsReadInto.isBuildable {model : Model α} {inst : Instance α model.height model.width}
    (h : model.IsReadInto inst) : inst.IsBuildable where
  increasing := h.increasing
  words i j hj := by
    obtain ⟨row, hterms, hrow⟩ := h.exists_row i
    rw [hrow] at hj
    obtain ⟨t, ht, rfl⟩ := List.mem_map.mp (Sparse.columns_canonicalRow_subset row hj)
    have hmem : Sparse.term t ∈ model.constraints[i].terms := by
      rw [hterms]
      exact List.mem_map_of_mem ht
    exact (checkTerms_eq_ok_iff.mp h.terms _ (List.getElem_mem i.isLt) _ hmem).1
  ranges j := by
    obtain ⟨v, -, hv⟩ := h.exists_column_iff (P := fun c => c = inst.columns.get j) |>.mp ⟨j, rfl⟩
    exact ⟨v, congrArg InstanceColumn.range hv.symm⟩

/-! ### Reading back -/

/-- Read a model, whatever its size. -/
def Model.read (model : Model α) : Except Unreadable ((m : Nat) × (n : Nat) × Instance α m n) :=
  model.toInstance.map fun inst => ⟨model.height, model.width, inst⟩

/-- A column comes back as it was, unless one of its bounds is infinite on the wrong side. -/
theorem InstanceColumn.column_variable [RoundedScalar α] [HasHugeSize α] {c : InstanceColumn α}
    (hread : ∃ v : Variable α, c.range = v.range)
    (hlower : (c.range.lower == Scalar.infinity) = false)
    (hupper : (c.range.upper == -Scalar.infinity) = false) : c.variable.column = c := by
  obtain ⟨name, range, kind, objective⟩ := c
  obtain ⟨v, hv⟩ := hread
  dsimp only at hv hlower hupper
  subst hv
  unfold InstanceColumn.variable Variable.column
  congr 1
  calc Variable.range _
      = ⟨(Variable.range _).lower, (Variable.range _).upper⟩ := rfl
    _ = ⟨v.range.lower, v.range.upper⟩ := by
        rw [Variable.lower_range_of_built hlower rfl, Variable.upper_range_of_built hupper rfl]

namespace Instance

/-- What is read back from the model that was built for an instance. -/
def readBack (inst : Instance α m n) : Instance α m n :=
  { inst with matrix := inst.matrix.map dropZeros, constant := 0 + inst.constant }

theorem get_matrix_readBack (inst : Instance α m n) (i : Fin m) :
    inst.readBack.matrix.get i = dropZeros (inst.matrix.get i) :=
  get_map _ _ _

theorem hasSameNonzeros_readBack (inst : Instance α m n) : inst.HasSameNonzeros inst.readBack where
  columns := rfl
  rows := rfl
  nonzeros i := by
    rw [get_matrix_readBack, dropZeros, dropZeros, List.filter_filter]
    simp only [Bool.and_self]

variable {inst : Instance α m n} {model : Model α}

theorem IsKeptIn.row_eq_ok (h : inst.IsKeptIn model) {c : Constraint α} {i : Fin m}
    (hc : model.constraints[(i : Nat)]? = some c) : c.row = .ok (inst.rows.get i) := by
  obtain ⟨c', hc', hname, hsense, hbound, -⟩ := h.constraint i
  obtain rfl := Option.some.inj (hc.symm.trans hc')
  rw [Constraint.row, hsense, Sense.ofSymbol?_symbol, hname, hbound]

theorem IsBuildable.checkTerms_eq (h : inst.IsBuildable) (hkept : inst.IsKeptIn model) :
    model.checkTerms = .ok () := by
  rw [Model.checkTerms_eq_ok_iff]
  intro c hc t ht
  obtain ⟨k, hk, rfl⟩ := List.getElem_of_mem hc
  have hm : k < m := hk.trans_eq hkept.height
  obtain ⟨c, hc, -, -, -, hterms⟩ := hkept.constraint ⟨k, hm⟩
  rw [List.getElem?_eq_getElem hk, Option.some_inj] at hc
  rw [hc, hterms.mem_iff] at ht
  obtain ⟨u, hu, rfl⟩ := List.mem_map.mp ht
  have hcolumn := List.mem_map_of_mem (f := (·.1)) (List.mem_of_mem_filter hu)
  have hwidth := u.1.isLt.trans_eq hkept.width.symm
  exact ⟨h.words ⟨k, hm⟩ u.1 hcolumn, Int.natCast_nonneg _, Int.ofNat_lt.mpr hwidth⟩

theorem IsBuildable.map_column_variable [RoundedScalar α] [HasHugeSize α] (h : inst.IsBuildable)
    (hlower : ∀ j, ((inst.columns.get j).range.lower == Scalar.infinity) = false)
    (hupper : ∀ j, ((inst.columns.get j).range.upper == -Scalar.infinity) = false) :
    inst.columns.toList.map (fun c => c.variable.column) = inst.columns.toList := by
  conv_rhs => rw [← List.map_id inst.columns.toList]
  apply List.map_congr_left
  intro c hc
  obtain ⟨j, hj, rfl⟩ := List.getElem_of_mem hc
  have hget : inst.columns.toList[j] = inst.columns.get ⟨j, by simpa using hj⟩ := by
    simp [get_eq_getElem]
  rw [hget]
  exact InstanceColumn.column_variable (h.ranges _) (hlower _) (hupper _)

/-- The model that was built is read back. -/
theorem IsBuildable.read_eq [RoundedScalar α] [HasHugeSize α] (h : inst.IsBuildable)
    (hlower : ∀ j, ((inst.columns.get j).range.lower == Scalar.infinity) = false)
    (hupper : ∀ j, ((inst.columns.get j).range.upper == -Scalar.infinity) = false)
    (hkept : inst.IsKeptIn model) : model.read = .ok ⟨m, n, inst.readBack⟩ := by
  obtain rfl : model.height = m := hkept.height
  obtain rfl : model.width = n := hkept.width
  have hread : model.IsReadInto inst.readBack :=
    { terms := h.checkTerms_eq hkept
      columns := by
        rw [hkept.vars, List.map_map]
        exact (h.map_column_variable hlower hupper).symm
      rows := by
        rw [Model.readRows_eq_ok_iff, List.forall₂_iff_get]
        refine ⟨by simp, fun k hk _ => ?_⟩
        have hrow := hkept.row_eq_ok (i := ⟨k, hk⟩) (List.getElem?_eq_getElem hk)
        simpa [get_eq_getElem, readBack] using hrow
      matrix := by
        apply vector_ext
        intro i
        apply List.map_injective_iff.mpr Sparse.term_injective
        rw [get_matrix_readBack]
        exact (hkept.map_term_matrix h.increasing rfl).symm
      direction := hkept.direction.symm
      constant := hkept.constant.symm }
  rw [Model.read, Model.toInstance_eq_ok_iff.mpr hread]
  rfl

theorem IsBuildable.readBack (h : inst.IsBuildable) (i : Fin m) :
    Sparse.HasIncreasingColumns (inst.readBack.matrix.get i) := by
  rw [get_matrix_readBack]
  exact (h.increasing i).dropZeros

/-- An instance that was read from a model and presolved any number of times, then built for a
solver and read back, is the same up to stored zeros and the sign of a zero constant; there are no
stored zeros in it, and presolving it once more does the same to it as to the instance that was
built. -/
theorem readBack_of_presolveAll [RoundedScalar α] [HasHugeSize α] {source rebuilt : Model α}
    {start : Instance α source.height source.width} (hread : source.toInstance = .ok start)
    (calls : List (Int × Bool)) :
    let inst := start.presolveAll calls
    (∀ j, ((inst.columns.get j).range.lower == Scalar.infinity) = false) →
    (∀ j, ((inst.columns.get j).range.upper == -Scalar.infinity) = false) →
    (inst.constant == inst.constant) = true → rebuilt.Keeps inst.build →
    ∃ again : Instance α source.height source.width,
      rebuilt.read = .ok ⟨source.height, source.width, again⟩ ∧
      again.columns = inst.columns ∧ again.rows = inst.rows ∧ again.rowRanges = inst.rowRanges ∧
      again.direction = inst.direction ∧ (again.constant == inst.constant) = true ∧
      (∀ i, again.matrix.get i = dropZeros (inst.matrix.get i)) ∧
      (∀ i, ∀ t ∈ again.matrix.get i, (t.2 == 0) = false) ∧
      ∀ (maxRounds : Int) (validates : Bool),
        let original := inst.presolve maxRounds validates
        let reloaded := again.presolve maxRounds validates
        reloaded.schedule = original.schedule ∧ reloaded.events = original.events ∧
          reloaded.failure = original.failure ∧ reloaded.inst.rows = original.inst.rows ∧
          ∀ i, dropZeros (reloaded.inst.matrix.get i) = dropZeros (original.inst.matrix.get i) := by
  intro inst hlower hupper hconstant hkeeps
  have hbuildable : inst.IsBuildable :=
    (Model.toInstance_eq_ok_iff.mp hread).isBuildable.presolveAll calls
  refine ⟨inst.readBack, hbuildable.read_eq hlower hupper (isKeptIn_of_keeps hkeeps), rfl, rfl, rfl,
    rfl, ?_, inst.get_matrix_readBack, fun i t ht => ?_, fun maxRounds validates => ?_⟩
  · have hvalue : denote (0 + inst.constant) = denote inst.constant := denote_zero_add _
    exact beq_iff_denote.mpr ⟨hvalue, hvalue ▸ beq_self_iff.mp hconstant⟩
  · rw [get_matrix_readBack] at ht
    simpa using List.of_mem_filter ht
  · obtain ⟨hsame, hschedule, hevents, hfailure⟩ := inst.hasSameNonzeros_readBack.presolve
      hbuildable.increasing hbuildable.readBack maxRounds validates
    exact ⟨hschedule, hevents, hfailure, hsame.rows, hsame.nonzeros⟩

/-- A row that tightening leaves with a stored zero: `x + y ≤ 5` with `x` whole, at least 0 and at
most 4, and `y` at most 1. -/
def loosePair : Model Float where
  vars := [⟨"x", 0, 4, .integer, 1⟩, ⟨"y", -1e100, 1, .continuous, 1⟩]
  constraints := [⟨"c", [(1, 1), (0, 1)], "<", 5⟩]
  direction := 1
  constant := 0

def loosePairRead : Instance Float 1 2 where
  columns := #v[⟨"x", ⟨0, 4⟩, .integer, 1⟩, ⟨"y", ⟨-(1 / 0), 1⟩, .continuous, 1⟩]
  rows := #v[⟨"c", .atMost, 5⟩]
  matrix := #v[(List.finRange 2).map (·, 1)]
  direction := 1
  constant := 0

/-- One call leaves `0 x + y ≤ 1`; the zero is not read back, and is not missed. -/
theorem loosePair_readBack :
    let inst := loosePairRead.presolveAll [(10, true)]
    loosePair.toInstance = .ok loosePairRead ∧
    inst.matrix.get (Fin.last 0) = [(0, 0), (Fin.last 1, 1)] ∧
    ∃ again : Instance Float 1 2, inst.handedBack.read = .ok ⟨1, 2, again⟩ ∧
      again.columns = inst.columns ∧ again.rows = inst.rows ∧
      again.matrix.get (Fin.last 0) = [(Fin.last 1, 1)] ∧
      (again.presolve 10 true).events = (inst.presolve 10 true).events := by
  intro inst
  have hread : loosePair.toInstance = .ok loosePairRead := by decide +kernel
  obtain ⟨again, hagain, hcolumns, hrows, -, -, -, hmatrix, -, hpresolve⟩ :=
    readBack_of_presolveAll hread [(10, true)] (by decide +kernel) (by decide +kernel)
      (by decide +kernel) (keeps_handedBack _)
  have hrow : dropZeros (inst.matrix.get (Fin.last 0)) = [(Fin.last 1, 1)] := by decide +kernel
  exact ⟨hread, by decide +kernel, again, hagain, hcolumns, hrows,
    (hmatrix (Fin.last 0)).trans hrow, (hpresolve 10 true).2.1⟩

end Instance

end CoefficientTightening
