import CoefficientTightening.Proofs.Binary64.Arithmetic
import CoefficientTightening.Proofs.ModelPoints
import CoefficientTightening.Proofs.NonzeroCounts
import CoefficientTightening.Proofs.TwoRounds

/-! What presolving writes back to an instance. An inequality has a place for one bound and takes
over that one; an equation takes over none. This loses nothing, since a pass moves no bound but the
only finite one of a row, and an equation has two finite bounds or none. Of the sizes of an instance
only the number of nonzeros changes, by the number of coefficients that were recorded as zero. -/
namespace CoefficientTightening

open Reduction (zeroRecords)

namespace Instance

section Definitions

variable {α : Type} [Scalar α] {m n : Nat}

/-- After a run that left this formulation and applied these reductions, the second instance is the
first one with everything written back. -/
structure IsWrittenBack (before : Instance α m n) (final : Formulation α m n)
    (applied : List (Reduction α)) (after : Instance α m n) : Prop where
  rowRange : ∀ i, after.rowRanges.get i = (final.rows.get i).range
  matrix : after.matrix = final.matrix.toRows
  stored : ∀ i, (after.matrix.get i).map (·.1) = (before.matrix.get i).map (·.1)
  name : ∀ i, (after.rows.get i).name = (before.rows.get i).name
  sense : ∀ i, (after.rows.get i).sense = (before.rows.get i).sense
  equation : ∀ i, (before.rows.get i).sense = .equal → after.rows.get i = before.rows.get i
  columns : after.columns = before.columns
  direction : after.direction = before.direction
  constant : after.constant = before.constant
  statistics : after.statistics =
    { before.statistics with nonzeros := before.statistics.nonzeros - zeroRecords applied }
  rowCounts : (final.rows.toList.map (·.nonzeros)).sum = .ofNat after.matrix.nonzeros
  columnCounts : (final.columns.toList.map (·.nonzeros)).sum = .ofNat after.matrix.nonzeros
  /-- The counts are words of 64 bits. -/
  counts_fit : after.matrix.nonzeros < 2 ^ 63 →
    (final.rows.toList.map (·.nonzeros.toInt)).sum = after.statistics.nonzeros ∧
      (final.columns.toList.map (·.nonzeros.toInt)).sum = after.statistics.nonzeros

/-- What a run keeps, from the formulation `p` of an instance to the present one. -/
structure Keeps (inst : Instance α m n) (p q : Formulation α m n) (log : List (Reduction α)) :
    Prop where
  range : ∀ i, ((inst.rows.get i).withRange (q.rows.get i).range).range = (q.rows.get i).range
  shape : p.matrix.SameShape q.matrix
  counts : q.CountsNonzeros
  nonzeros : q.matrix.toRows.nonzeros + zeroRecords log = p.matrix.toRows.nonzeros

end Definitions

variable {α : Type} [Scalar α] {m n : Nat} {inst : Instance α m n} {p q : Formulation α m n}
  {log : List (Reduction α)}

/-! ### The start -/

theorem keeps_of_toFormulation (h : inst.toFormulation = .ok p) : inst.Keeps p p [] where
  range i := by
    rw [(isReadAs_of_toFormulation h).rowRange, withRange_range]
  shape := .refl _
  counts := by
    obtain ⟨kinds, rfl⟩ := exists_ofRanges_of_toFormulation h
    constructor <;> intro k <;> simp [Formulation.ofRanges, get_eq_getElem]
  nonzeros := rfl

/-! ### A pass -/

theorem Keeps.tighten [RoundedScalar α] (hpos : Scalar.isFinite (Scalar.infinity : α) = false)
    (hneg : Scalar.isFinite (-Scalar.infinity : α) = false) (h : inst.Keeps p q log) :
    inst.Keeps p q.tighten (log ++ q.tighteningPass.reductions) where
  range i := InstanceRow.range_withRange_tighten hpos hneg (h.range i)
  shape := h.shape.trans q.sameShape_tighten
  counts := h.counts.tighten.1
  nonzeros := by
    have hpass := h.counts.tighten.2
    have hbefore := h.nonzeros
    unfold zeroRecords at *
    rw [List.countP_append]
    omega

/-! ### The end -/

omit [Scalar α] in
theorem name_withRange (r : InstanceRow α) (range : Interval α) :
    (r.withRange range).name = r.name ∧ (r.withRange range).sense = r.sense := by
  obtain ⟨name, sense, bound⟩ := r
  cases sense <;> exact ⟨rfl, rfl⟩

omit [Scalar α] in
theorem withRange_of_equal {r : InstanceRow α} (h : r.sense = .equal) (range : Interval α) :
    r.withRange range = r := by
  simp only [InstanceRow.withRange, h]

/-- What was kept is written back. -/
theorem Keeps.isWrittenBack (h : inst.Keeps p q log) (hrows : p.matrix.toRows = inst.matrix) :
    inst.IsWrittenBack q log (inst.adopt q) where
  rowRange i := by
    rw [rowRanges, get_map, get_rows_adopt]
    exact h.range i
  matrix := rfl
  stored i := by
    have hplaces := h.shape.places_eq i
    rw [← hrows, get_columns_toRows, ← hplaces]
    exact get_columns_toRows q.matrix i
  name i := by
    rw [get_rows_adopt]
    exact (name_withRange _ _).1
  sense i := by
    rw [get_rows_adopt]
    exact (name_withRange _ _).2
  equation i hequal := by
    rw [get_rows_adopt, withRange_of_equal hequal]
  columns := rfl
  direction := rfl
  constant := rfl
  statistics := by
    have hnonzeros := h.nonzeros
    rw [hrows] at hnonzeros
    have hcount : ((inst.adopt q).matrix.nonzeros : Int) =
        inst.matrix.nonzeros - zeroRecords log := by
      rw [← hnonzeros, Nat.cast_add, add_sub_cancel_right]
      rfl
    unfold statistics
    rw [hcount]
    rfl
  rowCounts := h.counts.sum_rows.1
  columnCounts := h.counts.sum_columns.1
  counts_fit hsmall := ⟨h.counts.sum_rows.2 hsmall, h.counts.sum_columns.2 hsmall⟩

/-- Presolving a model that was read, for any number of rounds and with checks or without: where it
does not fail, everything that the run found is written back, and nothing else changes. -/
theorem presolve_writes_back {model : Model Float}
    {inst : Instance Float model.height model.width} (hread : model.toInstance = .ok inst)
    (maxRounds : Int) (validates : Bool)
    (hnone : (inst.presolve maxRounds validates).failure = none) :
    ∃ p, inst.toFormulation = .ok p ∧
      let run := (Schedule.new maxRounds validates [()]).run tighteningOnly none p
      let after := inst.presolve maxRounds validates
      after.schedule = run.schedule ∧
        inst.IsWrittenBack run.data run.schedule.applied after.inst := by
  obtain ⟨p, hp, hrun, hpresolve⟩ := presolve_eq hnone
  have hkeeps := run_tighteningOnly_induction validates
    (fun q log (h : inst.Keeps p q log) => h.tighten (by decide +kernel) (by decide +kernel))
    (keeps_of_toFormulation hp) hrun
  have hrows : ∀ i, Sparse.HasIncreasingColumns (inst.matrix.get i) := by
    intro i
    rw [Model.matrix_of_toInstance hread, Model.matrix, Sparse.Rows.get_canonical]
    exact Sparse.hasIncreasingColumns_canonicalRow _
  refine ⟨p, hp, ?_⟩
  rw [hpresolve]
  exact ⟨rfl, hkeeps.isWrittenBack ((isReadAs_of_toFormulation hp).toRows_eq hrows)⟩

/-- The model `x + x ≤ 2`, `x = 1` with `x` binary. -/
def redundantRow : Model Float where
  vars := [⟨"x", 0, 1, .binary, 1⟩]
  constraints := [⟨"c", [(0, 1), (0, 1)], "<", 2⟩, ⟨"d", [(0, 1)], "=", 1⟩]
  direction := 1
  constant := 0

def redundantRowRead : Instance Float 2 1 where
  columns := #v[⟨"x", ⟨0, 1⟩, .binary, 1⟩]
  rows := #v[⟨"c", .atMost, 2⟩, ⟨"d", .equal, 1⟩]
  matrix := #v[[(Fin.last 0, 2)], [(Fin.last 0, 1)]]
  direction := 1
  constant := 0

/-- The inequality becomes `0 x ≤ 0`; the equation stays. -/
theorem redundantRow_written_back :
    redundantRow.toInstance = .ok redundantRowRead ∧
    (redundantRowRead.presolve 10 true).failure = none ∧
    zeroRecords (redundantRowRead.presolve 10 true).schedule.applied = 1 ∧
    (redundantRowRead.presolve 10 true).inst.statistics.nonzeros = 1 ∧
    ∃ p, redundantRowRead.toFormulation = .ok p ∧
      redundantRowRead.IsWrittenBack
        ((Schedule.new 10 true [()]).run tighteningOnly none p).data
        ((Schedule.new 10 true [()]).run tighteningOnly none p).schedule.applied
        (redundantRowRead.presolve 10 true).inst := by
  have hread : redundantRow.toInstance = .ok redundantRowRead := by decide +kernel
  have hnone : (redundantRowRead.presolve 10 true).failure = none :=
    Option.isNone_iff_eq_none.mp (by decide +kernel)
  obtain ⟨p, hp, -, hwritten⟩ := presolve_writes_back hread 10 true hnone
  exact ⟨hread, hnone, by decide +kernel, by decide +kernel, p, hp, hwritten⟩

end Instance

end CoefficientTightening
