import CoefficientTightening.Proofs.FlatArrays
import CoefficientTightening.Proofs.ReachableStates

/-! What the check reports. Whatever was written to the parts of a formulation, the check passes
exactly where they fit together, and otherwise names the first violation: that the storages differ,
else the first row with a wrong count, else the first such column, else the first active column with
crossed bounds. Rows and columns without entries, stored zeros and NaNs are counted like any others.
Counts are compared as words. A row has at most one cell in each column, so with fewer than `2 ^ 63`
columns its word is as good as the number, and likewise for columns. The check only reads. -/
namespace CoefficientTightening

open Extended (finite)

variable {α : Type} {m n : Nat}

/-- The first index at which there is something to find. -/
theorem findSome?_finRange_eq_some_iff {β : Type} {f : Fin n → Option β} {b : β} :
    (List.finRange n).findSome? f = some b ↔ ∃ k, f k = some b ∧ ∀ k' < k, f k' = none := by
  have hincreasing := (List.sortedLT_finRange n).pairwise
  rw [List.findSome?_eq_some_iff]
  constructor
  · rintro ⟨before, k, after, hsplit, hk, hbefore⟩
    refine ⟨k, hk, fun k' hlt => hbefore k' ?_⟩
    have hmem : k' ∈ before ++ k :: after := hsplit ▸ List.mem_finRange k'
    rw [hsplit, List.pairwise_append, List.pairwise_cons] at hincreasing
    rcases List.mem_append.mp hmem with hmem | hmem
    · exact hmem
    · rcases List.mem_cons.mp hmem with rfl | hmem
      · exact absurd hlt (lt_irrefl k')
      · exact absurd hlt (hincreasing.2.1.1 k' hmem).asymm
  · rintro ⟨k, hk, hearlier⟩
    obtain ⟨before, after, hsplit⟩ := List.append_of_mem (List.mem_finRange k)
    refine ⟨before, k, after, hsplit, hk, fun k' hmem => hearlier k' ?_⟩
    rw [hsplit, List.pairwise_append] at hincreasing
    exact hincreasing.2.2 k' hmem k List.mem_cons_self

/-! ### Sizes -/

namespace Sparse.Matrix

variable [Scalar α] {M : Matrix α m n}

theorem IsLinked.rowNonzeros_le (hM : M.IsLinked) (i : Fin m) : M.rowNonzeros i ≤ n :=
  calc M.rowNonzeros i
      ≤ (M.rows.get i).toList.length := List.countP_le_length
    _ = ((M.rows.get i).toList.map (·.column)).length := (List.length_map _).symm
    _ ≤ Fintype.card (Fin n) := (hM.columns_nodup i).length_le_card
    _ = n := Fintype.card_fin n

theorem IsLinked.entryNonzeros_le (hM : M.IsLinked) (j : Fin n) : M.entryNonzeros j ≤ m :=
  calc M.entryNonzeros j
      ≤ (M.columns.get j).toList.length := List.countP_le_length
    _ = (M.owners j).length := (List.length_map _).symm
    _ ≤ Fintype.card (Fin m) := (hM.owners_nodup j).length_le_card
    _ = m := Fintype.card_fin m

end Sparse.Matrix

/-- Equality of words is equality of the numbers, if the counted number is below the limit. -/
theorem eq_ofNat_iff_toInt_eq {stored : Int64} {found : Nat} (h : found < 2 ^ 63) :
    stored = .ofNat found ↔ stored.toInt = found := by
  rw [← Int64.toInt_inj, Int64.toInt_ofNat_of_lt h]

/-! ### The first violation -/

namespace Formulation

variable [Scalar α]

def CountsRow (p : Formulation α m n) (i : Fin m) : Prop :=
  (p.rows.get i).nonzeros = .ofNat (p.matrix.rowNonzeros i)

def CountsColumn (p : Formulation α m n) (j : Fin n) : Prop :=
  (p.columns.get j).nonzeros = .ofNat (p.matrix.entryNonzeros j)

def IsCrossed (p : Formulation α m n) (j : Fin n) : Prop :=
  (p.columns.get j).active = true ∧ (p.columns.get j).range.upper < (p.columns.get j).range.lower

variable [RoundedScalar α]

/-- What is reported of a formulation whose parts do not fit together. -/
inductive FirstViolation (p : Formulation α m n) : Inconsistency α → Prop where
  | storagesDiffer (differ : ¬ p.matrix.Mirrors) : FirstViolation p .storagesDiffer
  | rowCount (i : Fin m) (mirrors : p.matrix.Mirrors) (earlier : ∀ i' < i, p.CountsRow i')
      (wrong : ¬ p.CountsRow i) :
      FirstViolation p (.rowCount i (p.rows.get i).nonzeros.toInt (p.matrix.rowNonzeros i))
  | columnCount (j : Fin n) (mirrors : p.matrix.Mirrors) (rows : ∀ i, p.CountsRow i)
      (earlier : ∀ j' < j, p.CountsColumn j') (wrong : ¬ p.CountsColumn j) :
      FirstViolation p
        (.columnCount j (p.columns.get j).nonzeros.toInt (p.matrix.entryNonzeros j))
  | crossed (j : Fin n) (mirrors : p.matrix.Mirrors) (rows : ∀ i, p.CountsRow i)
      (columns : ∀ j, p.CountsColumn j) (earlier : ∀ j' < j, ¬ p.IsCrossed j')
      (wrong : p.IsCrossed j) : FirstViolation p (.crossed j (p.columns.get j).range)

variable {p : Formulation α m n} {e : Inconsistency α}

omit [RoundedScalar α] in
theorem wrongRow?_eq_some_iff : p.wrongRow? = some e ↔
    ∃ i : Fin m, (¬ p.CountsRow i ∧ ∀ i' < i, p.CountsRow i') ∧
      e = .rowCount i (p.rows.get i).nonzeros.toInt (p.matrix.rowNonzeros i) := by
  rw [wrongRow?, findSome?_finRange_eq_some_iff]
  refine exists_congr fun i => ?_
  simp [CountsRow, eq_comm (a := e), and_right_comm]

theorem wrongColumn?_eq_some_iff (hlinked : p.matrix.IsLinked) (hmirrors : p.matrix.Mirrors) :
    p.wrongColumn? = some e ↔
      ∃ j : Fin n, (¬ p.CountsColumn j ∧ ∀ j' < j, p.CountsColumn j') ∧
        e = .columnCount j (p.columns.get j).nonzeros.toInt (p.matrix.entryNonzeros j) := by
  rw [wrongColumn?, findSome?_finRange_eq_some_iff]
  refine exists_congr fun j => ?_
  simp [CountsColumn, hlinked.get_columnNonzeros hmirrors, eq_comm (a := e), and_right_comm]

omit [RoundedScalar α] in
theorem crossedColumn?_eq_some_iff : p.crossedColumn? = some e ↔
    ∃ j : Fin n, (p.IsCrossed j ∧ ∀ j' < j, ¬ p.IsCrossed j') ∧
      e = .crossed j (p.columns.get j).range := by
  rw [crossedColumn?, findSome?_finRange_eq_some_iff]
  refine exists_congr fun j => ?_
  simp [IsCrossed, eq_comm (a := e), and_right_comm]

theorem inconsistency?_eq_some_iff (hlinked : p.matrix.IsLinked) :
    p.inconsistency? = some e ↔ p.FirstViolation e := by
  unfold inconsistency?
  split
  · next hagrees =>
    have hmirrors := Sparse.Matrix.agrees_iff.mp hagrees
    rw [Option.orElse_eq_some, Option.orElse_eq_some, wrongRow?_eq_some_iff,
      wrongRow?_eq_none_iff, wrongColumn?_eq_some_iff hlinked hmirrors,
      wrongColumn?_eq_none_iff hlinked hmirrors, crossedColumn?_eq_some_iff]
    constructor
    · rintro (⟨i, ⟨hwrong, hearlier⟩, rfl⟩ |
        ⟨hrows, ⟨j, ⟨hwrong, hearlier⟩, rfl⟩ | ⟨hcolumns, j, ⟨hwrong, hearlier⟩, rfl⟩⟩)
      · exact .rowCount i hmirrors hearlier hwrong
      · exact .columnCount j hmirrors hrows hearlier hwrong
      · exact .crossed j hmirrors hrows hcolumns hearlier hwrong
    · intro hfirst
      cases hfirst with
      | storagesDiffer differ => exact absurd hmirrors differ
      | rowCount i _ earlier wrong => exact .inl ⟨i, ⟨wrong, earlier⟩, rfl⟩
      | columnCount j _ rows earlier wrong =>
        exact .inr ⟨rows, .inl ⟨j, ⟨wrong, earlier⟩, rfl⟩⟩
      | crossed j _ rows columns earlier wrong =>
        exact .inr ⟨rows, .inr ⟨columns, j, ⟨wrong, earlier⟩, rfl⟩⟩
  · next hagrees =>
    have hdiffer : ¬ p.matrix.Mirrors := mt Sparse.Matrix.agrees_iff.mpr hagrees
    constructor
    · rintro ⟨⟩
      exact .storagesDiffer hdiffer
    · intro hfirst
      cases hfirst with
      | storagesDiffer => rfl
      | rowCount _ mirrors | columnCount _ mirrors | crossed _ mirrors =>
        exact absurd mirrors hdiffer

/-! ### The check as it runs -/

omit [RoundedScalar α] in
/-- A run without rounds is the check alone, and leaves everything as it is. -/
theorem run_zero {schedule : Schedule Unit α} (hvalidates : schedule.validates = true)
    (p : Formulation α m n) :
    schedule.run tighteningOnly (some 0) p = ⟨schedule, p, [], p.inconsistency?⟩ := by
  unfold Schedule.run
  rw [checkIf_tighteningOnly hvalidates]
  cases p.inconsistency? with
  | some e => rfl
  | none => simp [Presolving.repeatRounds]

/-- In every formulation that can come up, the check finds the first violation if there is one and
nothing otherwise, entry by entry or on arrays whose order was found when the matrix was built. -/
theorem reports_first_violation (h : p.IsReachable) :
    (p.inconsistency? = none ↔ p.IsConsistent) ∧
    (∀ e, p.inconsistency? = some e ↔ p.FirstViolation e) ∧
    (∀ marked, p.matrix.IsTransposition marked →
      p.flatInconsistency? marked = p.inconsistency? ∧
      ∀ c q, p.change? c = .ok q → q.matrix.IsTransposition marked) ∧
    (n < 2 ^ 63 → ∀ i, p.CountsRow i ↔
      (p.rows.get i).nonzeros.toInt = p.matrix.rowNonzeros i) ∧
    (m < 2 ^ 63 → ∀ j, p.CountsColumn j ↔
      (p.columns.get j).nonzeros.toInt = p.matrix.entryNonzeros j) ∧
    ∀ schedule : Schedule Unit α, schedule.validates = true →
      schedule.run tighteningOnly (some 0) p = ⟨schedule, p, [], p.inconsistency?⟩ := by
  have hlinked := h.isLinked
  refine ⟨inconsistency?_eq_none_iff hlinked, fun e => inconsistency?_eq_some_iff hlinked,
    fun marked hmarked => ⟨flatInconsistency?_eq hlinked hmarked, fun c q hdone => ?_⟩,
    fun hsize i => ?_, fun hsize j => ?_, fun schedule hvalidates => run_zero hvalidates p⟩
  · exact (sameShape_of_change? hdone).isTransposition hmarked
  · exact eq_ofNat_iff_toInt_eq ((hlinked.rowNonzeros_le i).trans_lt hsize)
  · exact eq_ofNat_iff_toInt_eq ((hlinked.entryNonzeros_le j).trans_lt hsize)

/-- The mixed row after someone wrote 5 for the lower bound of `x₂` and 9 for the count of the
row. -/
def miscountedRow : Formulation Extended 1 3 :=
  let p := (mixedRow 10 2).setColumn (Fin.last 2)
    fun c => { c with range := c.range.setBound (finite 5) .lower }
  p.setRow (Fin.last 0) fun r => { r with nonzeros := 9 }

theorem isReachable_miscountedRow : miscountedRow.IsReachable :=
  .changed (.rowNonzeros 0 9)
    (.changed (.columnBound 2 .lower (finite 5)) (isReachable_mixedRow 10 2) rfl) rfl

/-- Both are wrong, and the count is what is reported. -/
theorem miscountedRow_reported :
    miscountedRow.IsCrossed (Fin.last 2) ∧
      ((Schedule.new 3 true [()]).run tighteningOnly (some 0) miscountedRow).failure =
        some (.rowCount 0 9 3) := by
  obtain ⟨-, hfirst, -, -, -, hrun⟩ := reports_first_violation isReachable_miscountedRow
  refine ⟨⟨by decide +kernel, by decide +kernel⟩, ?_⟩
  rw [hrun _ rfl, hfirst]
  refine .rowCount (Fin.last 0) (Sparse.Matrix.agrees_iff.mp (by decide +kernel)) ?_ ?_
  · intro i' hlt
    exact absurd hlt (by omega)
  · unfold CountsRow
    decide +kernel

end Formulation

end CoefficientTightening
