import CoefficientTightening.Proofs.RealChanges
import CoefficientTightening.Proofs.Recomputation
import CoefficientTightening.Proofs.UntouchedParts

/-! What is not finite, in exact arithmetic: no change is made by it, and none leaves it behind. The
rule for one coefficient does not see to this by itself, since the excess of an infinite coefficient
may pass its comparisons. The activity that the loop carries along does. A coefficient that is
infinite, or a bound in use that is not finite, leaves the row without a finite surplus, and such a
row has no changes. Where the surplus is finite, so are all coefficients and bounds in use, and the
bound and the activity stay finite from entry to entry because each cut moves them by one number. -/
namespace CoefficientTightening

open Extended (finite infinite nan)

/-! ### What a change is judged by -/

section Definitions

variable {α : Type} [Scalar α] {m n : Nat}

namespace Formulation

/-- Bound and activity of a row as they are carried to one of its entries. -/
def carriedTo (p : Formulation α m n) (i : Fin m) (side : Side) (k : Nat) : α × α :=
  ((p.entries i).take k).foldl (Tightening.carry p.columns i side)
    ((p.rows.get i).range.bound side, p.rowActivity i side)

/-- The formulation with the changes of a row carried out that come before one of its entries. -/
def standingAt (p : Formulation α m n) (i : Fin m) (side : Side) (k : Nat) : Formulation α m n :=
  (Tightening.visit p.columns i side ((p.rows.get i).range.bound side) (p.rowActivity i side)
    ((p.entries i).take k)).foldl commit p

end Formulation

namespace Tightening

/-- The bound in use of the column of the change. -/
def columnBound (t : Tightening α m n) (p : Formulation α m n) : α :=
  (p.columns.get t.column).range.bound (t.side.facing t.old)

/-- The activity of the other entries: what is carried, without the entry's own term. -/
def others (t : Tightening α m n) (p : Formulation α m n) : α :=
  (p.carriedTo t.row t.side t.position).2 - t.old * t.columnBound p

/-- Everything that the change was judged by, and everything that it leaves, is finite. -/
structure IsFinite (t : Tightening α m n) (p : Formulation α m n) : Prop where
  old : Scalar.isFinite t.old = true
  oldBound : Scalar.isFinite t.oldBound = true
  columnBound : Scalar.isFinite (t.columnBound p) = true
  others : Scalar.isFinite (t.others p) = true
  new : Scalar.isFinite t.new = true
  newBound : Scalar.isFinite t.newBound = true

/-- A change of a row is the change of one of its entries, with what was carried there. -/
theorem exists_split_of_mem_visit {columns : Vector (Column α) n} {row : Fin m} {side : Side}
    {bound total : α} {order : List (Sparse.Cell α n × Nat)} {t : Tightening α m n}
    (h : t ∈ visit columns row side bound total order) :
    ∃ before e after, order = before ++ e :: after ∧
      propose? columns row side (before.foldl (carry columns row side) (bound, total)).1
        (before.foldl (carry columns row side) (bound, total)).2 e = some t := by
  induction order generalizing bound total with
  | nil => cases h
  | cons e rest ih =>
    have hlater : ∀ {b T}, carry columns row side (bound, total) e = (b, T) →
        t ∈ visit columns row side b T rest → ∃ before e' after, e :: rest = before ++ e' :: after ∧
          propose? columns row side (before.foldl (carry columns row side) (bound, total)).1
            (before.foldl (carry columns row side) (bound, total)).2 e' = some t := by
      intro b T hcarry hmem
      obtain ⟨before, e', after, hrest, ht⟩ := ih hmem
      refine ⟨e :: before, e', after, by rw [hrest, List.cons_append], ?_⟩
      rwa [List.foldl_cons, hcarry]
    rw [visit] at h
    cases hu : propose? columns row side bound total e with
    | none =>
      rw [hu] at h
      exact hlater (by rw [carry, hu]) h
    | some u =>
      rw [hu] at h
      rcases List.mem_cons.mp h with rfl | hmem
      · exact ⟨[], e, rest, rfl, hu⟩
      · exact hlater (by rw [carry, hu]) hmem

end Tightening

end Definitions

variable {m n : Nat}

/-! ### What is carried -/

namespace Tightening

variable {columns : Vector (Column Extended) n} {i : Fin m} {side : Side} {s b T : ℚ}

/-- Past an entry with finite parts, bound and activity stay finite, and the surplus as it was. -/
theorem exists_carry_eq (h0 : 0 ≤ s) (hs : surplus side (finite b) (finite T) = finite s)
    {e : Sparse.Cell Extended n × Nat} (hreg : IsRegular columns side e.1) :
    ∃ b' T', carry columns i side (finite b, finite T) e = (finite b', finite T') ∧
      surplus side (finite b') (finite T') = finite s := by
  rw [carry, propose?_of_nonneg h0 hs hreg]
  by_cases hsame : cutCoef columns s e.1 = e.1.value.toRat
  · rw [if_pos hsame]
    exact ⟨b, T, rfl, hs⟩
  · rw [if_neg hsame]
    refine ⟨_, _, Prod.ext rfl (total_sub_cut h0 hreg hsame), surplus_step hs _⟩

theorem exists_foldl_carry_eq (h0 : 0 ≤ s) (hs : surplus side (finite b) (finite T) = finite s)
    {order : List (Sparse.Cell Extended n × Nat)} (hreg : ∀ e ∈ order, IsRegular columns side e.1) :
    ∃ b' T', order.foldl (carry columns i side) (finite b, finite T) =
        (finite b', finite T') ∧
      surplus side (finite b') (finite T') = finite s := by
  induction order generalizing b T with
  | nil => exact ⟨b, T, rfl, hs⟩
  | cons e rest ih =>
    obtain ⟨b', T', hcarry, hs'⟩ := exists_carry_eq h0 hs (hreg e List.mem_cons_self)
    rw [List.foldl_cons, hcarry]
    exact ih hs' fun e' he' => hreg e' (List.mem_cons_of_mem _ he')

end Tightening

/-! ### Changes -/

namespace Formulation

open Tightening

variable {p : Formulation Extended m n} {i : Fin m} {t : Tightening Extended m n}

theorem exists_propose?_of_mem_tightenings (ht : t ∈ p.tightenings) :
    ∃ e, (p.entries t.row)[t.position]? = some e ∧
      propose? p.columns t.row t.side (p.carriedTo t.row t.side t.position).1
        (p.carriedTo t.row t.side t.position).2 e = some t := by
  have hside := onlySide?_of_mem_tightenings ht
  rw [mem_tightenings, rowTightenings_eq, rowTighteningsIn_eq_visit hside,
    activity_order (.refl _)] at ht
  obtain ⟨before, e, after, hsplit, hpropose⟩ := exists_split_of_mem_visit ht
  have hat : (p.entries t.row)[before.length]? = some e := by
    rw [hsplit]
    simp
  have hposition : t.position = before.length := by
    rw [(isProposed_of_propose? hpropose).position_eq]
    have hzip := hat
    rw [entries, List.getElem?_zipIdx, Option.map_eq_some_iff] at hzip
    obtain ⟨c, -, rfl⟩ := hzip
    exact Nat.zero_add _
  have htake : (p.entries t.row).take t.position = before := by
    rw [hsplit, hposition, List.take_left]
  rw [carriedTo, htake, hposition]
  exact ⟨e, hat, hpropose⟩

/-- A row with a change has a finite surplus that is not negative. -/
theorem exists_isCutAt_of_mem_tightenings (hnum : p.IsNumericRow t.row) (ht : t ∈ p.tightenings) :
    ∃ s, p.IsCutAt t.row t.side s := by
  rcases p.isCutAt_cases t.row with ⟨side, s, hcut⟩ | hno
  · obtain rfl : t.side = side :=
      Option.some.inj ((onlySide?_of_mem_tightenings ht).symm.trans hcut.side_eq)
    exact ⟨s, hcut⟩
  · rw [mem_tightenings, rowTightenings_eq, rowTighteningsIn_eq_nil hnum hno (.refl _)] at ht
    cases ht

theorem isFinite_of_mem_tightenings (hnum : p.IsNumericRow t.row) (ht : t ∈ p.tightenings) :
    t.IsFinite p := by
  obtain ⟨s, hcut⟩ := exists_isCutAt_of_mem_tightenings hnum ht
  obtain ⟨b₀, T₀, hb, hT, hstart⟩ := finite_of_rowSurplus hcut.surplus_eq
  obtain ⟨e, he, hpropose⟩ := exists_propose?_of_mem_tightenings ht
  have hreg : ∀ e ∈ p.entries t.row, IsRegular p.columns t.side e.1 := fun e he =>
    hnum.isRegular hcut.surplus_eq e.1 (List.fst_mem_of_mem_zipIdx he)
  have hreg_e := hreg e (List.mem_of_getElem? he)
  obtain ⟨b, T, hcarried, hs⟩ := exists_foldl_carry_eq (i := t.row) hcut.nonneg hstart
    fun e he => hreg e (List.mem_of_mem_take (i := t.position) he)
  rw [← hb, ← hT, ← carriedTo] at hcarried
  rw [hcarried] at hpropose
  have hprop := isProposed_of_propose? hpropose
  rw [propose?_of_nonneg hcut.nonneg hs hreg_e] at hpropose
  split at hpropose
  · cases hpropose
  · next hmoved =>
    have hrecord := Option.some.inj hpropose
    have hold : t.old = finite e.1.value.toRat := (congrArg Tightening.old hrecord).symm
    have hcolumn : t.columnBound p = finite (extremeBound p.columns t.side e.1).toRat := by
      rw [hreg_e.bound (value_ne_zero_of_cut hcut.nonneg hmoved), columnBound, hprop.column_eq,
        hprop.old_eq, extremeBound]
    have hothers : t.others p =
        finite (T - e.1.value.toRat * (extremeBound p.columns t.side e.1).toRat) := by
      rw [others, hcarried, hold, hcolumn, Extended.finite_mul, Extended.finite_sub]
    exact
      { old := by rw [hold]; rfl
        oldBound := by rw [hprop.oldBound_eq]; rfl
        columnBound := by rw [hcolumn]; rfl
        others := by rw [hothers]; rfl
        new := by rw [← congrArg Tightening.new hrecord]; rfl
        newBound := by rw [← congrArg Tightening.newBound hrecord]; rfl }

-- The rule by itself takes an infinite coefficient and makes a NaN of it.
example : shrink .upper (infinite false) (finite 1) ⟨finite 0, finite 0⟩ (finite 0) =
    (nan, nan) := by decide +kernel

/-- The entry of a change is as it was until the change is made. -/
theorem getElem?_standingAt (i : Fin m) (side : Side) (k : Nat) :
    ((p.standingAt i side k).matrix.rows.get i)[k]? = (p.matrix.rows.get i)[k]? := by
  have hcells := congrArg RowState.cells (rowState_foldl_commit
    (visit p.columns i side ((p.rows.get i).range.bound side) (p.rowActivity i side)
      ((p.entries i).take k)) p i fun _ => row_of_mem_visit)
  change (p.standingAt i side k).matrix.rows.get i = _ at hcells
  rw [hcells, getElem?_foldl_change_of_notMem]
  · rfl
  · -- the changes so far are at positions before this one
    intro hmem
    have hsub := (place_visit_sublist p.columns i side ((p.rows.get i).range.bound side)
      (p.rowActivity i side) ((p.entries i).take k)).map Prod.snd
    rw [List.map_map, List.map_map] at hsub
    obtain ⟨e, he, hk⟩ := List.mem_map.mp (hsub.subset hmem)
    obtain ⟨k', hlt, rfl⟩ := List.mem_iff_getElem.mp he
    simp [entries] at hk hlt
    omega

/-- What is carried to a change, without the entry's own term, is the activity of the other entries
of the row as it then stands. -/
theorem others_eq (hnum : p.IsNumericRow t.row) (ht : t ∈ p.tightenings) :
    t.others p =
      (p.standingAt t.row t.side t.position).activityWithout t.row t.side t.position := by
  obtain ⟨s, hcut⟩ := exists_isCutAt_of_mem_tightenings hnum ht
  obtain ⟨e, he, hpropose⟩ := exists_propose?_of_mem_tightenings ht
  have hprop := isProposed_of_propose? hpropose
  have hfin : ∀ c ∈ (p.matrix.rows.get t.row).toList, Scalar.isFinite c.value = true := by
    intro c hc
    rw [← (hnum.isRegular hcut.surplus_eq c hc).value]
    rfl
  set q := p.standingAt t.row t.side t.position
  have hcarried : (p.carriedTo t.row t.side t.position).2 = q.rowActivity t.row t.side :=
    congrArg Prod.snd (recomputeAt_eq t.side (fun _ => .refl _)
      (isAhead_entries rfl hfin (List.take_sublist t.position _))).2
  have hstored : (q.matrix.rows.get t.row)[t.position]? = some e.1 := by
    rw [getElem?_standingAt]
    rw [entries, List.getElem?_zipIdx, Option.map_eq_some_iff] at he
    obtain ⟨c, hc, rfl⟩ := he
    rwa [Array.getElem?_toList] at hc
  have hfinite := isFinite_of_mem_tightenings hnum ht
  obtain ⟨a, hold⟩ := Extended.isFinite_iff.mp hfinite.old
  obtain ⟨u, hu⟩ := Extended.isFinite_iff.mp hfinite.columnBound
  have ha : a ≠ 0 := by
    rintro rfl
    have hnonzero := hprop.nonzero
    rw [hold] at hnonzero
    cases hnonzero
  have hvalue : e.1.value = finite a := hprop.old_eq.symm.trans hold
  have halike : (p.columns.get e.1.column).Alike (q.columns.get e.1.column) :=
    alike_foldl_commit _ p _
  have hbound : extremeBound q.columns t.side e.1 = finite u := by
    rw [← hu, columnBound, hprop.column_eq, hprop.old_eq, extremeBound, halike.range]
  rw [others, hcarried, rowActivity_eq_add hstored, extremeTerm_of_nonzero hvalue ha, hbound, hold,
    hu, Extended.finite_mul, Extended.finite_add_sub, sub_self, Extended.finite_zero_add]

/-! ### Rows -/

/-- The entry has an infinite coefficient, or a coefficient that is not zero and a bound in use that
is not finite. -/
def IsSpecialIn (p : Formulation Extended m n) (i : Fin m) (c : Sparse.Cell Extended n) : Prop :=
  Scalar.isInfinite c.value = true ∨
    (c.value == 0) = false ∧ ∃ side, (p.rows.get i).range.onlySide? = some side ∧
      Scalar.isFinite (extremeBound p.columns side c) = false

/-- A row with a finite surplus has no special entry. -/
theorem not_isSpecialIn_of_isCutAt {side : Side} {s : ℚ} {c : Sparse.Cell Extended n}
    (hcut : p.IsCutAt i side s) (hnum : p.IsNumericRow i)
    (hc : c ∈ (p.matrix.rows.get i).toList) : ¬ p.IsSpecialIn i c := by
  have hreg := hnum.isRegular hcut.surplus_eq c hc
  rintro (hinfinite | ⟨hnonzero, side', hside, hbound⟩)
  · rw [← hreg.value] at hinfinite
    cases hinfinite
  · obtain rfl : side' = side := Option.some.inj (hside.symm.trans hcut.side_eq)
    have hvalue : c.value.toRat ≠ 0 := by
      intro hzero
      rw [← hreg.value, hzero] at hnonzero
      cases hnonzero
    rw [← hreg.bound hvalue] at hbound
    cases hbound

theorem rowTightenings_eq_nil_of_isSpecialIn (hnum : p.IsNumericRow i)
    {c : Sparse.Cell Extended n} (hc : c ∈ (p.matrix.rows.get i).toList) (h : p.IsSpecialIn i c) :
    p.rowTightenings i = [] := by
  rw [rowTightenings_eq]
  exact rowTighteningsIn_eq_nil hnum
    (fun _ _ hcut => not_isSpecialIn_of_isCutAt hcut hnum hc h) (.refl _)

/-- A finite side stays finite, and no other side becomes so. -/
theorem isFiniteAt_tighten (hnum : p.IsNumericRow i) (side : Side) :
    (p.tighten.rows.get i).range.isFiniteAt side = (p.rows.get i).range.isFiniteAt side := by
  rcases p.isCutAt_cases i with ⟨side', s, hcut⟩ | hno
  · obtain ⟨b, -, hrange⟩ := hcut.range_tighten hnum
    obtain ⟨hfinite, -⟩ := Interval.onlySide?_eq_some_iff.mp hcut.side_eq
    rw [hrange]
    obtain rfl | rfl : side = side' ∨ side = side'.opposite := by
      cases side <;> cases side' <;> simp [Side.opposite]
    · rw [hfinite, Interval.isFiniteAt, Interval.bound_setBound]
      rfl
    · rw [Interval.isFiniteAt, Interval.bound_setBound_opposite, Interval.isFiniteAt]
  · rw [range_eq (rowState_tighten_of_not_isCutAt hnum hno)]

/-- Unless a coefficient is a NaN, a pass acts on finite numbers only and leaves finite numbers
only. A change is the rule applied to what is carried to its entry, and what is carried is true of
the row as it then stands. -/
theorem tighten_keeps_finite (p : Formulation Extended m n) (hlinked : p.matrix.IsLinked)
    (hnum : ∀ i, p.IsNumericRow i) :
    (∀ t ∈ p.tightenings, t.IsFinite p ∧
      t.oldBound = (p.carriedTo t.row t.side t.position).1 ∧
      shrink t.side t.old t.oldBound (p.columns.get t.column).range (t.others p) =
        (t.new, t.newBound) ∧
      t.others p =
        (p.standingAt t.row t.side t.position).activityWithout t.row t.side t.position) ∧
    (∀ i, ∀ c ∈ (p.matrix.rows.get i).toList, p.IsSpecialIn i c →
      p.rowTightenings i = [] ∧ p.KeepsRow p.tighteningPass.data i) ∧
    ∀ i, let before := (p.rows.get i).range
      let after := (p.tighteningPass.data.rows.get i).range
      (∀ side, after.isFiniteAt side = before.isFiniteAt side) ∧
        after.isRanged = before.isRanged ∧ after.isFree = before.isFree := by
  refine ⟨fun t ht => ?_, fun i c hc hspecial => ?_, fun i => ?_⟩
  · obtain ⟨e, -, hpropose⟩ := exists_propose?_of_mem_tightenings ht
    have hprop := isProposed_of_propose? hpropose
    refine ⟨isFinite_of_mem_tightenings (hnum t.row) ht, hprop.oldBound_eq, ?_,
      others_eq (hnum t.row) ht⟩
    have hshrunk := hprop.shrunk
    rw [← hprop.oldBound_eq, ← hprop.old_eq, extremeBound, ← hprop.column_eq, ← hprop.old_eq]
      at hshrunk
    exact hshrunk
  · have hnil := rowTightenings_eq_nil_of_isSpecialIn (hnum i) hc hspecial
    exact ⟨hnil, keepsRow_tighten hlinked hnil⟩
  · have hsides : ∀ side, (p.tighteningPass.data.rows.get i).range.isFiniteAt side =
        (p.rows.get i).range.isFiniteAt side := isFiniteAt_tighten (hnum i)
    refine ⟨hsides, ?_, ?_⟩
    · rw [Interval.isRanged, Interval.isRanged, hsides, hsides]
    · rw [Interval.isFree, Interval.isFree, hsides, hsides]

/-- The mixed row with an infinite coefficient of `x₂`. -/
def infiniteRow : Formulation Extended 1 3 :=
  { mixedRow 10 2 with
    matrix := (mixedRow 10 2).matrix.write (Fin.last 0) 2 (infinite false) }

/-- The two cuts of the mixed row are made on finite numbers; with an infinite coefficient in the
row neither of them is made. -/
theorem mixedRow_finite :
    ((mixedRow 10 2).tightenings.length = 2 ∧
      ∀ t ∈ (mixedRow 10 2).tightenings, t.IsFinite (mixedRow 10 2)) ∧
    infiniteRow.rowTightenings (Fin.last 0) = [] := by
  obtain ⟨hchanges, -, -⟩ := tighten_keeps_finite (mixedRow 10 2) (isLinked_mixedRow 10 2)
    (by unfold IsNumericRow; decide +kernel)
  obtain ⟨-, hspecial, -⟩ := tighten_keeps_finite infiniteRow
    ((Sparse.Matrix.sameShape_write _ (Fin.last 0) 2 (infinite false)).isLinked
      (isLinked_mixedRow 10 2))
    (by unfold IsNumericRow; decide +kernel)
  refine ⟨⟨by decide +kernel, fun t ht => (hchanges t ht).1⟩, ?_⟩
  exact (hspecial (Fin.last 0) ⟨Fin.last 2, 0, infinite false⟩ (by decide +kernel) (.inl rfl)).1

end Formulation

end CoefficientTightening
