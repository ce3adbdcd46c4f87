import CoefficientTightening.Proofs.PresolveFailure

/-! Stored zeros change nothing. Two formulations whose rows have the same nonzeros, in the same
order, and that are otherwise equal, may hold their nonzeros at other positions; but a zero takes
part in no activity, is never changed, and is counted nowhere. So a pass finds the same changes in
both, up to positions, and leaves formulations that again have the same nonzeros. Rounds of
tightening cannot tell them apart, and presolving two instances that differ in stored zeros gives
the same schedule, the same events and the same nonzeros. -/
namespace CoefficientTightening

open Extended (finite nan)
open RoundedScalar (denote denote_zero beq_zero_iff beq_self_iff)
open Sparse (dropZeros)

variable {α : Type} [Scalar α] {m n : Nat}

/-! ### Rows without their zeros -/

namespace Sparse

/-- The row with another value at its entries of one column. -/
def overwrite (j : Fin n) (value : α) (row : List (Fin n × α)) : List (Fin n × α) :=
  row.map fun t => if t.1 = j then (j, value) else t

theorem dropZeros_cons_of_zero {t : Fin n × α} (h : (t.2 == 0) = true) (row : List (Fin n × α)) :
    dropZeros (t :: row) = dropZeros row :=
  List.filter_cons_of_neg (by simp [h])

theorem dropZeros_cons_of_nonzero {t : Fin n × α} (h : (t.2 == 0) = false)
    (row : List (Fin n × α)) : dropZeros (t :: row) = t :: dropZeros row :=
  List.filter_cons_of_pos (by simp [h])

/-- Where a nonzero is written over, the zeros of the row do not matter. -/
theorem dropZeros_overwrite {row : List (Fin n × α)} {j : Fin n} (value : α)
    (h : ∀ t ∈ row, t.1 = j → (t.2 == 0) = false) :
    dropZeros (overwrite j value row) = dropZeros (overwrite j value (dropZeros row)) := by
  induction row with
  | nil => rfl
  | cons t rest ih =>
    obtain ⟨ht, hrest⟩ := List.forall_mem_cons.mp h
    unfold overwrite at ih ⊢
    cases hzero : t.2 == 0 with
    | true =>
      have hne : t.1 ≠ j := fun hj => Bool.noConfusion (hzero.symm.trans (ht hj))
      rw [dropZeros_cons_of_zero hzero, List.map_cons, if_neg hne, dropZeros_cons_of_zero hzero,
        ih hrest]
    | false =>
      rw [dropZeros_cons_of_nonzero hzero, List.map_cons, List.map_cons]
      generalize (if t.1 = j then (j, value) else t) = u
      cases hu : u.2 == 0 with
      | true => rw [dropZeros_cons_of_zero hu, dropZeros_cons_of_zero hu, ih hrest]
      | false => rw [dropZeros_cons_of_nonzero hu, dropZeros_cons_of_nonzero hu, ih hrest]

namespace Matrix

variable {M N : Matrix α m n} {i : Fin m} {k : Nat} {c : Cell α n}

theorem rowNonzeros_eq_length (M : Matrix α m n) (i : Fin m) :
    M.rowNonzeros i = (dropZeros (M.toRows.get i)).length := by
  rw [rowNonzeros, dropZeros, ← List.countP_eq_length_filter, get_toRows, List.countP_map]
  rfl

theorem countP_isNonzeroIn (M : Matrix α m n) (i : Fin m) (j : Fin n) :
    (M.rows.get i).toList.countP (isNonzeroIn j) =
      (dropZeros (M.toRows.get i)).countP fun t => decide (t.1 = j) := by
  rw [dropZeros, List.countP_filter, get_toRows, List.countP_map]
  rfl

theorem columnNonzeros_congr (h : ∀ i, dropZeros (N.toRows.get i) = dropZeros (M.toRows.get i)) :
    N.columnNonzeros = M.columnNonzeros := by
  apply vector_ext
  intro j
  rw [get_columnNonzeros, get_columnNonzeros]
  simp only [countP_isNonzeroIn, h]

/-- What a write leaves of a row without its zeros, if it replaces a nonzero. -/
theorem IsLinked.dropZeros_write (hM : M.IsLinked) (hc : (M.rows.get i)[k]? = some c)
    (hold : (c.value == 0) = false) (value : α) (i' : Fin m) :
    dropZeros ((M.write i k value).toRows.get i') =
      if i = i' then dropZeros (overwrite c.column value (dropZeros (M.toRows.get i')))
      else dropZeros (M.toRows.get i') := by
  rw [← hM.put_eq_write hc, get_toRows, put, get_updateAt]
  by_cases hi : i = i'
  · subst hi
    have hrow : ∀ t ∈ M.toRows.get i, t.1 = c.column → (t.2 == 0) = false := by
      intro t ht hcolumn
      rw [get_toRows] at ht
      obtain ⟨c', hc', rfl⟩ := List.mem_map.mp ht
      rwa [List.inj_on_of_nodup_map (hM.columns_nodup i) hc' (mem_toList_of_getElem? hc) hcolumn]
    rw [if_pos rfl, if_pos rfl, ← dropZeros_overwrite value hrow, get_toRows, overwrite,
      Array.toList_map, List.map_map, List.map_map]
    congr 2
    funext c'
    by_cases hcolumn : c'.column = c.column
    · simp [hcolumn]
    · simp [hcolumn, Fin.val_inj]
  · rw [if_neg fun heq => hi (Fin.ext heq.symm), if_neg hi, get_toRows]

end Matrix

section Rounded

variable [RoundedScalar α]

theorem Rows.hasNan_iff {rows : Rows α m n} :
    rows.HasNan ↔ ∃ i, ∃ t ∈ dropZeros (rows.get i), (t.2 == t.2) = false := by
  unfold HasNan dropZeros
  refine exists_congr fun i => exists_congr fun t => ?_
  rw [List.mem_filter, and_assoc]
  refine and_congr_right fun _ => (and_iff_right_of_imp fun hnan => ?_).symm
  cases hzero : t.2 == 0 with
  | false => rfl
  | true =>
    have hself : (t.2 == t.2) = true := by
      rw [beq_self_iff, beq_zero_iff.mp hzero]
      exact Extended.noConfusion
    rw [hself] at hnan
    cases hnan

theorem not_isSigned_of_zero {coef : α} (h : (coef == 0) = true) : isSigned coef = false := by
  have hneither : ¬ (0 < coef ∨ coef < 0) := by
    rw [RoundedScalar.pos_iff_denote, RoundedScalar.neg_iff_denote, beq_zero_iff.mp h,
      Extended.finite_lt, or_self]
    exact lt_irrefl 0
  rwa [isSigned, ← Bool.decide_or, decide_eq_false_iff_not]

/-- Zeros take no part in an activity, whatever the bounds of their columns. -/
theorem activity_dropZeros (side : Side) (range : Fin n → Interval α) (row : List (Fin n × α)) :
    activity side ((dropZeros row).map fun t => (t.2, range t.1)) =
      activity side (row.map fun t => (t.2, range t.1)) := by
  unfold activity
  generalize (0 : α) = sum
  induction row generalizing sum with
  | nil => rfl
  | cons t rest ih =>
    cases hzero : t.2 == 0 with
    | true =>
      have hskip : addExtreme side sum t.2 (range t.1) = sum := by
        rw [addExtreme, not_isSigned_of_zero hzero]
        rfl
      rw [dropZeros_cons_of_zero hzero, ih, List.map_cons, List.foldl_cons, hskip]
    | false =>
      rw [dropZeros_cons_of_nonzero hzero, List.map_cons, List.map_cons, List.foldl_cons,
        List.foldl_cons, ih]

end Rounded

end Sparse

/-! ### The changes of a row, up to positions -/

namespace Tightening

/-- The change without its position. -/
def unplaced (t : Tightening α m n) : Tightening α m n := { t with position := 0 }

/-- Entries to be visited, without their positions. -/
def unplacedEntries (row : List (Fin n × α)) : List (Sparse.Cell α n × Nat) :=
  row.map fun t => (⟨t.1, 0, t.2⟩, 0)

/-- The changes are those of the nonzeros. -/
theorem map_unplaced_visit (columns : Vector (Column α) n) (row : Fin m) (side : Side)
    (bound total : α) (order : List (Sparse.Cell α n × Nat)) :
    (visit columns row side bound total order).map unplaced =
      visit columns row side bound total
        (unplacedEntries (dropZeros (order.map fun e => (e.1.column, e.1.value)))) := by
  induction order generalizing bound total with
  | nil => rfl
  | cons e rest ih =>
    rw [List.map_cons]
    cases hzero : e.1.value == 0 with
    | true =>
      rw [Sparse.dropZeros_cons_of_zero hzero, visit, propose?_of_zero hzero]
      exact ih bound total
    | false =>
      have hpropose : propose? columns row side bound total
          ((⟨e.1.column, 0, e.1.value⟩, 0) : Sparse.Cell α n × Nat) =
          (propose? columns row side bound total e).map unplaced := by
        unfold propose? isCandidate extremeBound
        dsimp only
        split_ifs <;> rfl
      rw [Sparse.dropZeros_cons_of_nonzero hzero, unplacedEntries, List.map_cons, visit, visit,
        hpropose]
      cases propose? columns row side bound total e with
      | none => exact ih bound total
      | some t => exact congrArg (t.unplaced :: ·) (ih _ _)

theorem map_unplaced_reductions (ts : List (Tightening α m n)) :
    (ts.map unplaced).flatMap reductions = ts.flatMap reductions := by
  rw [List.flatMap_map]
  rfl

omit [Scalar α] in
theorem map_unplaced_event (ts : List (Tightening α m n)) :
    (ts.map unplaced).map event = ts.map event := by
  rw [List.map_map]
  rfl

end Tightening

/-! ### Formulations with the same nonzeros -/

namespace Formulation

open Tightening

/-- The formulations differ in stored zeros, and in the positions of the nonzeros, at most. -/
structure HasSameNonzeros (p q : Formulation α m n) : Prop where
  rows : q.rows = p.rows
  columns : q.columns = p.columns
  nonzeros : ∀ i, dropZeros (q.matrix.toRows.get i) = dropZeros (p.matrix.toRows.get i)

variable {p q : Formulation α m n} {t u : Tightening α m n} {ts us : List (Tightening α m n)}

/-- The same change, each at its own position. -/
theorem HasSameNonzeros.commit (h : p.HasSameNonzeros q) (hp : p.matrix.IsLinked)
    (hq : q.matrix.IsLinked) (ht : t.Fits p) (hu : u.Fits q) (hold : (t.old == 0) = false)
    (hsame : u.unplaced = t.unplaced) : (p.commit t).HasSameNonzeros (q.commit u) := by
  obtain ⟨row, side, position, column, old, new, oldBound, newBound⟩ := t
  obtain ⟨_, _, position', _, _, _, _, _⟩ := u
  simp only [unplaced, Tightening.mk.injEq, true_and] at hsame
  obtain ⟨rfl, rfl, rfl, rfl, rfl, rfl, rfl⟩ := hsame
  refine ⟨?_, ?_, fun i => ?_⟩
  · unfold Formulation.commit setRow setColumn
    dsimp only
    rw [h.rows]
    split <;> rfl
  · unfold Formulation.commit setRow setColumn
    dsimp only
    rw [h.columns]
    split <;> rfl
  · obtain ⟨slot, hc⟩ := ht.cell
    obtain ⟨slot', hc'⟩ := hu.cell
    rw [matrix_commit, matrix_commit, hp.dropZeros_write hc hold, hq.dropZeros_write hc' hold,
      h.nonzeros]

theorem HasSameNonzeros.foldl_commit (h : p.HasSameNonzeros q) (hp : p.matrix.IsLinked)
    (hq : q.matrix.IsLinked) (hts : p.Trace ts) (hus : q.Trace us)
    (hold : ∀ t ∈ ts, (t.old == 0) = false) (hsame : us.map unplaced = ts.map unplaced) :
    (ts.foldl Formulation.commit p).HasSameNonzeros (us.foldl Formulation.commit q) := by
  induction ts generalizing us p q with
  | nil =>
    obtain rfl := List.map_eq_nil_iff.mp hsame
    exact h
  | cons t rest ih =>
    obtain ⟨u, later, rfl, hu, hlater⟩ := List.map_eq_cons_iff.mp hsame
    rw [List.foldl_cons, List.foldl_cons]
    exact ih (h.commit hp hq hts.1 hus.1 (hold t List.mem_cons_self) hu)
      ((p.sameShape_commit t).isLinked hp) ((q.sameShape_commit u).isLinked hq) hts.2 hus.2
      (fun t' ht' => hold t' (List.mem_cons_of_mem _ ht')) hlater

variable [RoundedScalar α]

theorem HasSameNonzeros.map_unplaced_rowTightenings (h : p.HasSameNonzeros q) (i : Fin m) :
    (q.rowTightenings i).map unplaced = (p.rowTightenings i).map unplaced := by
  have hvisit : ∀ (r : Formulation α m n) (side : Side),
      (r.rows.get i).range.onlySide? = some side →
      (r.rowTightenings i).map unplaced =
        visit r.columns i side ((r.rows.get i).range.bound side)
          (activity side ((dropZeros (r.matrix.toRows.get i)).map fun t =>
            (t.2, (r.columns.get t.1).range)))
          (unplacedEntries (dropZeros (r.matrix.toRows.get i))) := by
    intro r side hside
    have hentries : (r.entries i).map (fun e => (e.1.column, e.1.value)) =
        r.matrix.toRows.get i := by
      rw [Sparse.Matrix.get_toRows]
      exact r.map_entries i fun c => (c.column, c.value)
    have hterms : (r.entries i).map (fun e => (e.1.value, (r.columns.get e.1.column).range)) =
        (r.matrix.toRows.get i).map fun t => (t.2, (r.columns.get t.1).range) := by
      rw [← hentries, List.map_map]
      rfl
    rw [rowTightenings_eq, rowTighteningsIn_eq_visit hside, map_unplaced_visit, hentries, hterms,
      Sparse.activity_dropZeros side fun j => (r.columns.get j).range]
  cases hside : (p.rows.get i).range.onlySide? with
  | none => simp only [rowTightenings, h.rows, hside]
  | some side =>
    rw [hvisit p side hside, hvisit q side (h.rows ▸ hside), h.rows, h.columns, h.nonzeros]

/-- A pass makes the same changes, up to their positions. -/
theorem HasSameNonzeros.map_unplaced_tightenings (h : p.HasSameNonzeros q) :
    q.tightenings.map unplaced = p.tightenings.map unplaced := by
  rw [tightenings_eq, tightenings_eq, List.map_flatMap, List.map_flatMap]
  simp only [h.map_unplaced_rowTightenings]

theorem HasSameNonzeros.tighten (h : p.HasSameNonzeros q) (hp : p.matrix.IsLinked)
    (hq : q.matrix.IsLinked) : p.tighten.HasSameNonzeros q.tighten := by
  rw [← foldl_commit_tightenings, ← foldl_commit_tightenings]
  exact h.foldl_commit hp hq p.trace_tightenings q.trace_tightenings
    (fun _ => old_ne_zero_of_mem_tightenings) h.map_unplaced_tightenings

theorem HasSameNonzeros.reductions_tighteningPass (h : p.HasSameNonzeros q) :
    q.tighteningPass.reductions = p.tighteningPass.reductions := by
  rw [Formulation.reductions_tighteningPass, Formulation.reductions_tighteningPass,
    ← map_unplaced_reductions, h.map_unplaced_tightenings, map_unplaced_reductions]

theorem HasSameNonzeros.events_tighteningPass (h : p.HasSameNonzeros q) :
    q.tighteningPass.events = p.tighteningPass.events := by
  have hevents : ∀ r : Formulation α m n, r.tighteningPass.events =
      (r.tightenings.map unplaced).map event ++
        if (r.tightenings.map unplaced).isEmpty then []
        else [.passFinished tighteningName (r.tightenings.map unplaced).length] := by
    intro r
    rw [map_unplaced_event, List.isEmpty_map, List.length_map]
    rfl
  rw [hevents, hevents, h.map_unplaced_tightenings]

/-- The check finds the same. -/
theorem HasSameNonzeros.inconsistency?_eq (h : p.HasSameNonzeros q) (hp : p.matrix.IsMirrored)
    (hq : q.matrix.IsMirrored) : q.inconsistency? = p.inconsistency? := by
  have hagrees : q.matrix.agrees = p.matrix.agrees := by
    rw [Bool.eq_iff_iff, hq.agrees_iff, hp.agrees_iff, Sparse.Rows.hasNan_iff,
      Sparse.Rows.hasNan_iff]
    simp only [h.nonzeros]
  have hrow : q.wrongRow? = p.wrongRow? := by
    simp only [wrongRow?, Sparse.Matrix.rowNonzeros_eq_length, h.nonzeros, h.rows]
  have hcolumn : q.wrongColumn? = p.wrongColumn? := by
    simp only [wrongColumn?, Sparse.Matrix.columnNonzeros_congr h.nonzeros, h.columns]
  have hcrossed : q.crossedColumn? = p.crossedColumn? := by
    simp only [crossedColumn?, h.columns]
  rw [inconsistency?, hagrees, hrow, hcolumn, hcrossed, inconsistency?]

end Formulation

/-! ### Rounds -/

namespace Formulation

/-- The formulations have the same nonzeros, and each has two storages that fit together. -/
structure DiffersInZeros (p q : Formulation α m n) : Prop where
  same : p.HasSameNonzeros q
  linked : p.matrix.IsLinked ∧ q.matrix.IsLinked
  mirrored : p.matrix.IsMirrored ∧ q.matrix.IsMirrored

theorem DiffersInZeros.tighten [RoundedScalar α] {p q : Formulation α m n}
    (h : p.DiffersInZeros q) : p.tighten.DiffersInZeros q.tighten where
  same := h.same.tighten h.linked.1 h.linked.2
  linked := ⟨p.sameShape_tighten.isLinked h.linked.1, q.sameShape_tighten.isLinked h.linked.2⟩
  mirrored := ⟨(perform_keeps h.linked.1 h.mirrored.1 .pass).1,
    (perform_keeps h.linked.2 h.mirrored.2 .pass).1⟩

end Formulation

theorem isBlindTo_differsInZeros [RoundedScalar α] :
    (tighteningOnly : Presolving Unit (Formulation α m n) _ _).IsBlindTo
      Formulation.DiffersInZeros where
  data _ _ _ h := h.tighten
  presolver _ _ _ _ := rfl
  events _ _ _ h := h.same.events_tighteningPass
  result _ _ _ h := congrArg Except.ok h.same.reductions_tighteningPass
  check _ _ h := h.same.inconsistency?_eq h.mirrored.1 h.mirrored.2

/-! ### Instances with the same nonzeros -/

theorem Formulation.hasSameNonzeros_ofRanges {M N : Sparse.Matrix α m n}
    (h : ∀ i, dropZeros (N.toRows.get i) = dropZeros (M.toRows.get i))
    (rows : Vector (Interval α) m) (columns : Vector (Interval α) n) (kinds : Vector VarKind n)
    (active : Vector Bool n) :
    (ofRanges M rows columns kinds active).HasSameNonzeros
      (ofRanges N rows columns kinds active) where
  rows := by simp only [ofRanges, Sparse.Matrix.rowNonzeros_eq_length, h]
  columns := by simp only [ofRanges, Sparse.Matrix.columnNonzeros_congr h]
  nonzeros := h

namespace Instance

/-- What presolving reads and writes is the same in both instances, up to stored zeros. -/
structure HasSameNonzeros (inst other : Instance α m n) : Prop where
  columns : other.columns = inst.columns
  rows : other.rows = inst.rows
  nonzeros : ∀ i, dropZeros (other.matrix.get i) = dropZeros (inst.matrix.get i)

variable {inst other : Instance α m n}

theorem HasSameNonzeros.toFormulation (h : inst.HasSameNonzeros other)
    (hinst : ∀ i, Sparse.HasIncreasingColumns (inst.matrix.get i))
    (hother : ∀ i, Sparse.HasIncreasingColumns (other.matrix.get i)) :
    (∃ cause, inst.toFormulation = .error cause ∧ other.toFormulation = .error cause) ∨
      ∃ p q, inst.toFormulation = .ok p ∧ other.toFormulation = .ok q ∧ p.DiffersInZeros q := by
  unfold Instance.toFormulation rowRanges
  rw [h.columns, h.rows, Sparse.Rows.canonical_of_increasing hinst,
    Sparse.Rows.canonical_of_increasing hother]
  cases kindLine n (inst.columns.toList.map (·.kind)) with
  | error cause => exact .inl ⟨cause, rfl, rfl⟩
  | ok kinds =>
    refine .inr ⟨_, _, rfl, rfl, Formulation.hasSameNonzeros_ofRanges (fun i => ?_) _ _ _ _,
      ⟨Sparse.Matrix.isLinked_ofRows hinst, Sparse.Matrix.isLinked_ofRows hother⟩,
      ⟨Sparse.Matrix.isMirrored_ofRows _, Sparse.Matrix.isMirrored_ofRows _⟩⟩
    rw [Sparse.Matrix.get_toRows_ofRows, Sparse.Matrix.get_toRows_ofRows, h.nonzeros]

/-- Stored zeros do not show in what presolving does. -/
theorem HasSameNonzeros.presolve [RoundedScalar α] (h : inst.HasSameNonzeros other)
    (hinst : ∀ i, Sparse.HasIncreasingColumns (inst.matrix.get i))
    (hother : ∀ i, Sparse.HasIncreasingColumns (other.matrix.get i)) (maxRounds : Int)
    (validates : Bool) :
    let outcome := inst.presolve maxRounds validates
    let again := other.presolve maxRounds validates
    outcome.inst.HasSameNonzeros again.inst ∧ again.schedule = outcome.schedule ∧
      again.events = outcome.events ∧ again.failure = outcome.failure := by
  rcases h.toFormulation hinst hother with ⟨cause, hp, hq⟩ | ⟨p, q, hp, hq, hdiffers⟩
  · rw [presolve_of_malformed hp, presolve_of_malformed hq]
    exact ⟨h, rfl, rfl, rfl⟩
  · obtain ⟨last, hlast, hrun⟩ := Schedule.run_of_isBlindTo (.new maxRounds validates [()])
      none isBlindTo_differsInZeros hdiffers
    simp only [Instance.presolve, hp, hq, hrun]
    split
    · exact ⟨h, rfl, rfl, rfl⟩
    · refine ⟨⟨h.columns, ?_, hlast.same.nonzeros⟩, rfl, rfl, rfl⟩
      rw [adopt, h.rows, hlast.same.rows, adopt]

end Instance

end CoefficientTightening
