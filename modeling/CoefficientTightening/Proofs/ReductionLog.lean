import CoefficientTightening.Proofs.ReductionReplay

/-! The records of a pass as a log of it. Replayed from the formulation before the pass they lead to
the formulation after it, and each of them finds the old value that it names. A position has at most
one record, which moves its coefficient towards zero and not past it; rows come in order, and a
record of a bound stands right behind the record of a coefficient of the same row. -/
namespace CoefficientTightening

open Extended (finite infinite nan)
open RoundedScalar (denote denote_lt denote_zero denote_neg beq_zero_iff pos_iff_denote
  neg_iff_denote)

variable {α : Type} [Scalar α] {m n : Nat}

/-- A number without its sign. -/
def magnitude (x : α) : α :=
  if x < 0 then -x else x

theorem denote_magnitude [RoundedScalar α] {x : α} {q : ℚ} (h : denote x = finite q) :
    denote (magnitude x) = finite |q| := by
  unfold magnitude
  split
  · next hneg =>
    rw [neg_iff_denote, h, Extended.finite_lt] at hneg
    rw [denote_neg, h, Extended.neg_finite, abs_of_neg hneg]
  · next hnot =>
    rw [neg_iff_denote, h, Extended.finite_lt, not_lt] at hnot
    rw [h, abs_of_nonneg hnot]

/-! ### What a record says -/

namespace Reduction

/-- Row and column of the coefficient that was changed. -/
def place? : Reduction α → Option (Nat × Nat)
  | tightenCoefficient i j _ _ => some (i, j)
  | zeroCoefficient i j _ => some (i, j)
  | _ => none

def row? : Reduction α → Option Nat
  | tightenCoefficient i _ _ _ => some i
  | zeroCoefficient i _ _ => some i
  | tightenRowBound i _ _ _ => some i
  | custom .. => none

/-- A coefficient was not zero and came closer to zero. It became zero if the record says so, and
kept its sign otherwise. -/
def IsCut : Reduction α → Prop
  | tightenCoefficient _ _ old new =>
    (old == 0) = false ∧ (new == 0) = false ∧ magnitude new < magnitude old ∧
      (0 < old ∧ 0 < new ∨ old < 0 ∧ new < 0)
  | zeroCoefficient _ _ old => (old == 0) = false ∧ magnitude 0 < magnitude old
  | tightenRowBound .. => True
  | custom .. => False

/-- The value stands at the position in the row storage, and in the column storage too if the
storages are to agree. -/
def StandsAt (agree : Prop) (p : Formulation Extended m n) (i j : Nat) (value : Extended) : Prop :=
  ∃ i' : Fin m, i'.val = i ∧ ∃ c ∈ (p.matrix.rows.get i').toList,
    c.column.val = j ∧ c.value = value ∧
    (agree → ∃ e, (p.matrix.columns.get c.column)[c.slot]? = some e ∧ e.row = i' ∧
      e.value = value)

variable [RoundedScalar α]

/-- The old value stands at the target of the record. -/
def FoundIn (agree : Prop) (p : Formulation Extended m n) : Reduction α → Prop
  | tightenCoefficient i j old _ => StandsAt agree p i j (denote old)
  | zeroCoefficient i j old => StandsAt agree p i j (denote old)
  | tightenRowBound i side old _ =>
    ∃ i' : Fin m, i'.val = i ∧ (p.rows.get i').range.bound side = denote old
  | custom .. => False

end Reduction

namespace Formulation

variable [RoundedScalar α]

/-- Replayed in order, every record finds its old value. -/
def Admits (agree : Prop) (p : Formulation α m n) : List (Reduction α) → Prop
  | [] => True
  | r :: rest => r.FoundIn agree (p.map denote) ∧ (r.replay p).Admits agree rest

/-- The records tell, change by change, how the first formulation became the second. -/
structure IsLog (p q : Formulation α m n) (log : List (Reduction α)) : Prop where
  replayed : (log.foldl Reduction.replay p).map denote = q.map denote
  found : p.Admits p.matrix.Mirrors log
  places_nodup : (log.filterMap Reduction.place?).Nodup
  cuts : ∀ r ∈ log, r.IsCut
  rows_ordered : (log.filterMap Reduction.row?).Pairwise (· ≤ ·)
  bounds_follow : ∀ before i side old new after,
    log = before ++ .tightenRowBound i side old new :: after →
    (∃ r j, before.getLast? = some r ∧ r.place? = some (i, j)) ∧
      ∃ i' : Fin m, i'.val = i ∧ (p.rows.get i').range.onlySide? = some side

variable {agree : Prop} {p q : Formulation α m n} {log log' : List (Reduction α)}

theorem admits_congr (h : p.map denote = q.map denote) : p.Admits agree log ↔ q.Admits agree log := by
  induction log generalizing p q with
  | nil => exact Iff.rfl
  | cons r rest ih => rw [Admits, Admits, h, ih (Reduction.replay_congr h r)]

theorem admits_append : p.Admits agree (log ++ log') ↔
    p.Admits agree log ∧ (log.foldl Reduction.replay p).Admits agree log' := by
  induction log generalizing p with
  | nil => exact (and_iff_right trivial).symm
  | cons r rest ih => simp only [List.cons_append, Admits, ih, List.foldl_cons, and_assoc]

/-- A coefficient without a NaN in the row storage. -/
def IsNumeric (p : Formulation α m n) : Prop :=
  ∀ i, ∀ c ∈ (p.matrix.rows.get i).toList, denote c.value ≠ nan

end Formulation

/-! ### The records of one change -/

namespace Tightening

variable {t : Tightening α m n} {r : Reduction α}

theorem mem_reductions (h : r ∈ t.reductions) :
    r = t.coefficientRecord ∨ r = .tightenRowBound t.row t.side t.oldBound t.newBound := by
  cases hmoved : t.newBound == t.oldBound with
  | true => exact .inl (by simpa [reductions_of_kept hmoved] using h)
  | false => simpa [reductions_of_moved hmoved] using h

theorem place?_coefficientRecord (t : Tightening α m n) :
    t.coefficientRecord.place? = some (t.row.val, t.column.val) := by
  unfold coefficientRecord
  split <;> rfl

theorem row?_of_mem_reductions (h : r ∈ t.reductions) : r.row? = some t.row.val := by
  rcases mem_reductions h with rfl | rfl
  · unfold coefficientRecord
    split <;> rfl
  · rfl

theorem filterMap_place?_reductions (ts : List (Tightening α m n)) :
    (ts.flatMap reductions).filterMap Reduction.place? =
      ts.map fun t => (t.row.val, t.column.val) := by
  induction ts with
  | nil => rfl
  | cons t rest ih =>
    rw [List.flatMap_cons, List.filterMap_append, ih]
    cases hmoved : t.newBound == t.oldBound with
    | true =>
      rw [reductions_of_kept hmoved, List.filterMap_cons_some (place?_coefficientRecord t)]
      rfl
    | false =>
      rw [reductions_of_moved hmoved, List.filterMap_cons_some (place?_coefficientRecord t)]
      rfl

/-- A record of a bound stands right behind the record of a coefficient of its row. -/
theorem exists_getLast?_of_flatMap {ts : List (Tightening α m n)} {before after : List (Reduction α)}
    {i : Nat} {side : Side} {old new : α}
    (h : ts.flatMap reductions = before ++ .tightenRowBound i side old new :: after) :
    ∃ r j, before.getLast? = some r ∧ r.place? = some (i, j) := by
  induction ts generalizing before with
  | nil => simp at h
  | cons t rest ih =>
    have hcoef : ∀ log, t.coefficientRecord :: log ≠ .tightenRowBound i side old new :: after := by
      intro log heq
      have hplace := place?_coefficientRecord t
      rw [(List.cons.inj heq).1] at hplace
      cases hplace
    rw [List.flatMap_cons] at h
    cases hmoved : t.newBound == t.oldBound with
    | true =>
      rw [reductions_of_kept hmoved, List.singleton_append] at h
      rcases List.cons_eq_append_iff.mp h with ⟨-, heq⟩ | ⟨before', rfl, heq⟩
      · exact absurd heq.symm (hcoef _)
      · obtain ⟨r, j, hlast, hplace⟩ := ih heq
        exact ⟨r, j, by rw [List.getLast?_cons, hlast]; rfl, hplace⟩
    | false =>
      rw [reductions_of_moved hmoved, List.cons_append, List.singleton_append] at h
      rcases List.cons_eq_append_iff.mp h with ⟨-, heq⟩ | ⟨before', rfl, heq⟩
      · exact absurd heq.symm (hcoef _)
      · rcases List.cons_eq_append_iff.mp heq with ⟨rfl, hown⟩ | ⟨before'', rfl, hlater⟩
        · -- the record of the change's own bound
          obtain ⟨hbound, -⟩ := List.cons.inj hown
          cases hbound
          exact ⟨_, _, rfl, place?_coefficientRecord t⟩
        · obtain ⟨r, j, hlast, hplace⟩ := ih hlater
          refine ⟨r, j, ?_, hplace⟩
          rw [List.getLast?_cons, List.getLast?_cons, hlast]
          rfl

variable [RoundedScalar α] {p : Formulation α m n} {agree : Prop}

theorem IsCut.coefficientRecord {a b : ℚ} (h : t.IsCut a b) : t.coefficientRecord.IsCut := by
  have ha : a ≠ 0 := by
    rcases h.closer with ⟨h0, hlt⟩ | ⟨hlt, h0⟩
    · exact (h0.trans_lt hlt).ne'
    · exact (hlt.trans_le h0).ne
  have hold : (t.old == 0) = false := by
    rw [Bool.eq_false_iff, ne_eq, beq_zero_iff, h.old_eq, Extended.finite.injEq]
    exact ha
  have habs : |b| < |a| := by
    rcases h.closer with ⟨h0, hlt⟩ | ⟨hlt, h0⟩
    · rwa [abs_of_nonneg h0, abs_of_pos (h0.trans_lt hlt)]
    · rw [abs_of_nonpos h0, abs_of_neg (hlt.trans_le h0)]
      exact neg_lt_neg hlt
  have hmagnitude : ∀ x : α, denote x = finite b → magnitude x < magnitude t.old := by
    intro x hx
    rwa [denote_lt, denote_magnitude hx, denote_magnitude h.old_eq, Extended.finite_lt]
  unfold Tightening.coefficientRecord
  cases hzero : t.new == 0 with
  | true =>
    have hb : b = 0 := by
      rw [beq_zero_iff, h.new_eq, Extended.finite.injEq] at hzero
      exact hzero
    exact ⟨hold, hmagnitude 0 (by rw [denote_zero, hb])⟩
  | false =>
    have hb : b ≠ 0 := by
      rw [Bool.eq_false_iff, ne_eq, beq_zero_iff, h.new_eq, Extended.finite.injEq] at hzero
      exact hzero
    refine ⟨hold, hzero, hmagnitude t.new h.new_eq, ?_⟩
    rw [pos_iff_denote, pos_iff_denote, neg_iff_denote, neg_iff_denote, h.old_eq, h.new_eq]
    simp only [Extended.finite_lt]
    rcases h.closer with ⟨h0, hlt⟩ | ⟨hlt, h0⟩
    · exact .inl ⟨h0.trans_lt hlt, lt_of_le_of_ne h0 hb.symm⟩
    · exact .inr ⟨hlt.trans_le h0, lt_of_le_of_ne h0 hb⟩

theorem foundIn_coefficientRecord (hlinked : p.matrix.IsLinked) (hfits : t.Fits p)
    (hmirrors : agree → p.matrix.Mirrors) :
    t.coefficientRecord.FoundIn agree (p.map denote) := by
  have hstands : Reduction.StandsAt agree (p.map denote) t.row t.column (denote t.old) := by
    obtain ⟨slot, hc⟩ := hfits.cell
    have hmem := mem_toList_of_getElem? hc
    refine ⟨t.row, rfl, ⟨t.column, slot, denote t.old⟩, ?_, rfl, rfl, fun hagree => ?_⟩
    · have hrow : (p.map denote).matrix.rows.get t.row =
          (p.matrix.rows.get t.row).map (Sparse.Cell.map denote) :=
        Sparse.Matrix.get_rows_map _ _ _
      rw [hrow, Array.toList_map]
      exact List.mem_map.mpr ⟨_, hmem, rfl⟩
    · obtain ⟨e, he, hvalue, -⟩ := hmirrors hagree t.row _ hmem
      obtain ⟨e', he', hrow⟩ := hlinked.exists_entry hmem
      obtain rfl : e = e' := Option.some.inj (he.symm.trans he')
      have hcolumn : (p.map denote).matrix.columns.get t.column =
          (p.matrix.columns.get t.column).map (Sparse.ColumnEntry.map denote) :=
        Sparse.Matrix.get_columns_map _ _ _
      refine ⟨e.map denote, ?_, hrow, hvalue⟩
      rw [hcolumn, Array.getElem?_map, he]
      rfl
  unfold coefficientRecord
  split <;> exact hstands

/-- Replayed where the change fits, its records find their old values. -/
theorem admits_reductions (hlinked : p.matrix.IsLinked) (hfits : t.Fits p)
    (hmirrors : agree → p.matrix.Mirrors) : p.Admits agree t.reductions := by
  have hcoef := foundIn_coefficientRecord hlinked hfits hmirrors
  cases hmoved : t.newBound == t.oldBound with
  | true =>
    rw [reductions_of_kept hmoved]
    exact ⟨hcoef, trivial⟩
  | false =>
    rw [reductions_of_moved hmoved]
    refine ⟨hcoef, ⟨t.row, rfl, ?_⟩, trivial⟩
    obtain ⟨-, -, hrange, -⟩ := map_replay_coefficientRecord hlinked hfits
    rw [Formulation.map, get_map, Row.map, Interval.bound_map, hrange, hfits.bound]

theorem admits_flatMap {ts : List (Tightening α m n)} (hlinked : p.matrix.IsLinked)
    (htrace : p.Trace ts) (hmirrors : agree → p.matrix.Mirrors)
    (hnew : ∀ t ∈ ts, denote t.new ≠ nan) : p.Admits agree (ts.flatMap reductions) := by
  induction ts generalizing p with
  | nil => trivial
  | cons t rest ih =>
    rw [List.flatMap_cons, Formulation.admits_append,
      Formulation.admits_congr (map_replay_reductions hlinked htrace.1)]
    refine ⟨admits_reductions hlinked htrace.1 hmirrors,
      ih ((p.sameShape_commit t).isLinked hlinked) htrace.2 (fun hagree => ?_)
        fun u hu => hnew u (List.mem_cons_of_mem _ hu)⟩
    obtain ⟨slot, hc⟩ := htrace.1.cell
    rw [Formulation.matrix_commit]
    exact (hmirrors hagree).write hlinked hc (hnew t List.mem_cons_self)

end Tightening

/-! ### The changes of a pass in order -/

namespace Formulation

open Tightening

variable {p : Formulation α m n}

/-- A row has at most one change in a column. -/
theorem nodup_columns_rowTightenings (hlinked : p.matrix.IsLinked) (i : Fin m) :
    ((p.rowTightenings i).map (·.column)).Nodup := by
  have hsub := (p.place_rowTightenings_sublist i).map Prod.fst
  rw [List.map_map, List.map_map] at hsub
  refine List.Nodup.sublist hsub ?_
  have hcolumns := hlinked.columns_nodup i
  rwa [← map_entries p i] at hcolumns

theorem nodup_places_tightenings (hlinked : p.matrix.IsLinked) :
    (p.tightenings.map fun t => (t.row.val, t.column.val)).Nodup := by
  rw [tightenings_eq, List.map_flatMap, List.nodup_flatMap]
  refine ⟨fun i _ => ?_, ?_⟩
  · have hcolumns := (nodup_columns_rowTightenings hlinked i).map Fin.val_injective
    rw [List.map_map] at hcolumns
    apply List.Nodup.of_map Prod.snd
    rwa [List.map_map]
  · refine (List.nodup_finRange m).imp fun {i k} hne => ?_
    intro place hi hk
    obtain ⟨t, ht, rfl⟩ := List.mem_map.mp hi
    obtain ⟨u, hu, heq⟩ := List.mem_map.mp hk
    apply hne
    rw [← row_of_mem_rowTightenings ht, ← row_of_mem_rowTightenings hu]
    exact Fin.ext (congrArg Prod.fst heq).symm

theorem rows_ordered_tightenings (p : Formulation α m n) :
    p.tightenings.Pairwise fun t u => t.row.val ≤ u.row.val := by
  rw [tightenings_eq, List.pairwise_flatMap]
  refine ⟨fun i _ => List.pairwise_of_forall_mem_list fun t ht u hu => ?_, ?_⟩
  · rw [row_of_mem_rowTightenings ht, row_of_mem_rowTightenings hu]
  · refine (List.sortedLT_finRange m).pairwise.imp fun {i k} hlt t ht u hu => ?_
    rw [row_of_mem_rowTightenings ht, row_of_mem_rowTightenings hu]
    exact hlt.le

theorem rows_ordered_reductions (p : Formulation α m n) :
    (p.tighteningPass.reductions.filterMap Reduction.row?).Pairwise (· ≤ ·) := by
  rw [reductions_tighteningPass, List.pairwise_filterMap, List.pairwise_flatMap]
  have hrow : ∀ t : Tightening α m n, ∀ r ∈ t.reductions, ∀ k, r.row? = some k → k = t.row.val :=
    fun t r hr k hk => Option.some.inj (hk.symm.trans (row?_of_mem_reductions hr))
  refine ⟨fun t _ => List.pairwise_of_forall_mem_list fun r hr s hs k hk l hl => ?_, ?_⟩
  · rw [hrow t r hr k hk, hrow t s hs l hl]
  · refine (rows_ordered_tightenings p).imp fun {t u} hle r hr s hs k hk l hl => ?_
    rwa [hrow t r hr k hk, hrow u s hs l hl]

variable [RoundedScalar α]

theorem exists_isCut_of_isNumeric (hnum : p.IsNumeric) {t : Tightening α m n}
    (ht : t ∈ p.tightenings) : ∃ a b, t.IsCut a b := by
  obtain ⟨c, hc, hvalue⟩ := exists_cell_of_mem_tightenings ht
  exact exists_isCut_of_mem_tightenings ht (hvalue ▸ hnum t.row c hc)

/-- Without NaN coefficients, the reductions of a pass are a log of it. -/
theorem isLog_tighteningPass (p : Formulation α m n) (hlinked : p.matrix.IsLinked)
    (hnum : p.IsNumeric) : p.IsLog p.tighteningPass.data p.tighteningPass.reductions where
  replayed := by
    rw [data_tighteningPass, reductions_tighteningPass, ← foldl_commit_tightenings]
    exact map_replay_flatMap hlinked p.trace_tightenings
  found := by
    apply admits_flatMap hlinked p.trace_tightenings id
    intro t ht
    obtain ⟨_, _, hcut⟩ := exists_isCut_of_isNumeric hnum ht
    rw [hcut.new_eq]
    exact Extended.noConfusion
  places_nodup := by
    rw [reductions_tighteningPass, filterMap_place?_reductions]
    exact nodup_places_tightenings hlinked
  cuts r hr := by
    obtain ⟨t, ht, hmem⟩ := List.mem_flatMap.mp hr
    obtain ⟨_, _, hcut⟩ := exists_isCut_of_isNumeric hnum ht
    rcases mem_reductions hmem with rfl | rfl
    · exact hcut.coefficientRecord
    · trivial
  rows_ordered := rows_ordered_reductions p
  bounds_follow before i side old new after heq := by
    refine ⟨exists_getLast?_of_flatMap heq, ?_⟩
    have hmem : Reduction.tightenRowBound i side old new ∈ p.tighteningPass.reductions := by
      rw [heq]
      exact List.mem_append_right _ List.mem_cons_self
    obtain ⟨t, ht, hmem⟩ := List.mem_flatMap.mp hmem
    rcases mem_reductions hmem with hcoef | hbound
    · have hplace := place?_coefficientRecord t
      rw [← hcoef] at hplace
      cases hplace
    · cases hbound
      exact ⟨t.row, rfl, onlySide?_of_mem_tightenings ht⟩

/-- Two coefficients and two bounds, read off the pass over the mixed row. -/
theorem mixedRow_isLog :
    (mixedRow 10 2).tighteningPass.reductions.length = 4 ∧
    (mixedRow 10 2).IsLog (mixedRow 10 2).tighteningPass.data
      (mixedRow 10 2).tighteningPass.reductions :=
  ⟨by decide +kernel, isLog_tighteningPass (mixedRow 10 2) (isLinked_mixedRow 10 2)
    (by unfold IsNumeric; decide +kernel)⟩

end Formulation

end CoefficientTightening
