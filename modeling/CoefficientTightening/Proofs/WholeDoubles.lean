import CoefficientTightening.Proofs.WholeRows

/-! Rows of whole numbers on doubles. As long as such a row weighs at most `2 ^ 53`, every number
computed in it is a whole double, no operation rounds, and what a pass does to the row is what it
does in exact arithmetic. The weight does not grow, so this holds in every pass; the other rows may
be anything. -/
namespace CoefficientTightening

open RoundedScalar (denote)

/-! ### Changes read as other numbers -/

section Map

variable {α β : Type} {m n : Nat}

/-- The row with each number read as another one. -/
def RowState.map (f : α → β) (s : RowState α n) : RowState β n :=
  ⟨s.cells.map (Sparse.Cell.map f), s.range.map f⟩

theorem RowState.map_change (f : α → β) (s : RowState α n) (t : Tightening α m n) :
    (s.change t).map f = (s.map f).change (t.map f) := by
  unfold RowState.change RowState.map Tightening.map
  rw [Interval.map_setBound]
  congr 1
  apply Array.ext_getElem?
  intro k
  rw [Array.getElem?_map, Array.getElem?_modify, Array.getElem?_modify, Array.getElem?_map]
  split
  · rw [Option.map_map, Option.map_map]
    rfl
  · rfl

namespace Formulation

theorem rowState_map (f : α → β) (p : Formulation α m n) (i : Fin m) :
    (p.map f).rowState i = (p.rowState i).map f := by
  simp only [rowState, map, Sparse.Matrix.get_rows_map, get_map, Row.map, RowState.map]

theorem alike_map (f : α → β) {p q : Formulation α m n}
    (h : ∀ j, (p.columns.get j).Alike (q.columns.get j)) (j : Fin n) :
    ((p.map f).columns.get j).Alike ((q.map f).columns.get j) := by
  simp only [map, get_map]
  exact ⟨congrArg (Interval.map f) (h j).range, (h j).kind, (h j).active⟩

theorem AgreesAt.map (f : α → β) {p q : Formulation α m n} {i : Fin m} (h : AgreesAt i p q) :
    AgreesAt i (p.map f) (q.map f) where
  row := by rw [rowState_map, rowState_map, h.row]
  columns := alike_map f h.columns

/-- Changes of one row may be read as other numbers before or after they are made. -/
theorem agreesAt_map_foldl_commit [Scalar α] [Scalar β] (f : α → β) (p : Formulation α m n)
    {i : Fin m} {ts : List (Tightening α m n)} (hts : ∀ t ∈ ts, t.row = i) :
    AgreesAt i ((ts.map (Tightening.map f)).foldl commit (p.map f))
      ((ts.foldl commit p).map f) where
  row := by
    have hrow : ∀ t ∈ ts.map (Tightening.map f), t.row = i := by
      intro u hu
      obtain ⟨t, ht, rfl⟩ := List.mem_map.mp hu
      exact hts t ht
    rw [rowState_map, rowState_foldl_commit _ _ _ hts, rowState_foldl_commit _ _ _ hrow,
      rowState_map, List.foldl_map]
    generalize p.rowState i = s
    clear hts hrow
    induction ts generalizing s with
    | nil => rfl
    | cons t rest ih => rw [List.foldl_cons, List.foldl_cons, ih, RowState.map_change]
  columns j :=
    (alike_foldl_commit _ (p.map f) j).symm.trans (alike_map f (alike_foldl_commit ts p) j)

end Formulation

end Map

/-! ### A row on doubles -/

namespace Formulation

variable {m n : Nat} {p : Formulation Float m n} {i : Fin m} {side : Side}

/-- The changes of a whole row are found as in exact arithmetic, through the same numbers. -/
theorem IsWholeRow.follows (h : (p.map denote).IsWholeRow i side) :
    (Computed.rowTightenings p i).numbers.map denote =
        (Computed.rowTightenings (p.map denote) i).numbers ∧
      (p.rowTightenings i).map (Tightening.map denote) = (p.map denote).rowTightenings i := by
  obtain ⟨hnumbers, hresult⟩ := Computed.follows_rowTightenings p i h.isSmall_rowTightenings
  rw [Computed.result_rowTightenings, Computed.result_rowTightenings] at hresult
  exact ⟨hnumbers, hresult⟩

/-- A pass does to a whole row what it does in exact arithmetic. -/
theorem IsWholeRow.agreesAt_tighten (h : (p.map denote).IsWholeRow i side) :
    AgreesAt i (p.map denote).tighten (p.tighten.map denote) := by
  have hchanges := agreesAt_map_foldl_commit denote p
    fun t (ht : t ∈ p.rowTightenings i) => row_of_mem_rowTightenings ht
  rw [h.follows.2] at hchanges
  exact ((agreesAt_foldl_commit (p.map denote) i).symm.trans hchanges).trans
    ((p.agreesAt_foldl_commit i).map denote)

theorem IsWholeRow.agreesAt_iterate (h : (p.map denote).IsWholeRow i side) (k : Nat) :
    AgreesAt i (Formulation.tighten^[k] (p.map denote))
      ((Formulation.tighten^[k] p).map denote) := by
  induction k with
  | zero => exact AgreesAt.refl _ _
  | succ k ih =>
    rw [Function.iterate_succ_apply', Function.iterate_succ_apply']
    have hwhole := (h.tighten_iterate k).1.congr ih
    exact ih.tighten.trans hwhole.agreesAt_tighten

/-- A row is processed on doubles as on whole numbers. -/
structure IsProcessedAs (i : Fin m) (side : Side) (r : Formulation Float m n)
    (exact : Formulation Extended m n) : Prop where
  whole : exact.IsWholeRow i side
  row : (r.rowState i).map denote = exact.rowState i
  result : (Computed.rowTightenings r i).result = r.rowTightenings i
  small : ∀ z ∈ (Computed.rowTightenings r i).numbers, (denote z).IsSmallWhole
  numbers : (Computed.rowTightenings r i).numbers.map denote =
    (Computed.rowTightenings exact i).numbers
  changes : (r.rowTightenings i).map (Tightening.map denote) = exact.rowTightenings i
  weight_le : ∀ before t after, r.rowTightenings i = before ++ t :: after →
    (((before ++ [t]).foldl commit r).map denote).rowWeight i side ≤
      ((before.foldl commit r).map denote).rowWeight i side

theorem IsWholeRow.rowWeight_map_le (h : (p.map denote).IsWholeRow i side)
    {before after : List (Tightening Float m n)} {t : Tightening Float m n}
    (hts : p.rowTightenings i = before ++ t :: after) :
    (((before ++ [t]).foldl Formulation.commit p).map denote).rowWeight i side ≤
      ((before.foldl Formulation.commit p).map denote).rowWeight i side := by
  have hrow : ∀ u ∈ before ++ t :: after, u.row = i := fun u hu =>
    row_of_mem_rowTightenings (hts ▸ hu)
  have hbefore := agreesAt_map_foldl_commit denote p fun u (hu : u ∈ before) =>
    hrow u (List.mem_append_left _ hu)
  have hnext := agreesAt_map_foldl_commit denote p fun u (hu : u ∈ before ++ [t]) =>
    hrow u (by rw [List.append_cons]; exact List.mem_append_left _ hu)
  have hexact := h.follows.2
  rw [hts, List.map_append, List.map_cons] at hexact
  rw [rowWeight_congr hbefore, rowWeight_congr hnext, List.map_append]
  exact h.rowWeight_le hexact.symm

theorem IsWholeRow.isProcessedAs (h : (p.map denote).IsWholeRow i side)
    {exact : Formulation Extended m n} (hexact : AgreesAt i exact (p.map denote)) :
    IsProcessedAs i side p exact where
  whole := h.congr hexact.symm
  row := by rw [← rowState_map, hexact.row]
  result := Computed.result_rowTightenings p i
  small z hz := by
    have hmem := List.mem_map_of_mem (f := denote) hz
    rw [h.follows.1] at hmem
    exact h.isSmall_rowTightenings _ hmem
  numbers := by rw [h.follows.1, Computed.rowTightenings_congr hexact]
  changes := by rw [h.follows.2, rowTightenings_congr hexact.row hexact.columns]
  weight_le _ _ _ hts := h.rowWeight_map_le hts

/-- In every pass, a row of whole numbers that weighs at most `2 ^ 53` is processed on doubles as on
whole numbers: nothing rounds, nothing overflows, and its weight never grows. -/
theorem whole_rows_exact (p : Formulation Float m n) (i : Fin m) (side : Side)
    (h : (p.map denote).IsWholeRow i side) (k : Nat) :
    IsProcessedAs i side ((tighten^[k] p).reached i) ((tighten^[k] (p.map denote)).reached i) ∧
      ((tighten^[k] p).map denote).rowWeight i side ≤ (p.map denote).rowWeight i side := by
  have hpass := h.agreesAt_iterate k
  have hdoubles := ((tighten^[k] p).agreesAt_reached i).map (denote : Float → Extended)
  have hexact := (tighten^[k] (p.map denote)).agreesAt_reached i
  obtain ⟨hwhole, hle⟩ := h.tighten_iterate k
  refine ⟨?_, (rowWeight_congr hpass side).le.trans hle⟩
  exact ((hwhole.congr hpass).congr hdoubles).isProcessedAs
    ((hexact.symm.trans hpass).trans hdoubles)

/-- The rows `0.7 x + 0.3 y ≤ 1.6` and `4 x + 5 y - 4 z ≤ 14`, with `x`, `y` and `z` whole in
`[0, 2]`, `[0, 1]` and `[-1, 1]`. -/
def wholeRow : Formulation Float 2 3 :=
  ofRanges (.ofRows #v[(List.finRange 3).zip [0.7, 0.3], (List.finRange 3).zip [4, 5, -4]])
    #v[⟨-Scalar.infinity, 1.6⟩, ⟨-Scalar.infinity, 14⟩] #v[⟨0, 2⟩, ⟨0, 1⟩, ⟨-1, 1⟩]
    (Vector.replicate 3 .integer) (Vector.replicate 3 true)

/-- The second row becomes `3 x + 3 y - 3 z ≤ 9` through whole numbers only, and is not changed by
the next pass. -/
theorem wholeRow_exact :
    (wholeRow.map denote).IsWholeRow (Fin.last 1) .upper ∧
    (((wholeRow.reached (Fin.last 1)).rowTightenings (Fin.last 1)).map
      fun t => (t.new, t.newBound)) = [(3, 12), (3, 10), (-3, 9)] ∧
    (((tighten^[1] wholeRow).reached (Fin.last 1)).rowTightenings (Fin.last 1)).isEmpty = true ∧
    IsProcessedAs (Fin.last 1) .upper ((tighten^[0] wholeRow).reached (Fin.last 1))
      ((tighten^[0] (wholeRow.map denote)).reached (Fin.last 1)) ∧
    IsProcessedAs (Fin.last 1) .upper ((tighten^[1] wholeRow).reached (Fin.last 1))
      ((tighten^[1] (wholeRow.map denote)).reached (Fin.last 1)) ∧
    ((tighten^[1] wholeRow).map denote).rowWeight (Fin.last 1) .upper ≤
      (wholeRow.map denote).rowWeight (Fin.last 1) .upper := by
  have h : (wholeRow.map denote).IsWholeRow (Fin.last 1) .upper := by decide +kernel
  exact ⟨h, by decide +kernel, by decide +kernel,
    (whole_rows_exact wholeRow (Fin.last 1) .upper h 0).1,
    whole_rows_exact wholeRow (Fin.last 1) .upper h 1⟩

end Formulation

end CoefficientTightening
