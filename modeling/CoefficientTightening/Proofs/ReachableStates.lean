import CoefficientTightening.Formulation.Access
import CoefficientTightening.Proofs.ConsistentPass

/-! The formulations that can come up: a formulation as it is built, and what single writes and
passes make of it. Every part may be written, each storage of the matrix and each count on its own,
so the parts need not fit together. But nothing moves a cell or an entry. What was linked when it
was built stays linked. -/
namespace CoefficientTightening

variable {α : Type} {m n : Nat}

theorem exists_of_bind_eq_ok {ε β γ : Type} {x : Except ε β} {f : β → Except ε γ} {z : γ}
    (h : x >>= f = .ok z) : ∃ y, x = .ok y ∧ f y = .ok z := by
  cases x with
  | error e => cases h
  | ok y => exact ⟨y, rfl, h⟩

theorem exists_of_map_eq_ok {ε β γ : Type} {x : Except ε β} {f : β → γ} {z : γ}
    (h : x.map f = .ok z) : ∃ y, x = .ok y ∧ f y = z := by
  cases x with
  | error e => cases h
  | ok y => exact ⟨y, rfl, Except.ok.inj h⟩

/-- What is done to a formulation, with indices as they are handed over. -/
inductive Change (α : Type) where
  /-- One coefficient, in both storages. -/
  | coefficient (row position : Int) (value : α)
  | rowEntry (row position : Int) (value : α)
  | columnEntry (column position : Int) (value : α)
  | rowBound (row : Int) (side : Side) (value : α)
  | columnBound (column : Int) (side : Side) (value : α)
  | rowNonzeros (row count : Int)
  | columnNonzeros (column count : Int)
  | active (column : Int) (flag : Bool)
  | kind (column : Int) (tag : String)
  /-- A pass of coefficient tightening. -/
  | pass

namespace Formulation

variable [Scalar α]

/-- What a change leaves; one that fails leaves everything as it was. -/
def change? (p : Formulation α m n) : Change α → Except OutOfRange (Formulation α m n)
  | .coefficient i k value => (p.matrix.write? i k value).map ({ p with matrix := · })
  | .rowEntry i k value => (p.matrix.writeRow? i k value).map ({ p with matrix := · })
  | .columnEntry j k value => (p.matrix.writeColumn? j k value).map ({ p with matrix := · })
  | .rowBound i side value => p.setRowBound? i side value
  | .columnBound j side value => p.setColumnBound? j side value
  | .rowNonzeros i count => p.setRowNonzeros? i count
  | .columnNonzeros j count => p.setColumnNonzeros? j count
  | .active j flag => p.setActive? j flag
  | .kind j tag => p.setKind? j tag
  | .pass => .ok p.tighten

inductive IsReachable : Formulation α m n → Prop where
  | built (rows : Sparse.Rows α m n) (rowRanges : Vector (Interval α) m)
      (columnRanges : Vector (Interval α) n) (kinds : Vector VarKind n) (active : Vector Bool n) :
      IsReachable (ofRanges (.ofRows rows.canonical) rowRanges columnRanges kinds active)
  | changed {p q : Formulation α m n} (c : Change α) (before : IsReachable p)
      (done : p.change? c = .ok q) : IsReachable q

variable {p q : Formulation α m n}

theorem isReachable_ofRows {rows : Sparse.Rows α m n}
    (h : ∀ i, Sparse.HasIncreasingColumns (rows.get i)) (rowRanges : Vector (Interval α) m)
    (columnRanges : Vector (Interval α) n) (kinds : Vector VarKind n) (active : Vector Bool n) :
    (ofRanges (.ofRows rows) rowRanges columnRanges kinds active).IsReachable := by
  rw [← Sparse.Rows.canonical_of_increasing h]
  exact .built ..

/-- Whatever attributes are accepted, the formulation that they make counts as built. -/
theorem isReachable_of_ofAttributes {rows : Sparse.Rows α m n} {given : Attributes α}
    (h : ofAttributes (.ofRows rows.canonical) given = .ok p) : p.IsReachable := by
  unfold ofAttributes at h
  obtain ⟨columnLower, -, h⟩ := exists_of_bind_eq_ok h
  obtain ⟨columnUpper, -, h⟩ := exists_of_bind_eq_ok h
  obtain ⟨rowLower, -, h⟩ := exists_of_bind_eq_ok h
  obtain ⟨rowUpper, -, h⟩ := exists_of_bind_eq_ok h
  obtain ⟨kinds, -, h⟩ := exists_of_bind_eq_ok h
  -- flags that are left out, and flags that are read
  dsimp only at h
  split at h
  all_goals
    obtain ⟨active, -, h⟩ := exists_of_bind_eq_ok h
    cases h
    exact .built ..

/-- A change moves no cell and no entry. -/
theorem sameShape_of_change? {c : Change α} (h : p.change? c = .ok q) :
    p.matrix.SameShape q.matrix := by
  cases c with
  | coefficient i k value =>
    obtain ⟨M, hwrite, rfl⟩ := exists_of_map_eq_ok h
    exact Sparse.Matrix.sameShape_of_write? hwrite
  | rowEntry i k value =>
    obtain ⟨M, hwrite, rfl⟩ := exists_of_map_eq_ok h
    exact Sparse.Matrix.sameShape_of_writeRow? hwrite
  | columnEntry j k value =>
    obtain ⟨M, hwrite, rfl⟩ := exists_of_map_eq_ok h
    exact Sparse.Matrix.sameShape_of_writeColumn? hwrite
  | rowBound i _ _ | columnBound i _ _ | active i _ | kind i _ =>
    obtain ⟨i, -, h⟩ := exists_of_bind_eq_ok h
    cases h
    exact .refl _
  | rowNonzeros i count | columnNonzeros i count =>
    obtain ⟨i, -, h⟩ := exists_of_bind_eq_ok h
    obtain ⟨count, -, h⟩ := exists_of_bind_eq_ok h
    cases h
    exact .refl _
  | pass =>
    cases h
    exact p.sameShape_tighten

theorem IsReachable.isLinked (h : p.IsReachable) : p.matrix.IsLinked := by
  induction h with
  | built rows rowRanges columnRanges kinds active =>
    exact Sparse.Matrix.isLinked_ofRows_canonical rows
  | changed c _ done ih => exact (sameShape_of_change? done).isLinked ih

theorem isReachable_mixedRow (bound top : ℚ) : (mixedRow bound top).IsReachable := by
  apply isReachable_ofRows
  unfold Sparse.HasIncreasingColumns
  decide

end Formulation

end CoefficientTightening
