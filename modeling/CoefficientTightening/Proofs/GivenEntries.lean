import CoefficientTightening.Proofs.CanonicalRows
import Mathlib.Data.List.Zip

/-! Matrices that are read without a fault, and the values they give at each position. An array gives
its numbers other than zero, and so do nested lists, coordinates give their entries, and a compressed
matrix gives what stands between the pointers of its lines, whatever stands after the last one.
Reading finds just these values, and those of one position in the order in which they are given. -/
namespace CoefficientTightening

namespace Nested

variable {β : Type}

def ofLine (values : List β) : Nested β := .list (values.map .leaf)

def ofGrid (rows : List (List β)) : Nested β := .list (rows.map ofLine)

/-! ### The shape of a grid -/

theorem surveyAll_leaves (left : Nat) (values : List β) :
    surveyAll left ⟨some [], true⟩ (values.map .leaf) = ⟨some [], true⟩ := by
  induction values with
  | nil => rfl
  | cons value rest ih => exact ih

theorem survey_ofLine (left : Nat) (values : List β) :
    (ofLine values).survey (left + 1) ⟨none, true⟩ = ⟨some [values.length], true⟩ := by
  cases values with
  | nil => rfl
  | cons value rest =>
    have hrest : surveyAll left ⟨none, true⟩ ((value :: rest).map .leaf) = ⟨some [], true⟩ :=
      surveyAll_leaves left rest
    simp only [ofLine, survey, List.length_map]
    exact congrArg (Outline.under _) hrest

theorem surveyAll_lines (left : Nat) {width : Nat} {rows : List (List β)}
    (h : ∀ row ∈ rows, row.length = width) :
    surveyAll (left + 1) ⟨some [width], true⟩ (rows.map ofLine) = ⟨some [width], true⟩ := by
  induction rows with
  | nil => rfl
  | cons row rest ih =>
    have hrow : (ofLine row).survey (left + 1) ⟨some [width], true⟩ = ⟨some [width], true⟩ := by
      simp only [ofLine, survey, List.length_map, h row List.mem_cons_self, if_true,
        surveyAll_leaves]
      rfl
    rw [List.map_cons, surveyAll, hrow]
    exact ih fun r hr => h r (List.mem_cons_of_mem _ hr)

theorem shape_ofLine (values : List β) : (ofLine values).shape = .ok [values.length] := by
  simp only [shape, maxDepth, survey_ofLine, if_true]

theorem shape_ofGrid (first : List β) {rest : List (List β)}
    (h : ∀ row ∈ rest, row.length = first.length) :
    (ofGrid (first :: rest)).shape = .ok [rest.length + 1, first.length] := by
  have hall : surveyAll 63 ⟨none, true⟩ ((first :: rest).map ofLine) =
      ⟨some [first.length], true⟩ := by
    rw [List.map_cons, surveyAll, survey_ofLine]
    exact surveyAll_lines 62 h
  have hsurvey : (ofGrid (first :: rest)).survey maxDepth ⟨none, true⟩ =
      ⟨some [rest.length + 1, first.length], true⟩ := by
    simp only [ofGrid, maxDepth, survey, List.length_map]
    exact congrArg (Outline.under _) hall
  simp only [shape, hsurvey, if_true]

theorem leaves_ofLine (values : List β) : (ofLine values).leaves = values := by
  have hall : leavesAll (values.map .leaf) = values := by
    induction values with
    | nil => rfl
    | cons value rest ih => rw [List.map_cons, leavesAll, leaves, ih, List.singleton_append]
  exact hall

theorem leaves_ofGrid (rows : List (List β)) : (ofGrid rows).leaves = rows.flatten := by
  have hall : leavesAll (rows.map ofLine) = rows.flatten := by
    induction rows with
    | nil => rfl
    | cons row rest ih => rw [List.map_cons, leavesAll, leaves_ofLine, ih, List.flatten_cons]
  exact hall

theorem toArray_eq_ok {nest : Nested β} {shape : List Nat} (h : nest.shape = .ok shape) :
    nest.toArray = .ok ⟨shape, nest.leaves, length_leaves h⟩ := by
  unfold toArray
  split
  · next hshape =>
    rw [hshape] at h
    cases h
  · next hshape =>
    obtain rfl : _ = shape := Except.ok.inj (hshape.symm.trans h)
    rfl

end Nested

namespace Sparse

variable {α : Type} {m n : Nat}

/-! ### Values at a position -/

/-- The values of one column of a row, in their order. -/
def valuesIn (row : List (Fin n × α)) (j : Fin n) : List α :=
  (row.filter fun t => t.1 = j).map (·.2)

/-- The values of one position, in their order. -/
def valuesAt (entries : List (Entry α m n)) (i : Fin m) (j : Fin n) : List α :=
  (entries.filter fun e => e.row = i ∧ e.column = j).map (·.value)

theorem valuesIn_groupRows (entries : List (Entry α m n)) (i : Fin m) (j : Fin n) :
    valuesIn ((groupRows entries).get i) j = valuesAt entries i j := by
  rw [get_groupRows, valuesIn, valuesAt, List.filter_map, List.map_map, List.filter_filter]
  apply congrArg (List.map _)
  apply List.filter_congr
  intro e _
  simp [Bool.and_comm]

/-- The place of a position in a matrix without bounds. -/
def place (i : Fin m) (j : Fin n) : Int × Int := ((i : Nat), (j : Nat))

theorem entry?_place (i : Fin m) (j : Fin n) (value : α) :
    entry? m n (place i j).1 (place i j).2 value = some ⟨i, j, value⟩ := by
  simp [ entry?, place]

theorem place_of_entry? {p : Int × Int} {value : α} {e : Entry α m n}
    (h : entry? m n p.1 p.2 value = some e) : p = place e.row e.column ∧ e.value = value := by
  unfold entry? at h
  split at h
  · next hrange =>
    cases h
    exact ⟨Prod.ext (Int.toNat_of_nonneg hrange.1.1).symm (Int.toNat_of_nonneg hrange.2.1).symm,
      rfl⟩
  · cases h

theorem place_inj {i i' : Fin m} {j j' : Fin n} : place i j = place i' j' ↔ i = i' ∧ j = j' := by
  simp only [place, Prod.mk.injEq, Nat.cast_inj, Fin.ext_iff]

/-- The entries at the places that are in range. -/
def entriesInRange (m n : Nat) (given : List ((Int × Int) × α)) : List (Entry α m n) :=
  given.filterMap fun p => entry? m n p.1.1 p.1.2 p.2

theorem valuesAt_entriesInRange (given : List ((Int × Int) × α)) (i : Fin m) (j : Fin n) :
    valuesAt (entriesInRange m n given) i j =
      (given.filter fun p => p.1 = place i j).map (·.2) := by
  induction given with
  | nil => rfl
  | cons p rest ih =>
    cases he : entry? m n p.1.1 p.1.2 p.2 with
    | none =>
      have hne : p.1 ≠ place i j := fun heq => by
        rw [heq, entry?_place] at he
        cases he
      have hstep : entriesInRange m n (p :: rest) = entriesInRange m n rest :=
        List.filterMap_cons_none he
      rw [hstep, ih, List.filter_cons_of_neg (by simpa using hne)]
    | some e =>
      obtain ⟨hplace, hvalue⟩ := place_of_entry? he
      have hstep : entriesInRange m n (p :: rest) = e :: entriesInRange m n rest :=
        List.filterMap_cons_some he
      rw [hstep, valuesAt, List.filter_cons, List.filter_cons, hplace]
      simp only [place_inj]
      split
      · rw [List.map_cons, List.map_cons, hvalue, ← ih]
        rfl
      · exact ih

/-! ### Lines one below the other -/

theorem flatMap_zipIdx_eq {β γ : Type} (f : β → Nat → List γ) (lines : List β) (start i : Nat)
    (hf : ∀ x k, k ≠ start + i → f x k = []) :
    (lines.zipIdx start).flatMap (fun x => f x.1 x.2) =
      (lines[i]?.map fun x => f x (start + i)).getD [] := by
  induction lines generalizing start i with
  | nil => rfl
  | cons x rest ih =>
    rw [List.zipIdx_cons, List.flatMap_cons]
    cases i with
    | zero =>
      have hrest : (rest.zipIdx (start + 1)).flatMap (fun x => f x.1 x.2) = [] := by
        rw [List.flatMap_eq_nil_iff]
        intro y hy
        have hle := List.le_snd_of_mem_zipIdx hy
        exact hf _ _ (by omega)
      rw [hrest, List.append_nil]
      rfl
    | succ i =>
      rw [hf x start (by omega), List.nil_append, List.getElem?_cons_succ,
        ih (start + 1) i fun y k hk => hf y k (by omega), Nat.add_right_comm, Nat.add_assoc]

theorem map_filter_eq_flatMap {β γ : Type} (P : β → Bool) (f : β → γ) (l : List β) :
    (l.filter P).map f = l.flatMap fun x => if P x then [f x] else [] := by
  induction l with
  | nil => rfl
  | cons x rest ih =>
    rw [List.filter_cons, List.flatMap_cons, ← ih]
    split <;> rfl

/-- Element `k` of list `i` among the elements of all lists. -/
theorem getElem?_flatten {β : Type} {L : List (List β)} {i k : Nat} {row : List β}
    (hi : L[i]? = some row) (hk : k < row.length) :
    L.flatten[((L.map List.length).take i).sum + k]? = row[k]? := by
  obtain ⟨hlt, rfl⟩ := List.getElem?_eq_some_iff.mp hi
  rw [← List.getElem?_drop, List.drop_sum_flatten, List.drop_eq_getElem_cons hlt,
    List.flatten_cons, List.getElem?_append_left hk]

/-- Lists of one length stand at its multiples. -/
theorem getElem?_flatten_mul_add {β : Type} {L : List (List β)} {width i k : Nat} {row : List β}
    (h : ∀ row ∈ L, row.length = width) (hi : L[i]? = some row) (hk : k < width) :
    L.flatten[i * width + k]? = row[k]? := by
  have hlengths : L.map List.length = List.replicate L.length width :=
    List.map_eq_replicate_iff.mpr h
  have hlt := (List.getElem?_eq_some_iff.mp hi).1
  have hrow : row.length = width := h row (List.mem_of_getElem? hi)
  rw [← getElem?_flatten hi (hrow ▸ hk), hlengths, List.take_replicate, List.sum_replicate,
    Nat.min_eq_left hlt.le]
  rfl

/-! ### Dense arrays -/

section Dense

variable [Scalar α]

/-- The number at this place of a list, unless it is zero. -/
def nonzeroAt (values : List α) (k : Nat) : List α :=
  values[k]?.toList.filter fun v => !(v == 0)

theorem div_mod_eq_place (i : Fin m) (j : Fin n) (k : Nat) :
    (((k / n : Nat) : Int), ((k % n : Nat) : Int)) = place i j ↔ k = i * n + j := by
  rw [place, Prod.mk.injEq, Nat.cast_inj, Nat.cast_inj,
    Nat.div_mod_unique ((Nat.zero_le _).trans_lt j.isLt), and_iff_left j.isLt, Nat.mul_comm,
    Nat.add_comm, eq_comm]

/-- The entry at a position is the value at its place in the array. -/
theorem valuesAt_denseEntries (values : List α) (i : Fin m) (j : Fin n) :
    valuesAt (denseEntries m n values) i j = nonzeroAt values (i * n + j) := by
  have hentries : denseEntries m n values =
      entriesInRange m n ((values.zipIdx.filter fun v => !(v.1 == 0)).map
        fun v => ((((v.2 / n : Nat) : Int), ((v.2 % n : Nat) : Int)), v.1)) := by
    rw [entriesInRange, List.filterMap_map]
    rfl
  have hvalue : ∀ v : α × Nat,
      (if (decide ((((v.2 / n : Nat) : Int), ((v.2 % n : Nat) : Int)) = place i j) &&
          !(v.1 == 0)) = true then [v.1] else []) =
        if v.2 = i * n + j then [v.1].filter fun v => !(v == 0) else [] := by
    intro v
    simp only [div_mod_eq_place]
    by_cases hplace : v.2 = i * n + j <;> by_cases hzero : v.1 == 0 <;> simp [hplace, hzero]
  rw [hentries, valuesAt_entriesInRange, List.filter_map, List.map_map, List.filter_filter,
    map_filter_eq_flatMap]
  refine (congrArg (List.flatMap · _) (funext hvalue)).trans ?_
  rw [flatMap_zipIdx_eq (fun v k => if k = i * n + j then [v].filter fun v => !(v == 0) else [])
    values 0 (i * n + j) fun v k hk => if_neg (by omega), nonzeroAt]
  cases values[i * n + (j : Nat)]? <;> simp

end Dense

/-! ### Compressed lines -/

theorem runningTotals_eq_cons (total : Nat) (lengths : List Nat) :
    ∃ later, runningTotals total lengths = total :: later := by
  cases lengths with
  | nil => exact ⟨_, rfl⟩
  | cons length rest => exact ⟨_, rfl⟩

theorem lineOfIndices_runningTotals (line total : Nat) (lengths : List Nat) :
    lineOfIndices line ((runningTotals total lengths).map Int.ofNat) =
      (lengths.zipIdx line).flatMap fun l => List.replicate l.1 l.2 := by
  induction lengths generalizing line total with
  | nil => rfl
  | cons length rest ih =>
    obtain ⟨later, hlater⟩ := runningTotals_eq_cons (total + length) rest
    have hrest := ih (line + 1) (total + length)
    rw [hlater, List.map_cons] at hrest
    rw [runningTotals, hlater, List.map_cons, List.map_cons, lineOfIndices, hrest,
      List.zipIdx_cons, List.flatMap_cons]
    congr 2
    simp

/-- The entries of lines with the number of their line. -/
def numbered (line : Nat) (lines : List (List (Fin n × α))) : List ((Int × Int) × α) :=
  (lines.zipIdx line).flatMap fun l => l.1.map fun t => (((l.2 : Int), ((t.1 : Nat) : Int)), t.2)

theorem numbered_cons (line : Nat) (row : List (Fin n × α)) (rest : List (List (Fin n × α))) :
    numbered line (row :: rest) =
      row.map (fun t => (((line : Int), ((t.1 : Nat) : Int)), t.2)) ++
        numbered (line + 1) rest := by
  rw [numbered, List.zipIdx_cons, List.flatMap_cons]
  rfl

theorem zip_replicate (line : Nat) (row : List (Fin n × α)) :
    (((List.replicate row.length line).map Int.ofNat).zip
        (row.map fun t => ((t.1 : Nat) : Int))).zip (row.map (·.2)) =
      row.map fun t => (((line : Int), ((t.1 : Nat) : Int)), t.2) := by
  induction row with
  | nil => rfl
  | cons t rest ih => exact congrArg (_ :: ·) ih

theorem zip_lineOfIndices (line total : Nat) (lines : List (List (Fin n × α)))
    (spare : List (Int × α)) :
    ((((lineOfIndices line ((runningTotals total (lines.map List.length)).map Int.ofNat)).map
        Int.ofNat).zip (lines.flatten.map (fun t => ((t.1 : Nat) : Int)) ++ spare.map (·.1))).zip
      (lines.flatten.map (·.2) ++ spare.map (·.2))) = numbered line lines := by
  rw [lineOfIndices_runningTotals]
  induction lines generalizing line with
  | nil => rfl
  | cons row rest ih =>
    rw [List.map_cons, List.zipIdx_cons, List.flatMap_cons, List.flatten_cons, List.map_append,
      List.map_append, List.map_append, List.append_assoc, List.append_assoc, List.zip_append,
      List.zip_append, ih, zip_replicate, numbered_cons]
    · simp
    · simp

theorem filter_numbered (lines : Rows α m n) (i : Fin m) (j : Fin n) :
    ((numbered 0 lines.toList).filter fun p => p.1 = place i j).map (·.2) =
      valuesIn (lines.get i) j := by
  rw [numbered, List.filter_flatMap, List.map_flatMap]
  refine (flatMap_zipIdx_eq (fun row k => ((row.map fun t => (((k : Int), ((t.1 : Nat) : Int)),
    t.2)).filter fun p => p.1 = place i j).map (·.2)) lines.toList 0 i ?_).trans ?_
  · intro row k hk
    rw [List.filter_eq_nil_iff.mpr, List.map_nil]
    intro p hp
    obtain ⟨t, -, rfl⟩ := List.mem_map.mp hp
    have hne : (k : Int) ≠ (i : Nat) := by omega
    simp [place, hne]
  · rw [Vector.getElem?_toList, Vector.getElem?_eq_getElem i.isLt, Option.map_some,
      Option.getD_some, List.filter_map, List.map_map, valuesIn, Nat.zero_add]
    apply congrArg (List.map _)
    apply List.filter_congr
    intro t _
    simp [place, Fin.ext_iff]

theorem filter_numbered_swap (lines : Rows α m n) (i : Fin m) (j : Fin n) :
    (((numbered 0 lines.toList).map fun p => (p.1.swap, p.2)).filter
        fun p => p.1 = place j i).map (·.2) = valuesIn (lines.get i) j := by
  have hswap : ∀ p : Int × Int, p.swap = place j i ↔ p = place i j := fun p =>
    Prod.swap_inj (p := p) (q := place i j)
  rw [List.filter_map, List.map_map, ← filter_numbered]
  apply congrArg (List.map _)
  apply List.filter_congr
  intro p _
  simp only [Function.comp_apply, hswap]

/-! ### Reading -/

theorem checkAxis_eq_ok (axis : Axis) {size : Nat} {indices : List Int}
    (h : ∀ k ∈ indices, 0 ≤ k ∧ k < size) : checkAxis axis size indices = .ok () := by
  unfold checkAxis
  split
  · next high low hhigh hlow =>
    rw [if_neg (not_le.mpr (h high (List.max?_mem hhigh)).2),
      if_neg (not_lt.mpr (h low (List.min?_mem hlow)).1)]
  · rfl

theorem coordinateListing_eq_ok (positions : List (Int × Int)) (values : List α)
    (h : ∀ p ∈ positions, (0 ≤ p.1 ∧ p.1 < m) ∧ 0 ≤ p.2 ∧ p.2 < n) :
    coordinateListing m n positions values =
      .ok ⟨m, n, entriesInRange m n (positions.zip values)⟩ := by
  have hrow : checkAxis .row m (positions.map (·.1)) = .ok () :=
    checkAxis_eq_ok _ (List.forall_mem_map.mpr fun p hp => (h p hp).1)
  have hcolumn : checkAxis .column n (positions.map (·.2)) = .ok () :=
    checkAxis_eq_ok _ (List.forall_mem_map.mpr fun p hp => (h p hp).2)
  rw [coordinateListing, hrow, hcolumn]
  rfl

theorem checkSizes_natCast (m n : Nat) : checkSizes m n = .ok (m, n) := by
  simp [checkSizes]

theorem checkWords_eq_ok {indices : List Int} (h : ∀ k ∈ indices, fitsWord k = true) :
    checkWords indices = .ok () := by
  rw [checkWords, if_pos (List.all_eq_true.mpr h)]

theorem length_runningTotals (total : Nat) (lengths : List Nat) :
    (runningTotals total lengths).length = lengths.length + 1 := by
  induction lengths generalizing total with
  | nil => rfl
  | cons length rest ih => rw [runningTotals, List.length_cons, ih, List.length_cons]

theorem getLastD_runningTotals (total : Nat) (lengths : List Nat) (d : Int) :
    ((runningTotals total lengths).map Int.ofNat).getLastD d = (total + lengths.sum : Nat) := by
  induction lengths generalizing total d with
  | nil => rfl
  | cons length rest ih =>
    rw [runningTotals, List.map_cons, List.getLastD_cons, ih, List.sum_cons, Nat.add_assoc]

theorem mem_numbered {lines : Rows α m n} {p : (Int × Int) × α} (h : p ∈ numbered 0 lines.toList) :
    (0 ≤ p.1.1 ∧ p.1.1 < m) ∧ 0 ≤ p.1.2 ∧ p.1.2 < n := by
  obtain ⟨l, hl, hp⟩ := List.mem_flatMap.mp h
  obtain ⟨t, -, rfl⟩ := List.mem_map.mp hp
  have hlt := List.snd_lt_of_mem_zipIdx hl
  have hcolumn := t.1.isLt
  simp only [Vector.length_toList] at hlt
  dsimp only
  omega

/-- The whole numbers of a matrix that have to be words. -/
def Given.indices : Given α → List Int
  | array _ => []
  | dense _ => []
  | coordinate _ _ rows columns _ => rows ++ columns
  | compressed _ _ _ pointers indices _ => indices ++ pointers

section Compressed

variable (lines : Rows α m n) (spare : List (Int × α))

/-- The arrays of a compressed matrix. -/
def Rows.pointers : List Int := lines.compress.pointers.map Int.ofNat

def Rows.indices : List Int :=
  lines.compress.indices.map (fun j : Fin n => ((j : Nat) : Int)) ++ spare.map (·.1)

def Rows.values : List α := lines.compress.values.toList ++ spare.map (·.2)

theorem Rows.indices_eq : lines.indices spare =
    lines.toList.flatten.map (fun t => ((t.1 : Nat) : Int)) ++ spare.map (·.1) := by
  rw [Rows.indices, Rows.compress, List.map_map]
  rfl

theorem Rows.length_indices : (lines.indices spare).length = (lines.values spare).length := by
  rw [Rows.indices_eq, Rows.values, Rows.compress]
  simp only [List.length_append, List.length_map]

theorem Rows.zip_owners : (((lineOfIndices 0 lines.pointers).map Int.ofNat).zip
    (lines.indices spare)).zip (lines.values spare) = numbered 0 lines.toList := by
  rw [Rows.indices_eq]
  exact zip_lineOfIndices 0 0 lines.toList spare

theorem Rows.owners_zip_indices : ((lineOfIndices 0 lines.pointers).map Int.ofNat).zip
    (lines.indices spare) = (numbered 0 lines.toList).map (·.1) := by
  rw [← lines.zip_owners spare, List.map_fst_zip]
  rw [List.length_zip, Rows.length_indices]
  exact Nat.min_le_right _ _

theorem Rows.length_pointers : lines.pointers.length = m + 1 := by
  simp [Rows.pointers, Rows.compress, length_runningTotals]

theorem Rows.head?_pointers : lines.pointers.head? = some 0 := by
  obtain ⟨later, hlater⟩ := runningTotals_eq_cons 0 (lines.toList.map List.length)
  rw [Rows.pointers, Rows.compress, hlater]
  rfl

theorem Rows.getLastD_pointers_le : lines.pointers.getLastD 0 ≤ (lines.values spare).length := by
  rw [Rows.pointers, Rows.compress, getLastD_runningTotals, ← List.length_flatten, Rows.values,
    Rows.compress, List.length_append, List.length_map]
  omega

/-- The arrays pass the checks of a compressed matrix. -/
theorem Rows.compressedListing_eq (major : Axis) (height width : Nat) :
    (match major with
      | .row => height
      | .column => width) = m →
    compressedListing major height width lines.pointers (lines.indices spare)
        (lines.values spare) =
      coordinateListing height width
        (match major with
          | .row => ((lineOfIndices 0 lines.pointers).map Int.ofNat).zip (lines.indices spare)
          | .column => (lines.indices spare).zip ((lineOfIndices 0 lines.pointers).map Int.ofNat))
        (lines.values spare) := by
  intro hlines
  have hcount : lines.pointers.length = _ + 1 :=
    lines.length_pointers.trans (congrArg (· + 1) hlines.symm)
  unfold compressedListing
  exact (if_neg (not_not.mpr hcount)).trans ((if_neg (not_not.mpr lines.head?_pointers)).trans
    ((if_neg (not_not.mpr (lines.length_indices spare))).trans
      (if_neg (not_lt.mpr (lines.getLastD_pointers_le spare)))))

theorem Rows.compressedListing_row :
    compressedListing .row m n lines.pointers (lines.indices spare) (lines.values spare) =
      .ok ⟨m, n, entriesInRange m n (numbered 0 lines.toList)⟩ := by
  have hread := coordinateListing_eq_ok ((numbered 0 lines.toList).map (·.1)) (lines.values spare)
    (List.forall_mem_map.mpr fun p hp => mem_numbered hp)
  rw [← lines.owners_zip_indices spare, lines.zip_owners] at hread
  exact (lines.compressedListing_eq spare .row m n rfl).trans hread

theorem Rows.compressedListing_column :
    compressedListing .column n m lines.pointers (lines.indices spare) (lines.values spare) =
      .ok ⟨n, m, entriesInRange n m ((numbered 0 lines.toList).map fun p => (p.1.swap, p.2))⟩ := by
  have hzip : ((lines.indices spare).zip ((lineOfIndices 0 lines.pointers).map Int.ofNat)).zip
      (lines.values spare) = (numbered 0 lines.toList).map fun p => (p.1.swap, p.2) := by
    rw [← List.zip_swap ((lineOfIndices 0 lines.pointers).map Int.ofNat), List.zip_map_left,
      lines.zip_owners]
    rfl
  have hpositions : (lines.indices spare).zip ((lineOfIndices 0 lines.pointers).map Int.ofNat) =
      (numbered 0 lines.toList).map fun p => p.1.swap := by
    rw [← List.zip_swap, lines.owners_zip_indices, List.map_map]
    rfl
  have hread := coordinateListing_eq_ok ((numbered 0 lines.toList).map fun p => p.1.swap)
    (lines.values spare)
    (List.forall_mem_map.mpr fun p hp => (mem_numbered hp).symm)
  rw [← hpositions, hzip] at hread
  exact (lines.compressedListing_eq spare .column n m rfl).trans hread

end Compressed

/-- Lines of entries as a compressed matrix of this size. Entries may stand behind the last line. -/
def Rows.given {lines minor : Nat} (rows : Rows α lines minor) (major : Axis) (height width : Nat)
    (spare : List (Int × α)) : Given α :=
  .compressed major height width rows.pointers (rows.indices spare) (rows.values spare)

/-- Coordinates of entries. -/
def coordinates (entries : List (Entry α m n)) : Given α :=
  .coordinate m n (entries.map fun e => ((e.row : Nat) : Int))
    (entries.map fun e => ((e.column : Nat) : Int)) (entries.map (·.value))

/-- The shapes of the arrays that are matrices of some height and width. -/
inductive IsMatrixShape : List Nat → (m n : Nat) → Prop
  | number : IsMatrixShape [] 1 1
  | line (width : Nat) : IsMatrixShape [width] 1 width
  | grid (height width : Nat) : IsMatrixShape [height, width] height width

/-- A well-formed matrix of some height and width, and the values that it gives at each position, in
order. The zeros of an array are no values, and neither are those of a nest. Only an array can have
columns without having rows; a nest without rows is a line. -/
inductive Given.Describes [Scalar α] : Given α → (m n : Nat) → (Fin m → Fin n → List α) → Prop
  | array {m n : Nat} {a : DenseArray α} (h : IsMatrixShape a.shape m n) :
      Describes (.array a) m n fun i j => nonzeroAt a.values (i * n + j)
  | grid (first : List α) (rest : List (List α))
      (hwidth : ∀ row ∈ rest, row.length = first.length) :
      Describes (.dense (.ofGrid (first :: rest))) (rest.length + 1) first.length
        fun i j => nonzeroAt (first :: rest)[i] j
  | line (values : List α) :
      Describes (.dense (.ofLine values)) 1 values.length fun _ j => nonzeroAt values j
  | coordinate {m n : Nat} (entries : List (Entry α m n)) :
      Describes (coordinates entries) m n (valuesAt entries)
  | rows {m n : Nat} (lines : Rows α m n) (spare : List (Int × α)) :
      Describes (lines.given .row m n spare) m n fun i j => valuesIn (lines.get i) j
  | columns {m n : Nat} (lines : Rows α n m) (spare : List (Int × α)) :
      Describes (lines.given .column m n spare) m n fun i j => valuesIn (lines.get j) i

section Listing

variable [Scalar α]

theorem arrayListing_eq_ok {a : DenseArray α} (h : IsMatrixShape a.shape m n) :
    arrayListing a = .ok ⟨m, n, denseEntries m n a.values⟩ := by
  obtain ⟨shape, values, hlength⟩ := a
  cases h <;> rfl

theorem listing_dense {nest : Nested α} {shape : List Nat} (hshape : nest.shape = .ok shape)
    (h : IsMatrixShape shape m n) :
    (Given.dense nest).listing = .ok ⟨m, n, denseEntries m n nest.leaves⟩ := by
  rw [Given.listing, Nested.toArray_eq_ok hshape]
  exact arrayListing_eq_ok (a := ⟨shape, nest.leaves, _⟩) h

theorem listing_compressed {major : Axis} {pointers indices : List Int} {values : List α}
    (hwords : ∀ k ∈ (Given.compressed major m n pointers indices values).indices,
      fitsWord k = true) :
    (Given.compressed major m n pointers indices values).listing =
      compressedListing major m n pointers indices values := by
  simp only [Given.indices] at hwords
  rw [Given.listing, checkWords_eq_ok hwords, checkSizes_natCast]
  rfl

theorem listing_coordinates (entries : List (Entry α m n))
    (hwords : ∀ k ∈ (coordinates entries).indices, fitsWord k = true) :
    (coordinates entries).listing = .ok ⟨m, n, entries⟩ := by
  have hpositions : (entries.map fun e => ((e.row : Nat) : Int)).zip
      (entries.map fun e => ((e.column : Nat) : Int)) =
      entries.map fun e => place e.row e.column := List.zip_map'
  have hall : entriesInRange m n
      ((entries.map fun e => place e.row e.column).zip (entries.map (·.value))) = entries := by
    rw [List.zip_map', entriesInRange, List.filterMap_map]
    refine (List.filterMap_congr fun e _ => ?_).trans List.filterMap_some
    exact entry?_place e.row e.column e.value
  have hrange : ∀ p ∈ entries.map fun e => place e.row e.column,
      (0 ≤ p.1 ∧ p.1 < m) ∧ 0 ≤ p.2 ∧ p.2 < n := by
    refine List.forall_mem_map.mpr fun e _ => ?_
    have hrow := e.row.isLt
    have hcolumn := e.column.isLt
    simp only [place]
    omega
  have hread := coordinateListing_eq_ok _ (entries.map (·.value)) hrange
  rw [hall] at hread
  simp only [coordinates, Given.indices] at hwords ⊢
  rw [Given.listing, checkSizes_natCast, checkWords_eq_ok hwords, hpositions]
  simp only [bind, Except.bind, List.length_map, and_self, if_true]
  exact hread

end Listing

/-- A matrix that is well formed is read, and each position has the values that are given for it. -/
theorem Given.Describes.exists_listing [Scalar α] {g : Given α} {m n : Nat}
    {given : Fin m → Fin n → List α} (h : g.Describes m n given)
    (hwords : ∀ k ∈ g.indices, fitsWord k = true) :
    ∃ entries, g.listing = .ok ⟨m, n, entries⟩ ∧ ∀ i j, valuesAt entries i j = given i j := by
  cases h with
  | array h => exact ⟨_, arrayListing_eq_ok h, valuesAt_denseEntries _⟩
  | grid first rest hwidth =>
    refine ⟨_, listing_dense (Nested.shape_ofGrid first hwidth) (.grid _ _), fun i j => ?_⟩
    have hrow := List.getElem?_eq_getElem (l := first :: rest) i.isLt
    have hall : ∀ row ∈ first :: rest, row.length = first.length :=
      List.forall_mem_cons.mpr ⟨rfl, hwidth⟩
    rw [valuesAt_denseEntries, Nested.leaves_ofGrid, nonzeroAt,
      getElem?_flatten_mul_add hall hrow j.isLt]
    rfl
  | line values =>
    refine ⟨_, listing_dense (Nested.shape_ofLine values) (.line _), fun i j => ?_⟩
    rw [valuesAt_denseEntries, Nested.leaves_ofLine, Fin.fin_one_eq_zero i]
    simp
  | coordinate entries => exact ⟨entries, listing_coordinates entries hwords, fun _ _ => rfl⟩
  | rows lines spare =>
    refine ⟨entriesInRange m n (numbered 0 lines.toList), ?_, fun i j => ?_⟩
    · exact (listing_compressed hwords).trans (lines.compressedListing_row spare)
    · rw [valuesAt_entriesInRange, filter_numbered]
  | columns lines spare =>
    refine ⟨entriesInRange m n ((numbered 0 lines.toList).map fun p => (p.1.swap, p.2)), ?_,
      fun i j => ?_⟩
    · exact (listing_compressed hwords).trans (lines.compressedListing_column spare)
    · rw [valuesAt_entriesInRange, filter_numbered_swap]

end Sparse

end CoefficientTightening
