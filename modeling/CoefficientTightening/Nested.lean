import CoefficientTightening.Text.Layout

/-! Numbers in nested lists and the shape they have. A shape exists when all lists of one depth
have one length and no list lies deeper than an array may have dimensions. Otherwise either the
lengths shared up to the first difference are reported, or that the nest is too deep. -/
namespace CoefficientTightening

inductive Nested (β : Type) where
  | leaf (value : β)
  | list (items : List (Nested β))
  deriving Inhabited

namespace Nested

variable {β : Type}

/-- Greatest depth of a nest with a shape. -/
def maxDepth : Nat := 64

/-- What is known of a nest after some of its parts have been seen: the lengths of its lists by
depth, `none` as long as no part has ended within the greatest depth, and whether all parts fit. -/
structure Outline where
  lengths : Option (List Nat)
  even : Bool
  deriving DecidableEq, Repr

namespace Outline

/-- A value stands here: nothing lies deeper. -/
def close (o : Outline) : Outline :=
  ⟨some [], o.even && o.lengths.all List.isEmpty⟩

/-- The outline of a list of this length from that of its items. -/
def under (length : Nat) (o : Outline) : Outline :=
  { o with lengths := o.lengths.map (length :: ·) }

end Outline

mutual

/-- Go through a nest that may be `left` lists deep. The first part that ends fixes the lengths;
each later one cuts them where it differs. -/
def survey (left : Nat) (o : Outline) : Nested β → Outline
  | leaf _ => o.close
  | list items =>
    match left, o.lengths with
    | 0, _ => { o with even := false }
    | _ + 1, some [] => { o with even := false }
    | left + 1, some (length :: deeper) =>
      if items.length = length then (surveyAll left ⟨some deeper, o.even⟩ items).under length
      else ⟨some [], false⟩
    | left + 1, none =>
      (surveyAll left ⟨if items.isEmpty then some [] else none, o.even⟩ items).under items.length

def surveyAll (left : Nat) (o : Outline) : List (Nested β) → Outline
  | [] => o
  | item :: rest => surveyAll left (item.survey left o) rest

end

mutual

def leaves : Nested β → List β
  | leaf value => [value]
  | list items => leavesAll items

def leavesAll : List (Nested β) → List β
  | [] => []
  | item :: rest => item.leaves ++ leavesAll rest

end

def shapeText (shape : List Nat) : String :=
  Text.parenthesized (shape.map fun n => s!"{n}")

end Nested

/-- Why a nest has no shape. -/
inductive Shapeless where
  /-- Its lists differ in length; those in front of the first difference are given. -/
  | uneven (lengths : List Nat)
  | tooDeep
  deriving DecidableEq, Repr

def Shapeless.message : Shapeless → String
  | uneven lengths =>
    "setting an array element with a sequence. The requested array has an inhomogeneous shape "
      ++ s!"after {lengths.length} dimensions. The detected shape was {Nested.shapeText lengths} + "
      ++ "inhomogeneous part."
  | tooDeep =>
    "setting an array element with a sequence. The requested array would exceed the maximum number "
      ++ s!"of dimension of {Nested.maxDepth}."

def Nested.shape {β : Type} (nest : Nested β) : Except Shapeless (List Nat) :=
  let o := nest.survey maxDepth ⟨none, true⟩
  match o.lengths with
  | none => .error .tooDeep
  | some lengths =>
    if o.even then .ok lengths
    else if lengths.length = maxDepth then .error .tooDeep
    else .error (.uneven lengths)

/-! ### The number of values -/

/-- How many values an array of this shape has. -/
def shapeSize : List Nat → Nat
  | [] => 1
  | length :: inner => length * shapeSize inner

namespace Nested

variable {β : Type}

/-- Parts that fit what was known before them have these lengths. -/
structure Outline.Fits (before after : Outline) (lengths : List Nat) : Prop where
  even : before.even = true
  found : after.lengths = some lengths
  known : before.lengths = none ∨ before.lengths = some lengths

/-- What is found of a list below its own length. -/
theorem Outline.Fits.under {o after : Outline} {before : Option (List Nat)} {length : Nat}
    {deeper : List Nat} (h : Outline.Fits ⟨before, o.even⟩ after deeper)
    (hknown : o.lengths = none ∨ ∃ known, before = some known ∧ o.lengths = some (length :: known)) :
    o.Fits (after.under length) (length :: deeper) where
  even := h.even
  found := by rw [Outline.under, h.found]; rfl
  known := by
    rcases hknown with hnone | ⟨known, hbefore, hlengths⟩
    · exact .inl hnone
    · obtain hnone | hsome := h.known
      · rw [hbefore] at hnone
        cases hnone
      · rw [hbefore] at hsome
        obtain rfl : known = deeper := Option.some.inj hsome
        exact .inr hlengths

mutual

/-- A nest whose parts all fit has lengths, those known before if there were any, and as many values
as they make. -/
theorem exists_fits_survey (left : Nat) (o : Outline) :
    (nest : Nested β) → (nest.survey left o).even = true →
      ∃ lengths, o.Fits (nest.survey left o) lengths ∧ nest.leaves.length = shapeSize lengths
  | leaf _, heven => by
    obtain ⟨lengths, even⟩ := o
    simp only [survey, Outline.close, Bool.and_eq_true] at heven ⊢
    refine ⟨[], ⟨heven.1, rfl, ?_⟩, rfl⟩
    cases lengths with
    | none => exact .inl rfl
    | some known => exact .inr (congrArg some (List.isEmpty_iff.mp heven.2))
  | list items, heven => by
    obtain ⟨lengths, even⟩ := o
    match left, lengths with
    | 0, _ => cases heven
    | _ + 1, some [] => cases heven
    | left + 1, some (length :: deeper) =>
      simp only [survey] at heven ⊢
      split at heven
      · next hlength =>
        obtain ⟨lengths, hfits, hcount⟩ :=
          exists_fits_surveyAll left ⟨some deeper, even⟩ items (fun _ => Option.some_ne_none _) heven
        rw [if_pos hlength]
        exact ⟨_, hfits.under (.inr ⟨deeper, rfl, rfl⟩), hlength ▸ hcount⟩
      · cases heven
    | left + 1, none =>
      obtain ⟨lengths, hfits, hcount⟩ :=
        exists_fits_surveyAll left ⟨if items.isEmpty then some [] else none, even⟩ items
          (fun hnil => by simp [hnil]) heven
      exact ⟨_, hfits.under (.inl rfl), hcount⟩

theorem exists_fits_surveyAll (left : Nat) (o : Outline) :
    (items : List (Nested β)) → (items = [] → o.lengths ≠ none) →
      (surveyAll left o items).even = true →
      ∃ lengths, o.Fits (surveyAll left o items) lengths ∧
        (leavesAll items).length = items.length * shapeSize lengths
  | [], hknown, heven => by
    obtain ⟨lengths, hlengths⟩ := Option.ne_none_iff_exists'.mp (hknown rfl)
    exact ⟨lengths, ⟨heven, hlengths, .inr hlengths⟩, (Nat.zero_mul _).symm⟩
  | item :: rest, _, heven => by
    -- with nothing behind it, the item alone has to fix the lengths
    have hlast : rest = [] → (item.survey left o).lengths ≠ none := by
      rintro rfl
      obtain ⟨lengths, hitem, -⟩ := exists_fits_survey left o item heven
      rw [hitem.found]
      exact Option.some_ne_none _
    obtain ⟨lengths, hrest, hcount⟩ :=
      exists_fits_surveyAll left (item.survey left o) rest hlast heven
    obtain ⟨lengths', hitem, hcount'⟩ := exists_fits_survey left o item hrest.even
    obtain rfl : lengths' = lengths := by
      have hfound := hrest.known
      rw [hitem.found] at hfound
      exact Option.some.inj (hfound.resolve_left (Option.some_ne_none _))
    refine ⟨lengths', ⟨hitem.even, hrest.found, hitem.known⟩, ?_⟩
    rw [leavesAll, List.length_append, hcount, hcount', List.length_cons, Nat.succ_mul,
      Nat.add_comm]

end

/-- A nest with a shape has as many values as its shape says. -/
theorem length_leaves {nest : Nested β} {lengths : List Nat} (h : nest.shape = .ok lengths) :
    nest.leaves.length = shapeSize lengths := by
  simp only [shape] at h
  split at h
  · cases h
  · next found hfound =>
    split at h
    · next heven =>
      obtain ⟨lengths', hfits, hcount⟩ := exists_fits_survey maxDepth ⟨none, true⟩ nest heven
      obtain rfl : found = lengths := Except.ok.inj h
      obtain rfl : lengths' = found := Option.some.inj (hfits.found.symm.trans hfound)
      exact hcount
    · split at h <;> cases h

end Nested

end CoefficientTightening
