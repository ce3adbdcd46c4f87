/-! Kinds of variables and their one-letter tags. Everything that is not continuous takes whole
values only; a tag outside the three known ones can be set, but no formulation is built with it. -/
namespace CoefficientTightening

inductive VarKind where
  | continuous
  | integer
  | binary
  | other (tag : String)
  deriving DecidableEq, Repr

namespace VarKind

def ofTag (tag : String) : VarKind :=
  if tag = "C" then continuous else if tag = "I" then integer else if tag = "B" then binary
  else other tag

def tag : VarKind → String
  | continuous => "C"
  | integer => "I"
  | binary => "B"
  | other tag => tag

theorem tag_ofTag (tag : String) : (ofTag tag).tag = tag := by
  unfold ofTag
  split
  · next h => exact h.symm
  · split
    · next h => exact h.symm
    · split
      · next h => exact h.symm
      · rfl

def isIntegral (kind : VarKind) : Bool :=
  kind != continuous

def isKnown (kind : VarKind) : Bool :=
  kind == continuous || kind == integer || kind == binary

/-- The tags of the kinds that are not known, each once, in increasing order. -/
def unknownTags (kinds : List VarKind) : List String :=
  (((kinds.filter fun k => !k.isKnown).map tag).mergeSort fun a b => decide (a ≤ b)).eraseReps

end VarKind

end CoefficientTightening
