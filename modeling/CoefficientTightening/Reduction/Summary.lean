import CoefficientTightening.Reduction

/-! How many reductions of each kind there are, in the order in which the kinds first appear. -/
namespace CoefficientTightening

/-- Counts by name, in order of first appearance. -/
abbrev Tally := List (String × Int)

namespace Tally

/-- Set the count of a name, at its place if it is there and at the end if not. -/
def put (name : String) (count : Int) : Tally → Tally
  | [] => [(name, count)]
  | (other, old) :: rest =>
    if other = name then (name, count) :: rest else (other, old) :: put name count rest

def get (name : String) : Tally → Int
  | [] => 0
  | (other, count) :: rest => if other = name then count else get name rest

def increment (t : Tally) (name : String) : Tally :=
  t.put name (t.get name + 1)

/-- Later counts of a name replace earlier ones. -/
def ofList (pairs : List (String × Int)) : Tally :=
  pairs.foldl (fun t p => t.put p.1 p.2) []

theorem get_put (t : Tally) (name other : String) (count : Int) :
    (t.put name count).get other = if name = other then count else t.get other := by
  induction t with
  | nil => by_cases h : name = other <;> simp [put, get, h]
  | cons p rest ih =>
    obtain ⟨key, old⟩ := p
    by_cases hk : key = name
    · subst hk; by_cases h : key = other <;> simp [put, get, h]
    · simp only [put, hk, if_false, get, ih]
      by_cases h : key = other
      · subst h; simp [Ne.symm hk]
      · simp [h]

end Tally

def Reduction.summary {α : Type} (reductions : List (Reduction α)) : Tally :=
  reductions.foldl (fun t r => t.increment r.kind) []

end CoefficientTightening
