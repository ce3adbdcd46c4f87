import CoefficientTightening.Instance
import CoefficientTightening.Text.Layout

/-! The tables that a run prints: the sizes of an instance, the same before and after presolving,
and the number of reductions of each kind. -/
namespace CoefficientTightening

namespace Statistics

/-- The sizes as running text. -/
def overview (s : Statistics) : String :=
  Text.unlines [
    s!"This model has {s.vars} variables, {s.constraints} constraints " ++
      s!"and {s.nonzeros} nonzeros",
    "",
    "=== Variables ===",
    s!"Total binary variables: {s.binary}",
    s!"Total integer variables: {s.integer}",
    s!"Total continuous variables: {s.continuous}"]

def row (label : String) (before after : String) : String :=
  s!"{Text.padRight 20 label} | {Text.padLeft 12 before} | {Text.padLeft 12 after}"

/-- Two columns of sizes side by side. -/
def comparison (before after : Statistics) : String :=
  let sizes (label : String) (size : Statistics → Int) : String :=
    row label s!"{size before}" s!"{size after}"
  Text.unlines [
    "",
    "📊 Model Statistics Comparison:",
    row "" "Original" "Presolved",
    Text.rule 50,
    sizes "Constraints" Statistics.constraints,
    sizes "Nonzeros" Statistics.nonzeros,
    sizes "Total Variables" Statistics.vars,
    sizes "  - Binary" Statistics.binary,
    sizes "  - Integer" Statistics.integer,
    sizes "  - Continuous" Statistics.continuous,
    Text.rule 50]

end Statistics

namespace Tally

def table (t : Tally) : String :=
  let line (label count : String) : String := s!"{Text.padRight 25 label} | {count}"
  Text.unlines <|
    ["", "Reduction Summary:", line "Reduction Type" "Count", Text.rule 40] ++
      (t.map fun entry => line entry.1 s!"{entry.2}") ++ [Text.rule 40]

end Tally

end CoefficientTightening
