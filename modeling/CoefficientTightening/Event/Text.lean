import CoefficientTightening.Decimal.Double
import CoefficientTightening.Event
import CoefficientTightening.Log.Console

/-! The wording of events on doubles, and the level and source under which each is logged. -/
namespace CoefficientTightening.Event

def level : Event Float → Log.Level
  | coefficientChanged .. => .debug
  | _ => .info

def source : Event Float → String
  | coefficientChanged .. | passFinished .. => "coeff_strengthening"
  | _ => "engine"

def message : Event Float → String
  | coefficientChanged row column old new bound =>
    s!"Row {row} col {column}: coefficient {Decimal.briefText old} -> {Decimal.briefText new}, " ++
      s!"bound -> {Decimal.briefText bound}"
  | passFinished presolver coefficients =>
    s!"{presolver}: strengthened {coefficients} coefficients"
  | roundStarted number => s!"Presolve Round {number}"
  | presolverReported presolver reductions => s!"  {presolver}: {reductions} reductions"
  | nothingLeft => "  No more applicable reductions."
  | summaryStarted => "Presolve complete. Reductions applied:"
  | summaryLine kind count => s!"{kind}: {count}"

def record (e : Event Float) : Log.Record := ⟨e.level, e.source, e.message⟩

end CoefficientTightening.Event
