import CoefficientTightening.Log.Level
import CoefficientTightening.Text.Layout

/-! Where log messages go. A console passes on what reaches its threshold, once it is attached;
setting it up again replaces the former attachment, and a bad threshold changes nothing. -/
namespace CoefficientTightening.Log

structure Record where
  level : Level
  /-- The part of the program that speaks. -/
  source : String
  message : String
  deriving DecidableEq, Repr

structure Console where
  threshold : Int
  attached : Bool
  deriving DecidableEq, Repr

namespace Console

/-- Before any set-up. -/
def initial : Console := ⟨50, false⟩

def defaultLevel : Datum Float := .text "INFO"

def setUp (_ : Console) (level : Datum Float) : Except BadThreshold Console := do
  return ⟨← Log.threshold level, true⟩

/-- Attached, with a level as threshold. -/
def ofLevel (level : Level) : Console := ⟨level.number, true⟩

theorem setUp_name (c : Console) (level : Level) :
    c.setUp (.text level.name) = .ok (ofLevel level) := by
  cases level <;> rfl

/-- Nothing below this level is ever shown. -/
def floor : Level := .debug

def shows (c : Console) (level : Level) : Bool :=
  c.attached && c.threshold ≤ level.number && floor.number ≤ level.number

/-- One line: time, level, source and message. -/
def line (time : String) (r : Record) : String :=
  s!"[{time}] [{Text.padRight 8 r.level.name}] [{Text.padRight 20 r.source}] - {r.message}\n"

/-- The lines shown for some records. -/
def render (c : Console) (time : String) (records : List Record) : String :=
  String.join ((records.filter fun r => c.shows r.level).map (line time))

end Console

end CoefficientTightening.Log
