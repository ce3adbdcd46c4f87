import CoefficientTightening.Datum
import CoefficientTightening.Text.Upper

/-! Levels of log messages, and thresholds as a caller may give them: by name in any case, or by
number. -/
namespace CoefficientTightening.Log

inductive Level where
  | debug | info | warning | error | critical
  deriving DecidableEq, Repr

namespace Level

def number : Level → Int
  | debug => 10
  | info => 20
  | warning => 30
  | error => 40
  | critical => 50

def name : Level → String
  | debug => "DEBUG"
  | info => "INFO"
  | warning => "WARNING"
  | error => "ERROR"
  | critical => "CRITICAL"

end Level

/-- Names that a threshold may have. -/
def thresholds : List (String × Int) := [
  ("CRITICAL", 50), ("FATAL", 50), ("ERROR", 40), ("WARNING", 30), ("WARN", 30), ("INFO", 20),
  ("DEBUG", 10), ("NOTSET", 0)]

inductive BadThreshold where
  | unknown (name : String)
  /-- Neither a number nor a name; how the value is shown. -/
  | kind (shown : String)
  deriving DecidableEq, Repr

def BadThreshold.message : BadThreshold → String
  | unknown name => s!"Unknown level: {Text.quoted name}"
  | kind shown => s!"Level not an integer or a valid string: {shown}"

def threshold (level : Datum Float) : Except BadThreshold Int :=
  match level with
  | .text name =>
    match thresholds.lookup (Text.upper name) with
    | some number => .ok number
    | none => .error (.unknown (Text.upper name))
  | level =>
    match level.asInt? with
    | some number => .ok number
    | none => .error (.kind level.quoted)

end CoefficientTightening.Log
