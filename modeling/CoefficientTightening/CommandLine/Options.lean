import CoefficientTightening.CommandLine.Word
import CoefficientTightening.Rounds
import CoefficientTightening.Log.Level
import CoefficientTightening.Text.Numeral

/-! Options of the command, read from its words from left to right. The first plain word that no
flag takes is the path of the instance; a flag given twice keeps its last value; the first word that
cannot be used in its place ends the reading. Words left over are reported only when nothing else
is wrong. -/
namespace CoefficientTightening.CommandLine

/-- What a flag was given: a value, or nothing by a bare mark attached to it, as in `--output=--`. -/
inductive Setting (β : Type) where
  | value (value : β)
  | nothing
  deriving DecidableEq, Repr

def Setting.value? {β : Type} : Setting β → Option β
  | value v => some v
  | nothing => none

structure Options where
  path : String
  maxRounds : Setting Int
  validate : Bool
  /-- Left out when there is no such flag. -/
  output : Option (Setting String)
  logLevel : Setting Log.Level
  deriving DecidableEq, Repr

/-- The levels that can be chosen, by their names. -/
def levels : List (String × Log.Level) :=
  [Log.Level.debug, .info, .warning, .error].map fun level => (level.name, level)

/-- Why a flag cannot be used as it stands. -/
inductive Misuse where
  | valueMissing
  | notANumber (text : String)
  | notAChoice (text : String)
  | textIgnored (text : String)
  deriving DecidableEq, Repr

inductive Rejection where
  | ambiguous (cause : Ambiguous)
  | misuse (flag : Flag) (cause : Misuse)
  | pathMissing
  | leftOver (words : List String)
  deriving DecidableEq, Repr

def Misuse.message : Misuse → String
  | valueMissing => "expected one argument"
  | notANumber text => s!"invalid int value: {Text.quoted text}"
  | notAChoice text =>
    let choices := String.intercalate ", " (levels.map fun level => Text.quoted level.1)
    s!"invalid choice: {Text.quoted text} (choose from {choices})"
  | textIgnored text => s!"ignored explicit argument {Text.quoted text}"

def Rejection.message : Rejection → String
  | ambiguous cause =>
    let candidates := String.intercalate ", " cause.candidates
    s!"ambiguous option: {cause.word} could match {candidates}"
  | misuse flag cause => s!"argument {flag.label}: {cause.message}"
  | pathMissing => "the following arguments are required: instance"
  | leftOver words => "unrecognized arguments: " ++ String.intercalate " " words

/-- Why reading ends before the last word. -/
inductive Stop where
  | help
  | rejected (cause : Rejection)
  deriving DecidableEq, Repr

/-- What the next word may be part of. -/
inductive Place where
  | anywhere
  /-- A flag has just been read that takes the next word as its value. -/
  | valueOf (flag : Flag)
  | behindPath
  | behindMark
  deriving DecidableEq, Repr

structure Reading where
  options : Options
  hasPath : Bool
  leftOver : List String
  place : Place
  deriving DecidableEq, Repr

namespace Reading

def initial : Reading where
  options := ⟨"", .value defaultMaxRounds, false, none, .value .info⟩
  hasPath := false
  leftOver := []
  place := .anywhere

def misuse {β : Type} (flag : Flag) (cause : Misuse) : Except Stop β :=
  .error (.rejected (.misuse flag cause))

def keep (r : Reading) (options : Options) : Reading :=
  { r with options, place := .anywhere }

def setValue (r : Reading) (flag : Flag) (text : String) : Except Stop Reading :=
  match flag with
  | .maxRounds =>
    match Text.readInt? text with
    | some k => .ok (r.keep { r.options with maxRounds := .value k })
    | none => misuse flag (.notANumber text)
  | .logLevel =>
    match levels.lookup text with
    | some level => .ok (r.keep { r.options with logLevel := .value level })
    | none => misuse flag (.notAChoice text)
  | .output => .ok (r.keep { r.options with output := some (.value text) })
  | .help | .validate => .ok r

def setNothing (r : Reading) : Flag → Reading
  | .maxRounds => r.keep { r.options with maxRounds := .nothing }
  | .logLevel => r.keep { r.options with logLevel := .nothing }
  | .output => r.keep { r.options with output := some .nothing }
  | .help | .validate => r

/-- Text attached to a short help flag must be more help flags; the rest of it is ignored, and that
is an error. -/
def stopAtHelp (attached : List Char) : Stop :=
  let rest := attached.dropWhile (· == 'h')
  if !attached.isEmpty && rest.isEmpty then .help
  else .rejected (.misuse .help (.textIgnored (String.ofList rest)))

def useFlag (r : Reading) (flag : Flag) (short : Bool) :
    Option (List Char) → Except Stop Reading
  | none =>
    match flag with
    | .help => .error .help
    | .validate => .ok (r.keep { r.options with validate := true })
    | flag => .ok { r with place := .valueOf flag }
  | some attached =>
    if flag.takesValue then
      if attached = ['-', '-'] then .ok (r.setNothing flag)
      else r.setValue flag (String.ofList attached)
    else if short then .error (stopAtHelp attached)
    else misuse flag (.textIgnored (String.ofList attached))

def leave (r : Reading) (word : String) : Reading :=
  { r with leftOver := r.leftOver ++ [word], place := .anywhere }

/-- Read one more word. -/
def step (r : Reading) (word : Word) : Except Stop Reading :=
  match r.place, word with
  | .valueOf flag, .plain text => r.setValue flag text
  | .valueOf flag, _ => misuse flag .valueMissing
  | _, .flag flag short attached => r.useFlag flag short attached
  | _, .unknown text => .ok (r.leave text)
  | _, .plain text =>
    if r.hasPath then .ok (r.leave text)
    else .ok { r with
      options := { r.options with path := text }, hasPath := true, place := .behindPath }
  | .behindPath, .mark => .ok { r with place := .anywhere }
  | _, .mark => if r.hasPath then .ok (r.leave "--") else .ok { r with place := .behindMark }

def finish (r : Reading) : Except Stop Options :=
  match r.place with
  | .valueOf flag => misuse flag .valueMissing
  | _ =>
    if !r.hasPath then .error (.rejected .pathMissing)
    else if r.leftOver.isEmpty then .ok r.options
    else .error (.rejected (.leftOver r.leftOver))

end Reading

def Options.parse (args : List String) : Except Stop Options :=
  match words args with
  | .error cause => .error (.rejected (.ambiguous cause))
  | .ok words => do
    let r ← words.foldlM Reading.step Reading.initial
    r.finish

/-! ### Usage -/

def program : String := "main.py"

def usage : String :=
  Text.unlines [
    s!"usage: {program} [-h] [--max-rounds MAX_ROUNDS] [--validate] [--output OUTPUT]",
    "               [--log-level \x7bDEBUG,INFO,WARNING,ERROR\x7d]",
    "               instance"]

def help : String :=
  usage ++ Text.unlines [
    "",
    "Coefficient strengthening presolve for MIP instances.",
    "",
    "positional arguments:",
    "  instance              Path to an .mps or .lp instance.",
    "",
    "options:",
    "  -h, --help            show this help message and exit",
    "  --max-rounds MAX_ROUNDS",
    "                        Maximum number of presolve rounds.",
    "  --validate            Check presolve state consistency after every",
    "                        presolver.",
    "  --output OUTPUT       Write the strengthened model to this path.",
    "  --log-level \x7bDEBUG,INFO,WARNING,ERROR\x7d"]

/-- How the command ends when reading its words stops: exit code, output, complaint. -/
def Stop.report : Stop → Nat × String × String
  | help => (0, CommandLine.help, "")
  | rejected cause => (2, "", usage ++ s!"{program}: error: {cause.message}\n")

end CoefficientTightening.CommandLine
