import CoefficientTightening.CommandLine.Options
import CoefficientTightening.Event.Text
import CoefficientTightening.Report

/-! The command: read an instance, tighten its coefficients, report what changed, and hand the
result back. A run is a function of its words and of the files that can be loaded; it yields all
that was printed, also when it fails half-way. -/
namespace CoefficientTightening.CommandLine

/-- What the clock shows during a run. -/
structure Clock where
  stamp : String
  elapsed : String

inductive Failure where
  /-- The log has no threshold. -/
  | threshold (cause : Log.BadThreshold)
  | unreadable (cause : Unreadable)
  | presolve (cause : Instance.Failure Float)
  /-- The rounds have no limit. -/
  | noLimit

def Failure.message : Failure → String
  | threshold cause => cause.message
  | unreadable cause => cause.message
  | presolve (.malformed cause) => cause.message
  | presolve (.inconsistent cause) => cause.message
  | noLimit => "'<' not supported between instances of 'int' and 'list'"

inductive Ending where
  /-- The run came to its end. -/
  | status (code : Nat)
  /-- The words were not those of a run. -/
  | exit (code : Nat)
  | failed (cause : Failure)

structure Transcript where
  ending : Ending
  output : String
  complaint : String
  written : List (String × BuiltModel Float)

namespace Transcript

/-- Put text in front of everything printed. -/
def after (text : String) (t : Transcript) : Transcript :=
  { t with output := text ++ t.output }

def failed (cause : Failure) (output : String) : Transcript := ⟨.failed cause, output, "", []⟩

end Transcript

variable {m n : Nat}

/-- Build the model for the output path, if one is given that is not empty. -/
def write (inst : Instance Float m n) (path : Option String) : Transcript :=
  match path.filter fun p => !p.isEmpty with
  | none => ⟨.status 0, "", "", []⟩
  | some path =>
    ⟨.status 0, s!"Strengthened model written to {path}\n", "", [(path, inst.build)]⟩

def runInstance (clock : Clock) (console : Log.Console) (options : Options)
    (inst : Instance Float m n) : Transcript :=
  let logged (events : List (Event Float)) : String :=
    console.render clock.stamp (events.map Event.record)
  let before := inst.statistics
  let opening := before.overview ++ "⚙️  Starting pre-solver...\n"
  let limit := options.maxRounds.value?
  let done := inst.presolve (limit.getD 0) options.validate
  let opening := opening ++ logged done.events
  match done.failure, limit with
  | some cause, _ => .failed (.presolve cause) opening
  | none, none => .failed .noLimit opening
  | none, some _ =>
    (write done.inst (options.output.bind Setting.value?)).after <|
      opening ++
        s!"Pre-solve complete in {clock.elapsed} seconds ({done.schedule.rounds} rounds)\n" ++
        before.comparison done.inst.statistics ++
        logged done.schedule.summaryEvents ++
        done.schedule.summary.table

/-- Run with options; `load` finds the model of a path. -/
def runLogged (clock : Clock) (load : String → Option (Model Float)) (console : Log.Console)
    (options : Options) : Transcript :=
  let opening := s!"📦 Loading instance: {options.path}\n"
  match load options.path with
  | none => ⟨.status 1, opening ++ s!"❌ ERROR: File not found at '{options.path}'\n", "", []⟩
  | some model =>
    match model.toInstance with
    | .error cause => .failed (.unreadable cause) opening
    | .ok inst =>
      (runInstance clock console options inst).after opening

/-- Set up the log, then run. -/
def runOptions (clock : Clock) (load : String → Option (Model Float)) (options : Options) :
    Transcript :=
  match options.logLevel with
  | .value level => runLogged clock load (.ofLevel level) options
  | .nothing => .failed (.threshold (.kind (Text.bracketed []))) ""

def run (clock : Clock) (load : String → Option (Model Float)) (args : List String) : Transcript :=
  match Options.parse args with
  | .error stop =>
    let (code, output, complaint) := stop.report
    ⟨.exit code, output, complaint, []⟩
  | .ok options => runOptions clock load options

end CoefficientTightening.CommandLine
