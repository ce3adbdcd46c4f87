import CoefficientTightening.CommandLine.Command
import Std.Time

/-! The program. It runs the command on its words, prints what the run printed, and returns its
code. Models come from a loader; none is built in, so a file that exists is refused by name. A run
is a function of its input and is reported as taking no time. -/
namespace CoefficientTightening

open CommandLine

def print (t : Transcript) : IO UInt32 := do
  IO.print t.output
  IO.eprint t.complaint
  match t.ending with
  | .status code => return code.toUInt32
  | .exit code => return code.toUInt32
  | .failed cause =>
    IO.eprintln cause.message
    return 1

/-- Run with the model that a loader finds for the path, if any. -/
def runWith (loader : String → IO (Option (Model Float))) (args : List String) : IO UInt32 := do
  let stamp := (← Std.Time.PlainDateTime.now).format "yyyy-MM-dd HH:mm:ss"
  let model ← match Options.parse args with
    | .ok options => loader options.path
    | .error _ => pure none
  print (run ⟨stamp, "0.00"⟩ (fun _ => model) args)

/-- Whether a path can be opened. -/
def fileExists (path : String) : IO Bool :=
  try
    discard <| IO.FS.Handle.mk path .read
    return true
  catch _ => return false

/-- A path without a file has no model; no format of an existing file is known. -/
def noFormat (path : String) : IO (Option (Model Float)) := do
  if ← fileExists path then
    throw (IO.userError s!"no reader for the format of '{path}'")
  return none

end CoefficientTightening

def main (args : List String) : IO UInt32 :=
  CoefficientTightening.runWith CoefficientTightening.noFormat args
