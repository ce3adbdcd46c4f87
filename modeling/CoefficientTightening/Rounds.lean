import CoefficientTightening.Consistency
import CoefficientTightening.Reduction.Summary
import CoefficientTightening.Tightening

/-! Rounds of presolving. A schedule applies its presolvers in order, round after round, until a
round reports no reduction or the limit is reached. Presolvers are arbitrary: each may carry a
state of its own, change the data, and fail. If the schedule validates, the data is checked before
the first round and after every application; the first failure of a presolver or of a check stops
the run, and what was done up to there stays done. -/
namespace CoefficientTightening

/-- What one application of a presolver leaves, whether it succeeded or not. -/
structure Application (P D E α : Type) where
  presolver : P
  data : D
  events : List (Event α)
  result : Except E (List (Reduction α))

/-- How presolvers of type `P` act on data of type `D`, and how that data is checked. -/
structure Presolving (P D E α : Type) where
  name : P → String
  apply : P → D → Application P D E α
  check : D → Option E

structure Schedule (P α : Type) where
  presolvers : List P
  maxRounds : Int
  validates : Bool
  /-- All reductions of all runs, in order. -/
  applied : List (Reduction α)
  /-- Rounds of all runs that did not fail. -/
  rounds : Nat

def defaultMaxRounds : Int := 10

/-- The outcome of some consecutive applications; `reductions` holds those of the applications
that returned and passed the check. -/
structure Progress (P D E α : Type) where
  presolvers : List P
  data : D
  reductions : List (Reduction α)
  events : List (Event α)
  rounds : Nat
  failure : Option E

namespace Presolving

variable {P D E α : Type} (ops : Presolving P D E α)

def checkIf (validates : Bool) (data : D) : Option E :=
  if validates then ops.check data else none

def reportOf (presolver : P) (reductions : List (Reduction α)) : List (Event α) :=
  if reductions.isEmpty then []
  else [.presolverReported (ops.name presolver) reductions.length]

/-- Apply each presolver once, on the data that the one before it left. -/
def applyAll (validates : Bool) : List P → D → Progress P D E α
  | [], data => ⟨[], data, [], [], 0, none⟩
  | presolver :: rest, data =>
    let a := ops.apply presolver data
    match a.result, ops.checkIf validates a.data with
    | .error e, _ => ⟨a.presolver :: rest, a.data, [], a.events, 0, some e⟩
    | .ok _, some e => ⟨a.presolver :: rest, a.data, [], a.events, 0, some e⟩
    | .ok reductions, none =>
      let later := applyAll validates rest a.data
      { later with
        presolvers := a.presolver :: later.presolvers
        reductions := reductions ++ later.reductions
        events := a.events ++ ops.reportOf a.presolver reductions ++ later.events }

/-- At most `left` rounds, the first of which has the given number. -/
def repeatRounds (validates : Bool) : (left number : Nat) → List P → D → Progress P D E α
  | 0, _, presolvers, data => ⟨presolvers, data, [], [], 0, none⟩
  | left + 1, number, presolvers, data =>
    let here := ops.applyAll validates presolvers data
    let events := .roundStarted number :: here.events
    if here.failure.isSome then { here with events }
    else if here.reductions.isEmpty then
      { here with events := events ++ [.nothingLeft], rounds := 1 }
    else
      let later := repeatRounds validates left (number + 1) here.presolvers here.data
      { later with
        reductions := here.reductions ++ later.reductions
        events := events ++ later.events
        rounds := later.rounds + 1 }

end Presolving

namespace Schedule

variable {P D E α : Type}

def new (maxRounds : Int) (validates : Bool) (presolvers : List P) : Schedule P α :=
  ⟨presolvers, maxRounds, validates, [], 0⟩

def add (schedule : Schedule P α) (presolver : P) : Schedule P α :=
  { schedule with presolvers := schedule.presolvers ++ [presolver] }

/-- The schedule, the data and the events after a run, and the failure that ended it, if any. -/
structure Run (P D E α : Type) where
  schedule : Schedule P α
  data : D
  events : List (Event α)
  failure : Option E

/-- Run at most `limit` rounds, or as many as the schedule allows. -/
def run (ops : Presolving P D E α) (schedule : Schedule P α) (limit : Option Int) (data : D) :
    Run P D E α :=
  match ops.checkIf schedule.validates data with
  | some e => ⟨schedule, data, [], some e⟩
  | none =>
    let left := (limit.getD schedule.maxRounds).toNat
    let p := ops.repeatRounds schedule.validates left 1 schedule.presolvers data
    { schedule :=
        { schedule with
          presolvers := p.presolvers
          applied := schedule.applied ++ p.reductions
          rounds := if p.failure.isSome then schedule.rounds else schedule.rounds + p.rounds }
      data := p.data
      events := p.events
      failure := p.failure }

def summary (schedule : Schedule P α) : Tally :=
  Reduction.summary schedule.applied

def summaryEvents (schedule : Schedule P α) : List (Event α) :=
  .summaryStarted :: schedule.summary.map fun line => .summaryLine line.1 line.2

end Schedule

/-- Coefficient tightening as the only presolver. It keeps no state and cannot fail. -/
def tighteningOnly {α : Type} [Scalar α] {m n : Nat} :
    Presolving Unit (Formulation α m n) (Inconsistency α) α where
  name _ := tighteningName
  apply _ p :=
    let pass := p.tighteningPass
    ⟨(), pass.data, pass.events, .ok pass.reductions⟩
  check p := p.inconsistency?

end CoefficientTightening
