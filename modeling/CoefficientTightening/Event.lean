/-! What presolving reports while it runs, as data. Events hold numbers, not text; their wording is
in `Event.Text`. -/
namespace CoefficientTightening

inductive Event (α : Type) where
  /-- One coefficient of a row changed, and the row's bound with it. -/
  | coefficientChanged (row column : Nat) (old new bound : α)
  /-- A pass of the named presolver changed this many coefficients. -/
  | passFinished (presolver : String) (coefficients : Nat)
  | roundStarted (number : Nat)
  /-- In this round the named presolver returned this many reductions. -/
  | presolverReported (presolver : String) (reductions : Nat)
  | nothingLeft
  | summaryStarted
  | summaryLine (kind : String) (count : Int)
  deriving DecidableEq, Repr

end CoefficientTightening
