import CoefficientTightening.Decimal.Double
import CoefficientTightening.Text.Layout
import CoefficientTightening.Text.Quoted

/-! Values of mixed type, as reductions carry them: truth values, whole numbers, doubles, text and
tuples. Numbers of all three kinds are compared by their exact value, so `1`, `1.0` and `true` are
equal, while a NaN equals nothing; tuples are compared component by component. -/
namespace CoefficientTightening

inductive Datum (α : Type) where
  | none
  | bool (value : Bool)
  | int (value : Int)
  | number (value : α)
  | text (value : String)
  | tuple (items : List (Datum α))
  deriving Inhabited

namespace Datum

/-- Whether a double has exactly this whole value. -/
def isExactly (x : Float) (value : Int) : Bool :=
  match Decimal.Reading.ofFloat x with
  | .finite negative mantissa exponent =>
    let (point, weight) := Decimal.weights 0 exponent
    let magnitude := if negative then -(mantissa * weight : Int) else (mantissa * weight : Int)
    magnitude == value * point
  | _ => false

def asInt? {α : Type} : Datum α → Option Int
  | bool value => some (if value then 1 else 0)
  | int value => some value
  | _ => Option.none

def asNumber? {α : Type} : Datum α → Option α
  | number x => some x
  | _ => Option.none

/-- Equality of two values neither of which is a tuple. -/
def sameAtom (a b : Datum Float) : Bool :=
  match a, b with
  | none, none => true
  | text s, text t => s == t
  | a, b =>
    match a.asInt?, b.asInt?, a.asNumber?, b.asNumber? with
    | some k, some l, _, _ => k == l
    | some k, _, _, some y => isExactly y k
    | _, some l, some x, _ => isExactly x l
    | _, _, some x, some y => x == y
    | _, _, _, _ => false

mutual

def same : Datum Float → Datum Float → Bool
  | tuple as, tuple bs => sameAll as bs
  | tuple _, _ => false
  | _, tuple _ => false
  | a, b => sameAtom a b

def sameAll : List (Datum Float) → List (Datum Float) → Bool
  | [], [] => true
  | a :: as, b :: bs => same a b && sameAll as bs
  | _, _ => false

end

mutual

/-- Text of a value inside a tuple, where strings are quoted. -/
def quoted : Datum Float → String
  | none => "None"
  | bool value => if value then "True" else "False"
  | int value => s!"{value}"
  | number x => Decimal.fullText x
  | text s => Text.quoted s
  | tuple items => Text.parenthesized (quotedAll items)

def quotedAll : List (Datum Float) → List String
  | [] => []
  | item :: rest => item.quoted :: quotedAll rest

end

/-- Text of a value on its own, where a string stands bare. -/
def plain : Datum Float → String
  | text s => s
  | value => value.quoted

end Datum

end CoefficientTightening
