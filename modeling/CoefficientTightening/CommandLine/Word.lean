import CoefficientTightening.Text.Blank

/-! Words of a command line and what each of them can be: a flag, perhaps abbreviated and perhaps
with a text attached, the mark `--` behind which every word is plain, an unknown flag, or a plain
word. Words such as `-2` are plain, because no flag looks like a number, and so are words with a
space in them. -/
namespace CoefficientTightening.CommandLine

inductive Flag where
  | help | maxRounds | validate | output | logLevel
  deriving DecidableEq, Repr

namespace Flag

/-- All spellings, in the order in which they are listed to the user. -/
def spellings : List (String × Flag) := [
  ("-h", help), ("--help", help), ("--max-rounds", maxRounds), ("--validate", validate),
  ("--output", output), ("--log-level", logLevel)]

def label : Flag → String
  | help => "-h/--help"
  | maxRounds => "--max-rounds"
  | validate => "--validate"
  | output => "--output"
  | logLevel => "--log-level"

def takesValue : Flag → Bool
  | maxRounds | output | logLevel => true
  | help | validate => false

end Flag

inductive Word where
  | mark
  | plain (text : String)
  /-- A flag, written with one dash (`short`) or two, and the text behind it in the same word. -/
  | flag (flag : Flag) (short : Bool) (attached : Option (List Char))
  | unknown (text : String)
  deriving DecidableEq, Repr

/-- A word that abbreviates several spellings. -/
structure Ambiguous where
  word : String
  candidates : List String
  deriving DecidableEq, Repr

/-- The text before the first equals sign and, if there is one, the text behind it. -/
def splitEquals (text : List Char) : List Char × Option (List Char) :=
  match text.dropWhile (· != '=') with
  | [] => (text, none)
  | _ :: behind => (text.takeWhile (· != '='), some behind)

def isDigits (text : List Char) : Bool :=
  text.all fun c => (Text.digitValue? c).isSome

/-- A minus sign, digits, and perhaps a point with digits behind it; one line break may follow. -/
def isNegativeNumber : List Char → Bool
  | '-' :: rest =>
    let body := if rest.getLast? = some '\n' then rest.dropLast else rest
    let whole := body.takeWhile (· != '.')
    match body.dropWhile (· != '.') with
    | [] => isDigits whole && !whole.isEmpty
    | _ :: part => isDigits whole && isDigits part && !part.isEmpty
  | _ => false

/-- The flags that a word starting with a dash may abbreviate. With two dashes any beginning of a
spelling will do; with one dash the first letter counts and the rest is attached. -/
def candidates (text : List Char) : List (String × Word) :=
  match text with
  | '-' :: '-' :: _ =>
    let (name, attached) := splitEquals text
    (Flag.spellings.filter fun s => name.isPrefixOf s.1.toList).map
      fun s => (s.1, .flag s.2 false attached)
  | _ =>
    (Flag.spellings.filter fun s => s.1.toList == text.take 2).map
      fun s => (s.1, .flag s.2 true (some (text.drop 2)))

def isShort (spelling : String) : Bool :=
  spelling.length == 2

/-- What a word before the mark is. -/
def classify (word : String) : Except Ambiguous Word :=
  let text := word.toList
  if text.head? ≠ some '-' then .ok (.plain word)
  else match Flag.spellings.lookup word with
    | some flag => .ok (.flag flag (isShort word) none)
    | none =>
      let (name, attached) := splitEquals text
      match attached, Flag.spellings.lookup (String.ofList name) with
      | some attached, some flag =>
        .ok (.flag flag (isShort (String.ofList name)) (some attached))
      | _, _ =>
        if text.length = 1 then .ok (.plain word)
        else match candidates text with
          | [] =>
            if isNegativeNumber text ∨ text.contains ' ' then .ok (.plain word)
            else .ok (.unknown word)
          | [(_, meant)] => .ok meant
          | several => .error ⟨word, several.map (·.1)⟩

/-- The words of a command line. -/
def words : List String → Except Ambiguous (List Word)
  | [] => .ok []
  | word :: rest =>
    if word = "--" then .ok (.mark :: rest.map .plain)
    else do
      let first ← classify word
      let later ← words rest
      return first :: later

end CoefficientTightening.CommandLine
