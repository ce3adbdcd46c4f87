/-! Padding, and values in brackets. Widths count code points. -/
namespace CoefficientTightening.Text

def padRight (width : Nat) (text : String) : String :=
  text ++ String.ofList (List.replicate (width - text.length) ' ')

def padLeft (width : Nat) (text : String) : String :=
  String.ofList (List.replicate (width - text.length) ' ') ++ text

def rule (width : Nat) : String :=
  String.ofList (List.replicate width '-')

def bracketed (items : List String) : String :=
  "[" ++ String.intercalate ", " items ++ "]"

/-- Items in parentheses; a single one is followed by a comma. -/
def parenthesized : List String → String
  | [item] => "(" ++ item ++ ",)"
  | items => "(" ++ String.intercalate ", " items ++ ")"

def unlines (lines : List String) : String :=
  String.join (lines.map (· ++ "\n"))

end CoefficientTightening.Text
