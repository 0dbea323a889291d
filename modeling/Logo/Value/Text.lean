import Logo.Number.Text
import Logo.Text.Literal
import Logo.Value.Basic

/-!
# The text of a value

An array prints as a quoted text if it is not empty and all its items are codes of printable
characters, and as a list of items otherwise.
-/

namespace Logo

/-- Whether a character may stand in a text that prints in quotes: printable ASCII, a line feed, a
tab or a carriage return. -/
def printsInText (c : Char) : Bool := (' ' ≤ c && c ≤ '~') || c = '\n' || c = '\t' || c = '\r'

namespace Value

/-- The characters of a text that prints in quotes. -/
def printable? (items : List Value) : Option (List Char) :=
  match items.mapM char? with
  | some cs => if !cs.isEmpty && cs.all printsInText then some cs else none
  | none => none

/-- Whether a value prints as a text in quotes. -/
def isPrintableText : Value → Bool
  | array items => (printable? items).isSome
  | _ => false

mutual

/-- The text of a value. -/
def text : Value → String
  | number x => Number.text x
  | array items =>
    match printable? items with
    | some cs => String.ofList ('"' :: (Text.escape cs ++ ['"']))
    | none => "[" ++ ", ".intercalate (itemTexts items) ++ "]"
  | object fields => "\x7b" ++ ", ".intercalate (fieldTexts fields) ++ "\x7d"
  | code c => "[code/" ++ toString c.arity ++ "]"

/-- The texts of some values. -/
def itemTexts : List Value → List String
  | [] => []
  | v :: rest => v.text :: itemTexts rest

/-- The texts of some fields. -/
def fieldTexts : List (String × Value) → List String
  | [] => []
  | (name, v) :: rest => (name ++ ": " ++ v.text) :: fieldTexts rest

end

end Value

end Logo
