import Logo.Expression.Operator
import Logo.Fault
import Logo.Text.Literal
import Logo.Text.Word

/-!
# From expression text to atoms

An expression is cut at blanks, operators, parentheses and commas. String and character literals,
`[...]` and `.<...>` stay whole, whatever they hold.
-/

namespace Logo

/-- Where the cutting of an expression stands. -/
inductive AtomMode where
  /-- Between the parts that stay whole. -/
  | free
  /-- Inside a literal. -/
  | literal (mode : LiteralMode)
  /-- Inside square brackets, `depth` of them open. -/
  | bracket (mode : LiteralMode) (depth : Nat)
  /-- Inside `.<...>`. -/
  | name
deriving DecidableEq, Repr

namespace AtomMode

/-- The mode after a character inside a part that stays whole. -/
def step : AtomMode → Char → AtomMode
  | free, _ => free
  | literal mode, c => if mode.step c = .outside then free else literal (mode.step c)
  | bracket .outside depth, c =>
    if c = '[' then bracket .outside (depth + 1)
    else if c = ']' then (if depth ≤ 1 then free else bracket .outside (depth - 1))
    else bracket (LiteralMode.outside.step c) depth
  | bracket mode depth, c => bracket (mode.step c) depth
  | name, c => if c = '>' then free else name

/-- The mode after a character `c` between parts, if `c` starts a part that stays whole; `next` is
the character after it. -/
def opening? (c : Char) (next : Option Char) : Option AtomMode :=
  if c = '"' || c = '\'' then some (literal (LiteralMode.outside.step c))
  else if c = '[' then some (bracket .outside 1)
  else if c = '.' && next = some '<' then some name
  else none

/-- The fault of an expression that ends in a mode. -/
def unfinished? (expression : String) : AtomMode → Option Fault
  | free => none
  | literal .character | literal .characterEscape =>
    some (.malformedExpression expression .emptyCharacter)
  | literal _ => some (.malformedExpression expression .unterminatedString)
  | bracket _ _ => some (.unbalancedGrouping expression)
  | name => some (.malformedExpression expression .unclosedName)

end AtomMode

/-- Whether a character is an atom of its own. -/
def isPunctuation (c : Char) : Bool := isOperator c || c = '(' || c = ')' || c = ','

/-- Puts the atom with the given characters, last first, in front of further atoms. -/
def consAtom (atom : List Char) (atoms : List String) : List String :=
  if atom.isEmpty then atoms else String.ofList atom.reverse :: atoms

/-- Cuts the rest of an expression: `atom` holds the characters of the current atom, last first. -/
def splitAtomsFrom (expression : String) :
    AtomMode → List Char → List Char → Except Fault (List String)
  | mode, atom, [] =>
    match mode.unfinished? expression with
    | some fault => .error fault
    | none => .ok (consAtom atom [])
  | .free, atom, c :: rest =>
    match AtomMode.opening? c rest.head? with
    | some mode => splitAtomsFrom expression mode (c :: atom) rest
    | none =>
      if c = ']' then .error (.unbalancedGrouping expression)
      else if Text.isBlank c then
        (splitAtomsFrom expression .free [] rest).map (consAtom atom)
      else if isPunctuation c then
        (splitAtomsFrom expression .free [] rest).map fun atoms =>
          consAtom atom (c.toString :: atoms)
      else splitAtomsFrom expression .free (c :: atom) rest
  | mode, atom, c :: rest => splitAtomsFrom expression (mode.step c) (c :: atom) rest

/-- The atoms of an expression. -/
def splitAtoms (expression : String) : Except Fault (List String) :=
  splitAtomsFrom expression .free [] expression.toList

end Logo
