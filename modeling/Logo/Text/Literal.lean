/-!
# Literals

A string literal runs from a double quote to the next double quote that no backslash escapes. A
character literal is an apostrophe and the one character after it, or two if that character is a
backslash. Every scanner of the language keeps track of whether it stands inside such a literal,
one character at a time, through `LiteralMode.step`.

The body of a string or character literal may hold the escapes `\"`, `\'`, `\n`, `\t`, `\r` and
`\\`. A value that prints as text is written with the same escapes, save that an apostrophe stands
for itself.
-/

namespace Logo

/-- Where a scanner stands with respect to string and character literals. -/
inductive LiteralMode where
  /-- Not inside a literal. -/
  | outside
  /-- Inside a string literal. -/
  | string
  /-- Inside a string literal, right after a backslash. -/
  | stringEscape
  /-- Right after the apostrophe of a character literal. -/
  | character
  /-- Inside a character literal, right after its backslash. -/
  | characterEscape
deriving DecidableEq, Repr

namespace LiteralMode

/-- The mode after reading one more character. -/
def step : LiteralMode → Char → LiteralMode
  | outside, c => if c = '"' then string else if c = '\'' then character else outside
  | string, c => if c = '\\' then stringEscape else if c = '"' then outside else string
  | stringEscape, _ => string
  | character, c => if c = '\\' then characterEscape else outside
  | characterEscape, _ => outside

/-- The offset of the character that ends the literal a scanner stands in. -/
def closing? : LiteralMode → List Char → Option Nat
  | _, [] => none
  | mode, c :: rest =>
    if mode.step c = outside then some 0 else (closing? (mode.step c) rest).map (· + 1)

end LiteralMode

namespace Text

/-- The index of the double quote that closes the string literal opened at index `opening`. -/
def stringEnd? (cs : List Char) (opening : Nat) : Option Nat :=
  (LiteralMode.string.closing? (cs.drop (opening + 1))).map (· + (opening + 1))

/-- The index of the last character of the character literal opened at index `opening`. -/
def characterEnd? (cs : List Char) (opening : Nat) : Option Nat :=
  (LiteralMode.character.closing? (cs.drop (opening + 1))).map (· + (opening + 1))

/-- The offset of the square bracket that brings the depth to zero, brackets in literals not
counted. A closing bracket at depth zero has no partner. -/
def bracketOffset? : LiteralMode → Nat → List Char → Option Nat
  | _, _, [] => none
  | .outside, depth, c :: rest =>
    if c = '[' then (bracketOffset? .outside (depth + 1) rest).map (· + 1)
    else if c = ']' then
      match depth with
      | 0 => none
      | 1 => some 0
      | depth + 2 => (bracketOffset? .outside (depth + 1) rest).map (· + 1)
    else (bracketOffset? (LiteralMode.outside.step c) depth rest).map (· + 1)
  | mode, depth, c :: rest => (bracketOffset? (mode.step c) depth rest).map (· + 1)

/-- The index of the `]` that matches the `[` at index `opening`. -/
def matchingBracket? (cs : List Char) (opening : Nat) : Option Nat :=
  (bracketOffset? .outside 0 (cs.drop opening)).map (· + opening)

/-- Cuts a text at every separator that stands outside literals and brackets: `mode` and `depth`
say where the scan stands, and `part` holds the characters of the current part, last first. -/
def splitTopLevelFrom (separator : Char) :
    LiteralMode → Nat → List Char → List Char → List (List Char)
  | _, _, part, [] => [part.reverse]
  | .outside, depth, part, c :: rest =>
    if c = '"' || c = '\'' then
      splitTopLevelFrom separator (LiteralMode.outside.step c) depth (c :: part) rest
    else if c = '(' || c = '[' then
      splitTopLevelFrom separator .outside (depth + 1) (c :: part) rest
    else if c = ')' || c = ']' then
      splitTopLevelFrom separator .outside (depth - 1) (c :: part) rest
    else if c = separator && depth = 0 then
      part.reverse :: splitTopLevelFrom separator .outside depth [] rest
    else splitTopLevelFrom separator .outside depth (c :: part) rest
  | mode, depth, part, c :: rest =>
    splitTopLevelFrom separator (mode.step c) depth (c :: part) rest

/-- Cuts a text at every separator that is not nested in brackets or literals. -/
def splitTopLevel (separator : Char) (cs : List Char) : List (List Char) :=
  splitTopLevelFrom separator .outside 0 [] cs

/-- Why the body of a literal cannot be decoded. -/
inductive EscapeFlaw where
  /-- A backslash before a character that no escape has. -/
  | unknown (c : Char)
  /-- A backslash at the end. -/
  | dangling
deriving DecidableEq, Repr

/-- The character that a backslash and `c` stand for. -/
def escaped? (c : Char) : Option Char :=
  if c = '"' then some '"'
  else if c = '\'' then some '\''
  else if c = 'n' then some '\n'
  else if c = 't' then some '\t'
  else if c = 'r' then some '\r'
  else if c = '\\' then some '\\'
  else none

/-- Decodes the body of a literal, given without its quotes. -/
def unescape : List Char → Except EscapeFlaw (List Char)
  | [] => .ok []
  | '\\' :: [] => .error .dangling
  | '\\' :: c :: rest =>
    match escaped? c with
    | some d => (unescape rest).map (d :: ·)
    | none => .error (.unknown c)
  | c :: rest => (unescape rest).map (c :: ·)

/-- A character as it stands in a written string literal. -/
def escapeChar (c : Char) : List Char :=
  if c = '"' then ['\\', '"']
  else if c = '\\' then ['\\', '\\']
  else if c = '\n' then ['\\', 'n']
  else if c = '\t' then ['\\', 't']
  else if c = '\r' then ['\\', 'r']
  else [c]

/-- The body of the string literal that stands for a text. -/
def escape (cs : List Char) : List Char := cs.flatMap escapeChar

end Text

end Logo
