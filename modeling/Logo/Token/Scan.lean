import Logo.Fault
import Logo.Text.Literal
import Logo.Token.Basic

/-!
# From text to tokens

One pass over the characters cuts a program into tokens. Blanks end a word unless a parenthesis or
square bracket is open. A line feed or semicolon separates statements, and of several separators in
a row the first is kept. A curly bracket outside groups opens or closes a block. A `#` starts a
comment that runs to the end of its line. Literals are copied character for character.
-/

namespace Logo

/-- What the scan reads at the moment. -/
inductive ScanMode where
  | text
  | comment
  /-- A literal, with the place of its first character. -/
  | literal (mode : LiteralMode) (opened : Position)
deriving DecidableEq, Repr

/-- The state of the scan between two characters. -/
structure Scan where
  mode : ScanMode := .text
  /-- The place of the next character. -/
  pos : Position := .start
  /-- The characters of the word being read, last first. -/
  word : List Char := []
  /-- The place of the word's first character. -/
  wordStart : Position := .start
  /-- The open parentheses, innermost first. -/
  parens : List Position := []
  /-- The open square brackets, innermost first. -/
  brackets : List Position := []
  /-- The open blocks, innermost first. -/
  braces : List Position := []
  /-- The tokens found, last first. -/
  tokens : List Token := []
deriving DecidableEq, Repr

namespace Scan

/-- Whether a parenthesis or square bracket is open. -/
def grouped (s : Scan) : Bool := !s.parens.isEmpty || !s.brackets.isEmpty

/-- Adds the character at the current place to the word. -/
def push (s : Scan) (c : Char) : Scan :=
  { s with
    word := c :: s.word
    wordStart := if s.word.isEmpty then s.pos else s.wordStart }

/-- Ends the word, if there is one. -/
def flush (s : Scan) : Scan :=
  if s.word.isEmpty then s
  else
    { s with
      word := []
      tokens := ⟨.word (String.ofList s.word.reverse), s.wordStart⟩ :: s.tokens }

/-- Ends the word and adds a block delimiter at the current place. -/
def delimit (s : Scan) (kind : TokenKind) : Scan :=
  { s.flush with tokens := ⟨kind, s.pos⟩ :: s.flush.tokens }

/-- Ends the word and adds a separator at the current place, unless one was just added. -/
def separate (s : Scan) : Scan :=
  match s.flush.tokens with
  | ⟨.separator, _⟩ :: _ => s.flush
  | _ => s.delimit .separator

/-- The fault of leaving a group open, if one is. Parentheses are reported before brackets. -/
def unclosedGroup? (s : Scan) : Option Fault :=
  match s.parens, s.brackets with
  | pos :: _, _ => some (.unclosedBracket '(' pos)
  | [], pos :: _ => some (.unclosedBracket '[' pos)
  | [], [] => none

/-- Reads a character outside literals and comments. -/
def readText (s : Scan) (c : Char) : Except Fault Scan :=
  if c = '#' then
    .ok { (if s.grouped then s else s.flush) with mode := .comment }
  else if c = '"' || c = '\'' then
    .ok { s.push c with mode := .literal (LiteralMode.outside.step c) s.pos }
  else if c = ' ' || c = '\t' || c = '\r' then
    .ok (if s.grouped then s.push c else s.flush)
  else if c = '\n' || c = ';' then
    match s.unclosedGroup? with
    | some fault => .error fault
    | none => .ok s.separate
  else if c = '\x7b' && !s.grouped then
    .ok { s.delimit .blockOpen with braces := s.pos :: s.braces }
  else if c = '\x7d' && !s.grouped then
    match s.braces with
    | [] => .error (.excessBracket c s.pos)
    | _ :: braces => .ok { s.delimit .blockClose with braces }
  else if c = '(' then
    .ok { s.push c with parens := s.pos :: s.parens }
  else if c = '[' then
    .ok { s.push c with brackets := s.pos :: s.brackets }
  else if c = ')' then
    match s.parens with
    | [] => .error (.excessBracket c s.pos)
    | _ :: parens => .ok { s.push c with parens }
  else if c = ']' then
    match s.brackets with
    | [] => .error (.excessBracket c s.pos)
    | _ :: brackets => .ok { s.push c with brackets }
  else .ok (s.push c)

/-- Reads a character in the current mode. The line feed that ends a comment still separates. -/
def read (s : Scan) (c : Char) : Except Fault Scan :=
  match s.mode with
  | .text => s.readText c
  | .comment => if c = '\n' then { s with mode := .text }.readText c else .ok s
  | .literal mode opened =>
    let next := mode.step c
    .ok { s.push c with mode := if next = .outside then .text else .literal next opened }

/-- Reads a character and moves on to the next place. -/
def step (s : Scan) (c : Char) : Except Fault Scan :=
  (s.read c).map fun t => { t with pos := s.pos.after c }

/-- The tokens of a text that ends here. A string literal, a group or a block must not be left
open; a character literal may be. A separator at the end is dropped. -/
def finish (s : Scan) : Except Fault (List Token) :=
  match s.mode with
  | .literal .string opened | .literal .stringEscape opened => .error (.unterminatedString opened)
  | _ =>
    match s.unclosedGroup?, s.braces with
    | some fault, _ => .error fault
    | none, pos :: _ => .error (.unclosedBracket '\x7b' pos)
    | none, [] =>
      match s.flush.tokens with
      | ⟨.separator, _⟩ :: tokens => .ok tokens.reverse
      | tokens => .ok tokens.reverse

end Scan

/-- The tokens of a program text. -/
def tokenize (source : String) : Except Fault (List Token) := do
  let s ← source.toList.foldlM Scan.step {}
  s.finish

end Logo
