/-!
# Tokens

Program text is a sequence of words, statement separators and block delimiters, each with its place
in the text. Lines and columns are counted from one. A column counts characters, and a line feed
starts the next line.
-/

namespace Logo

/-- The place of a character in program text. -/
structure Position where
  line : Nat
  column : Nat
deriving DecidableEq, Repr, Inhabited

namespace Position

/-- The place of the first character of a text. -/
def start : Position := ⟨1, 1⟩

/-- The place that follows `p` when the character at `p` is `c`. -/
def after (p : Position) (c : Char) : Position :=
  if c = '\n' then ⟨p.line + 1, 1⟩ else ⟨p.line, p.column + 1⟩

/-- The written form `line:column`. -/
def text (p : Position) : String :=
  toString p.line ++ ":" ++ toString p.column

end Position

/-- What a token is. -/
inductive TokenKind where
  /-- A run of text: a label, a name, an argument. -/
  | word (text : String)
  /-- The end of a statement. -/
  | separator
  | blockOpen
  | blockClose
deriving DecidableEq, Repr

/-- A token, with the place of its first character. -/
structure Token where
  kind : TokenKind
  pos : Position
deriving DecidableEq, Repr

namespace TokenKind

/-- The kind of token that a text is. -/
def ofValue (value : String) : TokenKind :=
  if value = "\n" then separator
  else if value = "\x7b" then blockOpen
  else if value = "\x7d" then blockClose
  else word value

/-- The text of a token. Every separator has the text of a line feed. -/
def value : TokenKind → String
  | word text => text
  | separator => "\n"
  | blockOpen => "\x7b"
  | blockClose => "\x7d"

/-- Whether a token shapes the program, in contrast to the words that fill it. -/
def isStructural : TokenKind → Bool
  | word _ => false
  | _ => true

end TokenKind

namespace Token

/-- The text of a token. -/
def value (t : Token) : String := t.kind.value

/-- The text of a token as messages show it. -/
def shown (t : Token) : String :=
  if t.kind = .separator then "<separator>" else t.value

end Token

end Logo
