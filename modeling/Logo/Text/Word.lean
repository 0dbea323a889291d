/-!
# Blanks and words

Blanks separate the parts of an expression and are trimmed from its ends: they are the characters
with the Unicode property `White_Space`.

An identifier is an ASCII letter or underscore followed by ASCII letters, digits and underscores.
Names of variables, parameters and return targets are identifiers. A plain word is an identifier
followed by any number of `.field`, `.<name>` and `[...]` parts. Only such texts can name a variable
or a member of one where a command takes a word. What stands between square brackets is not looked
at, apart from the brackets in it.
-/

namespace Logo

namespace Text

/-- Whether a character has the Unicode property `White_Space`. -/
def isBlank (c : Char) : Bool :=
  let n := c.toNat
  (0x09 ≤ n && n ≤ 0x0D) || n = 0x20 || n = 0x85 || n = 0xA0 || n = 0x1680 ||
    (0x2000 ≤ n && n ≤ 0x200A) || n = 0x2028 || n = 0x2029 || n = 0x202F || n = 0x205F || n = 0x3000

/-- Drops the blanks at both ends. -/
def trim (cs : List Char) : List Char :=
  ((cs.dropWhile isBlank).reverse.dropWhile isBlank).reverse

end Text

/-- Characters that may start an identifier. -/
def isIdentStart (c : Char) : Bool := c.isAlpha || c = '_'

/-- Characters that may stand inside an identifier. -/
def isIdentChar (c : Char) : Bool := c.isAlphanum || c = '_'

/-- Whether a list of characters spells an identifier. -/
def isIdentifierChars : List Char → Bool
  | [] => false
  | c :: rest => isIdentStart c && rest.all isIdentChar

/-- Whether a text is an identifier. -/
def isIdentifier (s : String) : Bool := isIdentifierChars s.toList

/-- Reads the rest of a plain word: `depth` counts the open brackets, and `name?` holds the
characters read after a `.<`, last first. -/
def isPlainFrom : Nat → Option (List Char) → List Char → Bool
  | depth, none, [] => depth = 0
  | _, some _, [] => false
  | depth, some name, c :: rest =>
    if c = '>' then isIdentifierChars name.reverse && isPlainFrom depth none rest
    else isPlainFrom depth (some (c :: name)) rest
  | depth, none, c :: rest =>
    if c = '[' then isPlainFrom (depth + 1) none rest
    else if c = ']' then
      match depth with
      | 0 => false
      | depth + 1 => isPlainFrom depth none rest
    else if depth > 0 then isPlainFrom depth none rest
    else if c = '.' then
      match rest with
      | '<' :: rest => isPlainFrom 0 (some []) rest
      | rest => isPlainFrom 0 none rest
    else isIdentChar c && isPlainFrom 0 none rest

/-- Whether a text is a plain word. -/
def isPlainWord (s : String) : Bool :=
  match s.toList with
  | [] => false
  | c :: rest => isIdentStart c && isPlainFrom 0 none (c :: rest)

end Logo
