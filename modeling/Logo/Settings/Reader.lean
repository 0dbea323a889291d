import Logo.Fault

/-!
# Settings of an interpreter

A settings text has one setting on a line, `key = value`, blank lines, and comments behind `#`. A
key is bare or in quotes. A value is a text in quotes or a whole number. A key that is not known,
stands twice or has a value of the wrong type makes the text invalid, and so does a line of any
other form.
-/

namespace Logo

/-- What a host can set. -/
structure Settings where
  /-- The name of the counter of a `repeat` that names none. -/
  loopVariable : String := "i"
  /-- The name of the element of an `each` that names none. -/
  eachVariable : String := "item"
  /-- How deeply blocks may run inside each other. -/
  maxDepth : Nat := 256
  /-- How many messages may wait before they are published; zero for no limit. -/
  queueCapacity : Nat := 64
deriving DecidableEq, Repr

namespace Settings

/-- The value of a setting, as written. -/
inductive Scalar where
  | text (s : String)
  | integer (n : Int)
deriving DecidableEq, Repr

/-- Whether a character may stand in a line: everything but controls, the tab apart. -/
def isLineChar (c : Char) : Bool := c = '\t' || (' ' ≤ c && c ≠ '\x7f')

/-- Drops blanks and tabs at the front. -/
def skipBlanks (cs : List Char) : List Char := cs.dropWhile fun c => c = ' ' || c = '\t'

/-- Whether nothing but a comment is left of a line. -/
def isLineEnd (cs : List Char) : Bool :=
  match skipBlanks cs with
  | [] => true
  | c :: rest => c = '#' && rest.all isLineChar

/-- The value of a hexadecimal digit. -/
def hexDigit? (c : Char) : Option Nat :=
  if '0' ≤ c && c ≤ '9' then some (c.toNat - 48)
  else if 'a' ≤ c && c ≤ 'f' then some (c.toNat - 87)
  else if 'A' ≤ c && c ≤ 'F' then some (c.toNat - 55)
  else none

/-- The natural number that digits of a base spell. Underscores may stand between two digits. -/
def digits? (base : Nat) (cs : List Char) : Option Nat :=
  let digit? (c : Char) : Option Nat := (hexDigit? c).filter (· < base)
  let rec go (n : Nat) (afterDigit : Bool) : List Char → Option Nat
    | [] => if afterDigit then some n else none
    | '_' :: rest => if afterDigit then go n false rest else none
    | c :: rest =>
      match digit? c with
      | some d => go (base * n + d) true rest
      | none => none
  go 0 false cs

/-- A natural number in decimal digits, without needless zeros. -/
def decimal? (cs : List Char) : Option Nat :=
  match cs with
  | '0' :: _ :: _ => none
  | cs => digits? 10 cs

/-- A whole number: signed decimal, or with the mark of base sixteen, eight or two. -/
def integer? (cs : List Char) : Option Int :=
  let unsigned : List Char → Option Int
    | '0' :: 'x' :: rest => (digits? 16 rest).map Int.ofNat
    | '0' :: 'o' :: rest => (digits? 8 rest).map Int.ofNat
    | '0' :: 'b' :: rest => (digits? 2 rest).map Int.ofNat
    | cs => (decimal? cs).map Int.ofNat
  let n := match cs with
    | '-' :: rest => (decimal? rest).map fun n => -Int.ofNat n
    | '+' :: rest => (decimal? rest).map Int.ofNat
    | cs => unsigned cs
  n.filter fun n => -Int.pow 2 63 ≤ n && n < Int.pow 2 63

/-- The character that a number of hexadecimal digits stands for. -/
def codePoint? (cs : List Char) : Option Char := do
  let ds ← cs.mapM hexDigit?
  let n := ds.foldl (fun n d => 16 * n + d) 0
  if n.isValidChar then some (Char.ofNat n) else none

/-- The character that a backslash and `c` stand for. -/
def escaped? (c : Char) : Option Char :=
  match c with
  | 'b' => some '\x08'
  | 't' => some '\t'
  | 'n' => some '\n'
  | 'f' => some '\x0c'
  | 'r' => some '\r'
  | '"' => some '"'
  | '\\' => some '\\'
  | _ => none

/-- Reads the rest of a text in double quotes, and what follows it. -/
def quotedText? : List Char → Option (List Char × List Char)
  | [] => none
  | '"' :: rest => some ([], rest)
  | '\\' :: 'u' :: a :: b :: c :: d :: rest => do
    let char ← codePoint? [a, b, c, d]
    let (cs, rest) ← quotedText? rest
    return (char :: cs, rest)
  | '\\' :: 'U' :: a :: b :: c :: d :: e :: f :: g :: h :: rest => do
    let char ← codePoint? [a, b, c, d, e, f, g, h]
    let (cs, rest) ← quotedText? rest
    return (char :: cs, rest)
  | '\\' :: c :: rest => do
    let char ← escaped? c
    let (cs, rest) ← quotedText? rest
    return (char :: cs, rest)
  | c :: rest => do
    if c ≠ '\\' && isLineChar c then
      let (cs, rest) ← quotedText? rest
      return (c :: cs, rest)
    else none

/-- Reads the rest of a text in apostrophes, and what follows it. -/
def literalText? : List Char → Option (List Char × List Char)
  | [] => none
  | '\'' :: rest => some ([], rest)
  | c :: rest => do
    if isLineChar c then
      let (cs, rest) ← literalText? rest
      return (c :: cs, rest)
    else none

/-- Whether a character may stand in a bare key. -/
def isBareKeyChar (c : Char) : Bool := c.isAlphanum || c = '_' || c = '-'

/-- Reads a key, and what follows it. -/
def key? : List Char → Option (List Char × List Char)
  | '"' :: rest => quotedText? rest
  | '\'' :: rest => literalText? rest
  | cs =>
    let key := cs.takeWhile isBareKeyChar
    if key.isEmpty then none else some (key, cs.drop key.length)

/-- Reads a value, and what follows it. -/
def scalar? : List Char → Option (Scalar × List Char)
  | '"' :: rest => (quotedText? rest).map fun (cs, rest) => (.text (String.ofList cs), rest)
  | '\'' :: rest => (literalText? rest).map fun (cs, rest) => (.text (String.ofList cs), rest)
  | cs =>
    let written := cs.takeWhile fun c => c ≠ ' ' && c ≠ '\t' && c ≠ '#'
    (integer? written).map fun n => (.integer n, cs.drop written.length)

/-- Reads a line: nothing for a blank one, or a setting. -/
def line? (cs : List Char) : Option (Option (String × Scalar)) :=
  if isLineEnd cs then some none
  else do
    let (key, rest) ← key? (skipBlanks cs)
    match skipBlanks rest with
    | '=' :: rest => do
      let (value, rest) ← scalar? (skipBlanks rest)
      if isLineEnd rest then some (some (String.ofList key, value)) else none
    | _ => none

/-- The lines of a text, each without its line feed and a carriage return right before that. -/
def lines (cs : List Char) : List (List Char) :=
  let rec go (line : List Char) : List Char → List (List Char)
    | [] => [line.reverse]
    | '\n' :: rest =>
      match line with
      | '\r' :: line => line.reverse :: go [] rest
      | line => line.reverse :: go [] rest
    | c :: rest => go (c :: line) rest
  go [] cs

/-- Applies a setting. -/
def put? (s : Settings) (key : String) (value : Scalar) : Option Settings :=
  match key, value with
  | "loop_variable", .text name => some { s with loopVariable := name }
  | "each_variable", .text name => some { s with eachVariable := name }
  | "max_call_depth", .integer (.ofNat n) => some { s with maxDepth := n }
  | "queue_capacity", .integer (.ofNat n) => some { s with queueCapacity := n }
  | _, _ => none

/-- Applies the settings on some lines; `seen` holds the keys that are already set. -/
def readLines (s : Settings) (seen : List String) : List (List Char) → Option Settings
  | [] => some s
  | line :: rest => do
    match ← line? line with
    | none => readLines s seen rest
    | some (key, value) =>
      if key ∈ seen then none
      else
        let s ← put? s key value
        readLines s (key :: seen) rest

/-- Reads a settings text. What it does not set has its usual value. -/
def ofText (text : String) : Except Fault Settings :=
  let cs := match text.toList with
    | '\ufeff' :: rest => rest
    | cs => cs
  match readLines {} [] (lines cs) with
  | some s => .ok s
  | none => .error (.invalidSettings "a line is not a setting")

end Settings

end Logo
