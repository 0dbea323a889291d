import Logo.Expression.Atom
import Logo.Expression.Polish
import Logo.Number.Text
import Logo.Text.Literal
import Logo.Text.Printable

/-!
# Instructions

A compiled expression is a list of instructions in Polish order. They run from the last to the
first on a stack of values: an operand puts a value on the stack, and an operator or function
replaces its operands by its result. Elements of array and object literals stay text and are
compiled when they are evaluated.
-/

namespace Logo

/-- One step of a compiled expression. -/
inductive Instruction where
  | number (x : Float)
  | text (s : String)
  /-- The value of a variable, or of a member of one. -/
  | load (path : String)
  | array (elements : List String)
  | object (entries : List (String × String))
  | unary (op : UnaryOp)
  | binary (op : BinaryOp)
  | call (f : Function)
deriving DecidableEq

namespace Instruction

/-- How many values an instruction takes off the stack. -/
def consumed : Instruction → Nat
  | unary _ => 1
  | binary _ => 2
  | call f => f.arity
  | _ => 0

/-- The text of an instruction. -/
def shown : Instruction → String
  | number x => Number.text x
  | text s => Text.quoted s
  | load path => path
  | array elements => "[" ++ ", ".intercalate elements ++ "]"
  | object entries =>
    "[" ++ ", ".intercalate (entries.map fun (key, value) => key ++ ": " ++ value) ++ "]"
  | unary op => op.symbol.toString ++ "u"
  | binary op => op.symbol.toString
  | call f => f.name ++ "/" ++ toString f.arity

/-- The text of a compiled expression. -/
def listShown (instructions : List Instruction) : String :=
  " ".intercalate (instructions.map shown)

end Instruction

/-- Decodes the body of a literal in an expression. -/
def unescapeIn (expression : String) (body : List Char) : Except Fault String :=
  match Text.unescape body with
  | .ok cs => .ok (String.ofList cs)
  | .error (.unknown c) => .error (.malformedExpression expression (.unknownEscape c))
  | .error .dangling => .error (.malformedExpression expression .danglingEscape)

/-- An element of a literal in square brackets. -/
inductive Element where
  | item (text : String)
  | entry (key value : String)
deriving DecidableEq, Repr

namespace Element

/-- Reads an element: it is an entry if what stands before its first colon outside literals and
brackets is an identifier or begins and ends with a double quote. -/
def read (expression : String) (cs : List Char) : Except Fault Element :=
  match Text.splitTopLevel ':' cs with
  | first :: second :: more =>
    let key := Text.trim first
    let value := String.ofList (Text.trim ([':'].intercalate (second :: more)))
    if isIdentifierChars key then .ok (.entry (String.ofList key) value)
    else if 2 ≤ key.length && key.head? = some '"' && key.getLast? = some '"' then
      (unescapeIn expression (key.drop 1).dropLast).map (.entry · value)
    else .ok (.item (String.ofList cs))
  | _ => .ok (.item (String.ofList cs))

/-- The elements that are not entries. -/
def items (elements : List Element) : List String :=
  elements.filterMap fun
    | item text => some text
    | entry _ _ => none

/-- The entries among some elements. -/
def entries (elements : List Element) : List (String × String) :=
  elements.filterMap fun
    | item _ => none
    | entry key value => some (key, value)

/-- Reads the elements of a literal, none of which may be blank. -/
def readAll (expression literal : String) : List (List Char) → Except Fault (List Element)
  | [] => .ok []
  | part :: rest =>
    if (Text.trim part).isEmpty then .error (.malformedExpression expression (.emptyElement literal))
    else
      match read expression (Text.trim part) with
      | .error fault => .error fault
      | .ok element => (readAll expression literal rest).map (element :: ·)

end Element

namespace Instruction

/-- The instruction of a literal in square brackets, given with its body. A literal has either
entries only, and is an object, or none, and is an array. -/
def ofBrackets (expression literal : String) (body : List Char) : Except Fault Instruction :=
  if (Text.trim body).isEmpty then .ok (array [])
  else
    match Element.readAll expression literal (Text.splitTopLevel ',' body) with
    | .error fault => .error fault
    | .ok elements =>
      match Element.items elements, Element.entries elements with
      | _ :: _, _ :: _ => .error (.mixedLiteral literal)
      | [], entry :: entries => .ok (object (entry :: entries))
      | items, [] => .ok (array items)

/-- The instruction of an operand. -/
def ofOperand (expression atom : String) : Except Fault Instruction :=
  let cs := atom.toList
  let last := cs.length - 1
  let unexpectedText := Fault.malformedExpression expression (.textAfter atom)
  match cs with
  | [] => .error (.malformedExpression expression (.unexpected atom))
  | c :: rest =>
    if c = '"' then
      if Text.stringEnd? cs 0 = some last then (unescapeIn expression rest.dropLast).map text
      else .error unexpectedText
    else if c = '\'' then
      if Text.characterEnd? cs 0 = some last then (unescapeIn expression rest).map text
      else .error unexpectedText
    else if c = '[' then
      if Text.matchingBracket? cs 0 = some last then ofBrackets expression atom rest.dropLast
      else .error unexpectedText
    else if c.isDigit || c = '.' then
      match Decimal.ofText? cs with
      | some d => .ok (number d.toFloat)
      | none => .error (.malformedExpression expression (.notANumber atom))
    else if isIdentStart c then .ok (load atom)
    else .error (.malformedExpression expression (.unexpected atom))

/-- The instruction of an item. -/
def ofItem (expression : String) : Item → Except Fault Instruction
  | .operand atom => ofOperand expression atom
  | .unary op => .ok (unary op)
  | .binary op => .ok (binary op)
  | .call f => .ok (call f)

/-- How many values the instructions leave on an empty stack, if none of them lacks an operand. -/
def stackDepth (expression : String) : List Instruction → Except Fault Nat
  | [] => .ok 0
  | i :: rest =>
    match stackDepth expression rest with
    | .error fault => .error fault
    | .ok depth =>
      if i.consumed ≤ depth then .ok (depth - i.consumed + 1)
      else .error (.malformedExpression expression (.missingOperandOf i.shown))

/-- Checks that the instructions leave exactly one value. -/
def checkStack (expression : String) (instructions : List Instruction) : Except Fault Unit :=
  match stackDepth expression instructions with
  | .error fault => .error fault
  | .ok 1 => .ok ()
  | .ok 0 => .error (.malformedExpression expression .emptyExpression)
  | .ok _ => .error (.malformedExpression expression .missingOperator)

end Instruction

/-- The instructions of an expression. -/
def compile (expression : String) : Except Fault (List Instruction) := do
  let atoms ← splitAtoms expression
  let lexemes ← classify expression atoms
  let items ← polish expression lexemes
  let instructions ← items.mapM (Instruction.ofItem expression)
  Instruction.checkStack expression instructions
  return instructions

end Logo
