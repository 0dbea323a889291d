import Logo.Number.Binary
import Logo.Statement.Basic

/-!
# Values

A value is a number, an array, an object or a piece of code. Text is an array of character codes. An
object is a list of fields in the order in which their names first appeared. The name of a value's
kind appears in messages about values that do not fit. Accessors lead from a value to its members:
the name of a field of an object, or an index into an array.
-/

namespace Logo

/-- The kinds of value. -/
inductive Kind where
  | number
  | array
  | object
  | code
deriving DecidableEq, Repr

/-- The name of a kind. -/
def Kind.name : Kind → String
  | number => "number"
  | array => "array"
  | object => "object"
  | code => "code"

/-- One step from a container to a member. -/
inductive Accessor where
  | field (name : String)
  | index (i : Nat)
deriving DecidableEq, Repr

/-- The written form of an accessor: `.name` or `[i]`. -/
def Accessor.text : Accessor → String
  | field name => "." ++ name
  | index i => "[" ++ toString i ++ "]"

/-- The largest index that a path may name, and so the largest array that one write can make. -/
def maxIndex : Nat := 1000000

/-- What tells one frame of variables from another. -/
abbrev FrameId := Nat

/-- A block with the frame that it was written in and the names of its parameters. -/
structure Code where
  block : BlockId
  body : List Statement
  frame : FrameId
  params : List String := []

/-- How many parameters a piece of code takes. -/
def Code.arity (c : Code) : Nat := c.params.length

/-- A value of the language. -/
inductive Value where
  | number (x : Float)
  | array (items : List Value)
  | object (fields : List (String × Value))
  | code (c : Code)

/-- Puts a value under a name: a name that is there keeps its place, and a new one comes last. -/
def putField {α : Type} : List (String × α) → String → α → List (String × α)
  | [], name, value => [(name, value)]
  | (key, old) :: rest, name, value =>
    if key = name then (key, value) :: rest else (key, old) :: putField rest name value

/-- The character that a number is the code of. -/
def Number.toChar? (x : Float) : Option Char :=
  match Number.toNat? x with
  | some n => if n.isValidChar then some (Char.ofNat n) else none
  | none => none

namespace Value

/-- The kind of a value. -/
def kind : Value → Kind
  | number _ => .number
  | array _ => .array
  | object _ => .object
  | code _ => .code

/-- Whether a value counts as true: a number other than zero, data that is not empty, code. -/
def truthy : Value → Bool
  | number x => x != 0.0
  | array items => !items.isEmpty
  | object fields => !fields.isEmpty
  | code _ => true

/-- The number that stands for a truth value. -/
def ofBool (b : Bool) : Value := number (if b then 1.0 else 0.0)

/-- A text as a value. -/
def ofText (s : String) : Value := array (s.toList.map fun c => number c.val.toFloat)

/-- The number that a value is. -/
def number? : Value → Option Float
  | number x => some x
  | _ => none

/-- The code that a value is. -/
def code? : Value → Option Code
  | code c => some c
  | _ => none

/-- The character that a value is the code of. -/
def char? : Value → Option Char
  | number x => Number.toChar? x
  | _ => none

/-- The text that a value holds: every item must be the code of a character. -/
def text? : Value → Option String
  | array items => (items.mapM char?).map String.ofList
  | _ => none

/-- The numbers that a value holds, if it is an array of numbers. -/
def numbers? : Value → Option (List Float)
  | array items => items.mapM number?
  | _ => none

end Value

/-! ## Equality

Numbers are compared as numbers, arrays item by item, and objects name by name in any order. Two
pieces of code are equal when they are the same block, written in the same frame, with the same
parameters. -/

/-- Whether two pieces of code are the same. -/
def Code.same (a b : Code) : Bool :=
  a.block = b.block && a.frame = b.frame && a.params = b.params

namespace Value

mutual

/-- Whether two values are equal. -/
def same : Value → Value → Bool
  | number x, number y => x == y
  | array xs, array ys => sameItems xs ys
  | object fs, object gs => fs.length = gs.length && sameFields fs gs
  | code a, code b => a.same b
  | _, _ => false

/-- Whether two lists hold equal values in the same order. -/
def sameItems : List Value → List Value → Bool
  | [], [] => true
  | x :: xs, y :: ys => x.same y && sameItems xs ys
  | _, _ => false

/-- Whether every field of the first list has an equal one of its name in the second. -/
def sameFields : List (String × Value) → List (String × Value) → Bool
  | [], _ => true
  | (name, v) :: rest, gs =>
    (match gs.lookup name with
      | some w => v.same w
      | none => false) && sameFields rest gs

end

end Value

end Logo
