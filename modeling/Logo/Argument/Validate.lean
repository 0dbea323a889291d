import Logo.Fault
import Logo.Store
import Logo.Text.Word

/-!
# Signatures and arguments

A signature says how many arguments a command takes and which categories each position permits. In a
variadic signature the back positions are counted from the end and come first, so that front
positions fall away when arguments are left out.

Before a command runs, its arguments are brought into one of two forms: a word, or a value. A block
becomes code of the current frame. A text is kept as a word, replaced by the variable that it names,
or evaluated, in this order and as far as its position permits.
-/

namespace Logo

/-- What a command asks of its arguments. -/
inductive Signature where
  /-- One argument for each position. -/
  | fixed (positions : List Categories)
  /-- Positions at the front and at the back, with any number of others between them. -/
  | variadic (front back : List Categories) (between : Categories) (bounds : ArgumentBounds)
deriving DecidableEq, Repr

namespace Signature

/-- So many arguments, all of the same categories. -/
def exactly (count : Nat) (categories : Categories) : Signature :=
  variadic [] [] categories ⟨count, some count⟩

/-- How many arguments a signature admits. -/
def bounds : Signature → ArgumentBounds
  | fixed positions => ⟨positions.length, some positions.length⟩
  | variadic _ _ _ bounds => bounds

/-- The categories permitted at an index when `total` arguments are given. -/
def permitted (signature : Signature) (index total : Nat) : Categories :=
  match signature with
  | fixed positions => positions[index]?.getD .none
  | variadic front back between _ =>
    if total - back.length ≤ index then back[back.length - (total - index)]?.getD .none
    else front[index]?.getD between

/-- Checks the number of arguments. -/
def checkCount (signature : Signature) (command : String) (count : Nat) : Except Fault Unit :=
  let bounds := signature.bounds
  if bounds.least ≤ count && bounds.most.all (count ≤ ·) then .ok ()
  else .error (.argumentCount command bounds count)

end Signature

/-- An argument as a command gets it. -/
inductive Actual where
  | word (text : String)
  | value (v : Value)

namespace Actual

/-- The word that an argument is. -/
def word? : Actual → Option String
  | word text => some text
  | value _ => none

/-- The number that an argument is. -/
def number? : Actual → Option Float
  | word _ => none
  | value v => v.number?

/-- The code that an argument is. -/
def code? : Actual → Option Code
  | word _ => none
  | value v => v.code?

/-- The argument as a value: a word becomes text. -/
def toValue : Actual → Value
  | word text => .ofText text
  | value v => v

/-- What an argument is, for messages. -/
def finding : Actual → Finding
  | word _ => .word
  | value v => .kind v.kind

/-- The name of what an argument is. -/
def kindName (a : Actual) : String := a.finding.message

end Actual

/-- Whether a value fits some categories. Where none of the categories names a kind of value, any
value of a variable fits. -/
def Categories.accepts (c : Categories) (v : Value) : Bool :=
  if c.numeric || c.array || c.code then
    match v with
    | .number _ => c.numeric
    | .array _ | .object _ => c.array
    | .code _ => c.code
  else c.reference

/-- What an argument is checked against: the command, the place of the argument counted from zero,
and the categories that are permitted there. -/
structure Demand where
  command : String
  index : Nat
  permitted : Categories

namespace Demand

/-- The fault of an argument that does not fit. -/
def reject (d : Demand) (found : Unfit) : Fault :=
  .argumentCategory d.command (d.index + 1) d.permitted found

/-- Takes the value of a text if it fits. -/
def accept (d : Demand) (text : String) (v : Value) : Except Fault Actual :=
  if d.permitted.accepts v then .ok (.value v) else .error (d.reject (.value text v.kind))

end Demand

/-- Checks a text by its value, once it is known to be no word and no variable. -/
def evaluateArgument (effort : Nat) (store : Store) (frame : FrameId) (d : Demand)
    (text : String) : Eval Actual := do
  if d.permitted.numeric || d.permitted.array then
    let v ← evaluate effort (store.environment frame) text
    d.accept text v
  else throw (d.reject (.text text))

/-- Checks a text that is given as an argument. -/
def checkText (effort : Nat) (store : Store) (frame : FrameId) (d : Demand) (text : String) :
    Eval Actual := do
  let plain := isPlainWord text
  if plain && d.permitted.word then return .word text
  else if d.permitted.expression then
    let _ ← compile text
    return .word text
  else if plain && (d.permitted.reference || d.permitted.code) then
    match (store.get effort frame text).run with
    | none => Eval.exhausted
    | some (.ok v) => d.accept text v
    | some (.error _) => evaluateArgument effort store frame d text
  else evaluateArgument effort store frame d text

/-- Checks an argument. -/
def checkArgument (effort : Nat) (store : Store) (frame : FrameId) (d : Demand) :
    Argument → Eval Actual
  | .block id body =>
    if d.permitted.code then return .value (.code { block := id, body, frame })
    else throw (d.reject .block)
  | .text text => checkText effort store frame d text

/-- Checks the arguments of a command against its signature. -/
def validate (effort : Nat) (store : Store) (frame : FrameId) (command : String)
    (signature : Signature) (arguments : List Argument) : Eval (List Actual) := do
  signature.checkCount command arguments.length
  arguments.zipIdx.mapM fun (argument, index) =>
    checkArgument effort store frame
      ⟨command, index, signature.permitted index arguments.length⟩ argument

end Logo
