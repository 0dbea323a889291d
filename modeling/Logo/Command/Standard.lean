import Logo.Command.Flow
import Logo.Command.Turtle
import Logo.Interpreter.Run

/-!
# The commands of the language

`new` makes a variable and `set` changes one. `learn` makes a procedure and `return` leaves one.
`print` shows values. Together with those that control the flow and those that move the turtle,
these are the commands that every interpreter has.
-/

namespace Logo

variable {σ : Type}

namespace Command

/-- Takes a word and a value. -/
def declaration : Signature := .fixed [{ word := true }, .value]

/-- Makes a variable, or a member of one, in the current frame. -/
def new : Command σ where
  name := "new"
  signature := declaration
  handler := .simple fun effort frame arguments =>
    match arguments with
    | .word path :: value :: _ => do
      Action.updateStore fun store => store.create effort frame path value.toValue
      proceed
    | _ => proceed

/-- Changes a variable, or a member of one. -/
def set : Command σ where
  name := "set"
  signature := declaration
  handler := .simple fun effort frame arguments =>
    match arguments with
    | .word path :: value :: _ => do
      Action.updateStore fun store => store.set effort frame path value.toValue
      proceed
    | _ => proceed

/-- Shows values on one line. -/
def print : Command σ where
  name := "print"
  signature := .variadic [] [] .value ⟨0, none⟩
  handler := .simple fun _ _ arguments =>
    let text := " ".intercalate (arguments.map fun a => a.toValue.text)
    send "console.print" (.record [("text", .text text)])

/-- Leaves the procedure that is running, perhaps with a value. -/
def returnValue : Command σ where
  name := "return"
  signature := .variadic [] [] .value ⟨0, some 1⟩
  handler := .simple fun _ _ arguments => pure (.leave (arguments.head?.map Actual.toValue))

/-- Makes a procedure from its name, the names of its parameters and its body. -/
def learn : Command σ where
  name := "learn"
  signature := .variadic [{ word := true }] [{ code := true }] { word := true } ⟨2, none⟩
  handler := .simple fun effort frame arguments => do
    let name := Actual.wordAt arguments 0
    let params := (arguments.drop 1).dropLast.filterMap Actual.word?
    match Actual.codeAt arguments (arguments.length - 1) with
    | .error f => Action.fail f
    | .ok body => do
      Action.updateStore fun store => store.create effort frame name (.code { body with params })
      proceed

end Command

/-- The commands that every interpreter has. -/
def Command.standard : List (Command σ) :=
  [new, set, print, forward, backward, left, right, penUp, penDown, goto, home, clear, color, width,
    ifElse, stray "elif", stray "else", whileTrue, repeatTimes, eachItem, returnValue, learn]

/-- The registry of the commands that every interpreter has. -/
def Registry.standard : Registry σ := Registry.ofCommands Command.standard

/-- The version of the language. -/
def version : String := "0.3.0"

end Logo
