import Logo.Interpreter.Command

/-!
# Turtle commands

Each command tells the host of one move of the turtle or change of its pen. Angles are in degrees,
and a positive angle turns to the left.
-/

namespace Logo.Command

variable {σ : Type}

/-- Takes one number. -/
def oneNumber : Signature := .fixed [{ numeric := true }]

/-- A command that sends one number under a topic. -/
def measured (name : String) (aliases : List String) (topic field : String)
    (f : Float → Float) : Command σ where
  name
  aliases
  signature := oneNumber
  handler := .simple fun _ _ arguments =>
    send topic (.record [(field, .ofFloat (f (Actual.numberAt arguments 0)))])

/-- A command without arguments that sends a fixed message. -/
def signal (name : String) (aliases : List String) (topic : String)
    (fields : List (String × Payload)) : Command σ where
  name
  aliases
  signature := .fixed []
  handler := .simple fun _ _ _ => send topic (.record fields)

/-- Moves forward. -/
def forward : Command σ := measured "forward" ["fd", "f"] "turtle.move" "distance" id

/-- Moves backward. -/
def backward : Command σ := measured "backward" ["bk", "b"] "turtle.move" "distance" fun x => -x

/-- Turns to the left. -/
def left : Command σ := measured "left" ["lt", "l"] "turtle.turn" "angle" id

/-- Turns to the right. -/
def right : Command σ := measured "right" ["rt", "r"] "turtle.turn" "angle" fun x => -x

/-- Lifts the pen. -/
def penUp : Command σ := signal "penup" ["pu"] "turtle.pen" [("down", .bool false)]

/-- Sets the pen down. -/
def penDown : Command σ := signal "pendown" ["pd"] "turtle.pen" [("down", .bool true)]

/-- Moves to a point. -/
def goto : Command σ where
  name := "goto"
  signature := .fixed [{ numeric := true }, { numeric := true }]
  handler := .simple fun _ _ arguments =>
    send "turtle.goto" (.record [("x", .ofFloat (Actual.numberAt arguments 0)),
      ("y", .ofFloat (Actual.numberAt arguments 1))])

/-- Moves back to the start. -/
def home : Command σ := signal "home" [] "turtle.home" []

/-- Clears the drawing. -/
def clear : Command σ := signal "clear" [] "turtle.clear" []

/-- Sets the width of the pen. -/
def width : Command σ := measured "width" [] "turtle.width" "width" id

/-- The number of a color component. -/
def colorComponent (v : Value) : Except Fault Payload :=
  match v with
  | .number x => .ok (.ofFloat x)
  | v => .error (.typeMismatch "color" .numberArray (.kind v.kind))

/-- The color that arguments give: a name, the components in an array, or the components one by
one. -/
def colorPayload (arguments : List Actual) : Except Fault Payload :=
  match arguments with
  | [.value (.array items)] =>
    match Value.printable? items with
    | some cs => .ok (.text (String.ofList cs))
    | none => (items.mapM colorComponent).map .list
  | [.value (.object _)] => .error (.typeMismatch "color" .numberArray (.kind .object))
  | components => .ok (.list ((components.filterMap Actual.number?).map .ofFloat))

/-- Sets the color of the pen. -/
def color : Command σ where
  name := "color"
  signature := .variadic [] [] { numeric := true, array := true } ⟨1, some 3⟩
  handler := .simple fun _ _ arguments =>
    match colorPayload arguments with
    | .error f => Action.fail f
    | .ok payload => send "turtle.color" (.record [("color", payload)])

end Logo.Command
