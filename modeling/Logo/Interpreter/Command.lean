import Logo.Argument.Validate
import Logo.Interpreter.Action
import Logo.Settings.Reader

/-!
# Commands

A command has a name, perhaps some further names, a signature and a way to run. A simple command
does its work at once. A control command runs code that it got as an argument. A registry holds the
commands under all their names; a later command takes the names that it shares from an earlier one.

A command finds its arguments at fixed positions. What its signature rules out is still answered: a
missing word is empty, a missing number is zero, and missing code is a fault.
-/

namespace Logo

/-- What a control command has at hand. -/
structure Runner (σ : Type) where
  /-- The bound on the nesting of evaluations and on the rounds of a loop. -/
  effort : Nat
  settings : Settings
  /-- Runs code in a new frame with bindings; a procedure body ends what leaves it. -/
  invoke : (code : Code) → (bindings : Option Bindings) → (procedure : Bool) → Action σ Flow

/-- How a command runs, in a frame and on its checked arguments. -/
inductive Handler (σ : Type) where
  /-- Does its work at once. -/
  | simple (run : (effort : Nat) → FrameId → List Actual → Action σ Flow)
  /-- Runs code that it got as an argument. -/
  | control (run : Runner σ → FrameId → List Actual → Action σ Flow)

namespace Handler

variable {σ : Type}

/-- Whether a command runs code. -/
def isControl : Handler σ → Bool
  | simple _ => false
  | control _ => true

/-- Runs a command. -/
def run : Handler σ → Runner σ → FrameId → List Actual → Action σ Flow
  | simple run, runner => run runner.effort
  | control run, runner => run runner

end Handler

/-- A command of the language or of its host. -/
structure Command (σ : Type) where
  name : String
  /-- Further names for the same command. -/
  aliases : List String := []
  /-- What is asked of the arguments before the command runs. -/
  signature : Signature
  handler : Handler σ

/-- The names of a command. -/
def Command.names {σ : Type} (c : Command σ) : List String := c.name :: c.aliases

/-- Commands under their names, later ones first. -/
abbrev Registry (σ : Type) := List (String × Command σ)

namespace Registry

variable {σ : Type}

/-- Adds a command under all its names. -/
def register (r : Registry σ) (c : Command σ) : Registry σ :=
  c.names.foldl (fun r name => (name, c) :: r) r

/-- The registry of some commands. -/
def ofCommands (commands : List (Command σ)) : Registry σ := commands.foldl register []

/-- The command of a label. -/
def find? (r : Registry σ) (label : String) : Option (Command σ) := r.lookup label

/-- All labels, in alphabetical order. -/
def labels (r : Registry σ) : List String := (r.map Prod.fst).eraseDups.mergeSort

end Registry

namespace Actual

/-- The word at a position. -/
def wordAt (arguments : List Actual) (index : Nat) : String :=
  (arguments[index]?.bind word?).getD ""

/-- The number at a position. -/
def numberAt (arguments : List Actual) (index : Nat) : Float :=
  (arguments[index]?.bind number?).getD 0.0

/-- The code at a position. -/
def codeAt (arguments : List Actual) (index : Nat) : Except Fault Code :=
  match arguments[index]?.bind code? with
  | some code => .ok code
  | none => .error (.malformedBranch (.expectedCode (index + 1)))

end Actual

/-- The flow of a command that has no value. -/
def proceed {σ : Type} : Action σ Flow := pure (.next none)

/-- Sends a message and goes on. -/
def send {σ : Type} (topic : String) (payload : Payload) : Action σ Flow := do
  Action.publish ⟨topic, payload⟩
  proceed

end Logo
