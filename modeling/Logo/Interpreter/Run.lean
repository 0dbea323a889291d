import Logo.Interpreter.Action
import Logo.Interpreter.Command
import Logo.Statement.Parse
import Logo.Token.Scan

/-!
# Running programs

The label of a statement is looked up among the commands, then among the procedures in scope; a
statement that is neither is an expression. A block runs its statements in order until one leaves
the procedure. Blocks run inside each other to a bounded depth, and a session runs a whole program.
-/

namespace Logo

/-- What runs programs for a host with the state `σ`. -/
structure Interpreter (σ : Type) where
  settings : Settings := {}
  registry : Registry σ
  hooks : Hooks σ := Hooks.none

/-- Runs statements in order by `step`, until one leaves; the value that comes out is that of the
last one. -/
def runStatements {σ : Type} (step : Statement → Action σ Flow) :
    Option Value → List Statement → Action σ Flow
  | last, [] => pure (.next last)
  | _, s :: rest => do
    match ← (step s).atLine s.pos.line with
    | .leave v => return .leave v
    | .next v => runStatements step v rest

/-- The procedure that a label names in a frame. -/
def Store.procedure? (s : Store) (frame : FrameId) (label : String) : Option Code :=
  if isIdentifier label then (s.find? frame label).bind Value.code? else none

/-- The bindings of a procedure's parameters; of equal names the last counts. -/
def bindParams (params : List String) (arguments : List Actual) : Bindings :=
  (params.zip arguments).foldl (fun b (name, a) => putField b name a.toValue) []

/-- The text of a statement as an expression, unless a block is among its arguments. -/
def Statement.expression? (s : Statement) : Option String :=
  s.arguments.foldlM (fun text a =>
    match a with
    | .text part => some (text ++ " " ++ part)
    | .block _ _ => none) s.label

/-- Evaluates a statement as an expression. -/
def evaluateStatement (effort : Nat) (store : Store) (frame : FrameId) (s : Statement) :
    Eval Value :=
  if isIdentifier s.label && !s.arguments.isEmpty && (store.find? frame s.label).isNone then
    throw (.unknownCommand s.label)
  else
    match s.expression? with
    | none => throw (.unknownCommand s.label)
    | some expression => evaluate effort (store.environment frame) expression

namespace Interpreter

variable {σ : Type}

/-- Calls a procedure with the arguments of a statement. -/
def call (runner : Runner σ) (frame : FrameId) (s : Statement) (code : Code) : Action σ Flow := do
  let store ← Action.store
  let arguments ← Action.ofEval
    (validate runner.effort store frame s.label (.exactly code.arity .value) s.arguments)
  runner.invoke code (some (bindParams code.params arguments)) true

/-- Runs what a statement says, apart from its return binding. -/
def dispatch (i : Interpreter σ) (runner : Runner σ) (frame : FrameId) (s : Statement) :
    Action σ Flow := do
  let store ← Action.store
  match i.registry.find? s.label with
  | some command => do
    let arguments ← Action.ofEval
      (validate runner.effort store frame s.label command.signature s.arguments)
    command.handler.run runner frame arguments
  | none =>
    match store.procedure? frame s.label with
    | some code => call runner frame s code
    | none => do return .next (some (← Action.ofEval (evaluateStatement runner.effort store frame s)))

/-- Gives the value of a statement to its target. -/
def bindTarget (effort : Nat) (frame : FrameId) (s : Statement) (flow : Flow) : Action σ Unit :=
  match s.target with
  | none => pure ()
  | some target =>
    match flow.value? with
    | none => Action.fail (.missingValue s.label)
    | some v =>
      Action.updateStore fun store =>
        if target.fresh then store.create effort frame target.name v
        else store.set effort frame target.name v

/-- Runs a statement: its hook, what it says, and its return binding. -/
def runStatement (i : Interpreter σ) (runner : Runner σ) (frame : FrameId) (s : Statement) :
    Action σ Flow := do
  i.hooks.announce s
  let flow ← i.dispatch runner frame s
  bindTarget runner.effort frame s flow
  return flow

/-- Runs a block in a frame. A procedure body ends what leaves it; any other block passes it on. -/
def runBlock (i : Interpreter σ) :
    (effort : Nat) → List Statement → FrameId → (procedure : Bool) → Action σ Flow
  | 0, _, _, _ => Action.exhausted
  | effort + 1, body, frame, procedure => do
    let runner : Runner σ := {
      effort
      settings := i.settings
      invoke := fun code bindings procedure =>
        Action.inFrame code bindings fun id => i.runBlock effort code.body id procedure }
    let flow ← Action.nested i.settings.maxDepth
      (runStatements (i.runStatement runner frame) none body)
    return if procedure then flow.absorb else flow

/-- Runs a program as one session: the start hook, the statements, the waiting messages, the error
hook after a failure, and the finish hook. A failure of the finish hook counts only if nothing else
failed. -/
def runSession (i : Interpreter σ) (effort : Nat) (program : List Statement) (frame : FrameId)
    (m : Machine σ) : Option (Except Failure Unit × Machine σ) :=
  let outbox := { m.outbox with pending := [], capacity := i.settings.queueCapacity }
  let (started, host) := i.hooks.start outbox m.host
  let m := { m with outbox, host, depth := 0 }
  let ran : Option (Except Failure Flow × Machine σ) := match started with
    | .error f => some (.error f, m)
    | .ok () => (i.runBlock effort program frame false).apply m
  match ran with
  | none => none
  | some (outcome, m) =>
    let outbox := m.outbox.flush
    let host := match outcome with
      | .error f => i.hooks.afterError f outbox m.host
      | .ok _ => m.host
    let (finished, host) := i.hooks.finish outbox host
    let result : Except Failure Unit := match outcome with
      | .error f => .error f
      | .ok _ => finished
    some (result, { m with outbox, host })

/-- Runs a program text as one session. Faults in the text are found before the session starts. -/
def execute (i : Interpreter σ) (effort unit : Nat) (source : String) (frame : FrameId)
    (m : Machine σ) : Option (Except Failure Unit × Machine σ) :=
  match tokenize source >>= parse unit with
  | .error f => some (.error { fault := f }, m)
  | .ok program => i.runSession effort program frame m

end Interpreter

end Logo
