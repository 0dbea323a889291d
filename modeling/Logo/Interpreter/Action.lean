import Logo.Message
import Logo.Store

/-!
# Actions and hooks

What runs changes a machine: the store, the outbox, the depth of nested blocks and the state of the
host. An action gives a value or a failure and leaves the machine as it has become by then; it gives
nothing if it was given too little effort.

A host is told when a session starts, before each statement, when the session fails, and when it is
over. It sees the outbox each time, may publish waiting messages before a statement, and may stop
the session by a failure of its own.
-/

namespace Logo

/-- What a statement or block ends with. -/
inductive Flow where
  /-- The next statement follows; a value may have come out. -/
  | next (v : Option Value)
  /-- The procedure that is running is left, perhaps with a value. -/
  | leave (v : Option Value)

namespace Flow

/-- The value that came out. -/
def value? : Flow → Option Value
  | next v | leave v => v

/-- Whether the procedure that is running is left. -/
def isLeave : Flow → Bool
  | next _ => false
  | leave _ => true

/-- Whether a value came out that counts as true. -/
def truthy (f : Flow) : Bool := f.value?.any Value.truthy

/-- The flow after a procedure body, which nothing leaves any further. -/
def absorb : Flow → Flow
  | next v | leave v => next v

end Flow

/-- What a running program changes; `σ` is the state of its host. -/
structure Machine (σ : Type) where
  store : Store
  outbox : Outbox
  /-- How many blocks are running inside each other. -/
  depth : Nat := 0
  host : σ

/-- A change of a machine that ends in a value or a failure, or in nothing for want of effort. -/
abbrev Action (σ α : Type) : Type := ExceptT Failure (StateT (Machine σ) Option) α

namespace Action

variable {σ α : Type}

/-- The action that a function on machines describes. -/
def ofFun (f : Machine σ → Option (Except Failure α × Machine σ)) : Action σ α := ExceptT.mk f

/-- What an action does to a machine. -/
def apply (a : Action σ α) (m : Machine σ) : Option (Except Failure α × Machine σ) := a.run m

/-- The action that ran out of effort. -/
def exhausted : Action σ α := ofFun fun _ => none

/-- The action that fails. -/
def fail (f : Fault) : Action σ α := throw { fault := f }

/-- Evaluates, and leaves the machine alone. -/
def ofEval (e : Eval α) : Action σ α := ofFun fun m =>
  match e.run with
  | none => none
  | some (.ok a) => some (.ok a, m)
  | some (.error f) => some (.error { fault := f }, m)

/-- The store. -/
def store : Action σ Store := do return (← get).store

/-- Evaluates a new store. -/
def updateStore (f : Store → Eval Store) : Action σ Unit := do
  let s ← store
  let s ← ofEval (f s)
  modify ({ · with store := s })

/-- Sends a message. -/
def publish (m : Message) : Action σ Unit := modify fun s => { s with outbox := s.outbox.push m }

/-- Notes the line of a statement on its failure. -/
def atLine (line : Nat) (a : Action σ α) : Action σ α := ofFun fun m =>
  match a.apply m with
  | some (.error f, m) => some (.error (f.atLine line), m)
  | r => r

/-- Runs a block one level deeper, if the limit admits it. -/
def nested (limit : Nat) (a : Action σ α) : Action σ α := ofFun fun m =>
  if limit ≤ m.depth then some (.error { fault := .depthLimit limit }, m)
  else
    match a.apply { m with depth := m.depth + 1 } with
    | none => none
    | some (r, m) => some (r, { m with depth := m.depth - 1 })

/-- Runs an action with a new frame inside the one that code was written in, and drops the frame at
the end. The frame of the code must still be in use. -/
def inFrame (code : Code) (bindings : Option Bindings) (a : FrameId → Action σ α) : Action σ α :=
  ofFun fun m =>
    if m.store.isLive code.frame then
      let id := m.store.next
      match (a id).apply { m with store := m.store.push (some code.frame) bindings } with
      | none => none
      | some (r, m) => some (r, { m with store := m.store.drop id })
    else some (.error { fault := .expiredScope }, m)

end Action

/-- The hooks of a host with the state `σ`. -/
structure Hooks (σ : Type) where
  /-- Called first, before any statement. -/
  start : Outbox → σ → Except Failure Unit × σ
  /-- Called before every statement, each round of a loop included. -/
  beforeStatement : Statement → Outbox → σ → Except Failure Unit × Outbox × σ
  /-- Called once a session has failed, after its messages are published. -/
  afterError : Failure → Outbox → σ → σ
  /-- Called last, whether or not the session has failed. -/
  finish : Outbox → σ → Except Failure Unit × σ

namespace Hooks

/-- Hooks that do nothing. -/
def none {σ : Type} : Hooks σ where
  start _ host := (.ok (), host)
  beforeStatement _ outbox host := (.ok (), outbox, host)
  afterError _ _ host := host
  finish _ host := (.ok (), host)

/-- The hook before a statement, as an action. -/
def announce {σ : Type} (h : Hooks σ) (s : Statement) : Action σ Unit := Action.ofFun fun m =>
  let (r, outbox, host) := h.beforeStatement s m.outbox m.host
  some (r, { m with outbox, host })

end Hooks

end Logo
