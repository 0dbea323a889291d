import Logo.Interpreter.Action

/-!
# A host that records a session

The recorder notes what its hooks are told. It follows a plan by which it flushes the outbox before
each statement, or stops a session at a chosen point.
-/

namespace Logo

/-- What a host is told in a session. -/
inductive Event where
  /-- The session starts. -/
  | start
  /-- The session is over. -/
  | finish
  /-- The session has failed. -/
  | error (failure : Failure)
  /-- A statement is about to run; with how many messages were published just now, how many still
  wait, and how many the host has. -/
  | statement (s : Statement) (flushed waiting onBus : Nat)

/-- How a recorder acts on a session. -/
structure Plan where
  /-- The message with which the start hook fails. -/
  failStart : Option String := none
  /-- The message with which the finish hook fails. -/
  failFinish : Option String := none
  /-- Whether the outbox is flushed before each statement. -/
  flush : Bool := false
  /-- The label of the statement before which the session is stopped. -/
  stopLabel : Option String := none
  /-- The number of the statement, counted from one, before which the session is stopped. -/
  stopAt : Option Nat := none
  /-- Whether the host sees the messages that are published. -/
  seesBus : Bool := true
deriving DecidableEq, Repr

/-- What a recorder has noted. -/
structure Recorder where
  /-- The events, last first. -/
  events : List Event := []
  /-- How many statements were announced. -/
  statements : Nat := 0

namespace Recorder

/-- Notes an event. -/
def note (r : Recorder) (e : Event) : Recorder := { r with events := e :: r.events }

/-- The events in order, and the recorder without them. -/
def take (r : Recorder) : List Event × Recorder := (r.events.reverse, { r with events := [] })

/-- What a hook with a planned message gives. -/
def planned (message : Option String) : Except Failure Unit :=
  match message with
  | some message => .error { fault := .host message }
  | none => .ok ()

/-- Whether the plan stops a session before a statement, the `n`-th one. -/
def stops (plan : Plan) (s : Statement) (n : Nat) : Bool :=
  plan.stopLabel = some s.label || plan.stopAt = some n

/-- The hooks of a recorder. -/
def hooks (plan : Plan) : Hooks Recorder where
  start _ r := (planned plan.failStart, r.note .start)
  beforeStatement s outbox r :=
    let flushed := if plan.flush then outbox.pending.length else 0
    let outbox := if plan.flush then outbox.flush else outbox
    let onBus := if plan.seesBus then outbox.published.length else 0
    let n := r.statements + 1
    let r := { r.note (.statement s flushed outbox.pending.length onBus) with statements := n }
    (if stops plan s n then .error { fault := .host "stopped" } else .ok (), outbox, r)
  afterError f _ r := r.note (.error f)
  finish _ r := (planned plan.failFinish, r.note .finish)

end Recorder

end Logo
