/-!
# Messages to the host

A program acts on the world through messages. They wait in an outbox and are published in the order
in which they were sent: when the outbox is flushed, or as soon as as many wait as it has room for.
-/

namespace Logo

/-- The data that a message carries. -/
inductive Payload where
  | null
  | bool (b : Bool)
  | number (x : Float)
  | text (s : String)
  | list (items : List Payload)
  | record (fields : List (String × Payload))

/-- A number as data: what is not finite has no representation. -/
def Payload.ofFloat (x : Float) : Payload := if x.isFinite then number x else null

/-- A message under a topic. -/
structure Message where
  topic : String
  payload : Payload

/-- The messages of a session. -/
structure Outbox where
  /-- The messages that the host has, oldest first. -/
  published : List Message := []
  /-- The messages that wait, oldest first. -/
  pending : List Message := []
  /-- How many messages may wait before all are published; none ever are if it is zero. -/
  capacity : Nat

namespace Outbox

/-- Publishes all messages that wait. -/
def flush (o : Outbox) : Outbox := { o with published := o.published ++ o.pending, pending := [] }

/-- Sends a message. -/
def push (o : Outbox) (m : Message) : Outbox :=
  let o := { o with pending := o.pending ++ [m] }
  if 0 < o.capacity && o.capacity ≤ o.pending.length then o.flush else o

/-- Hands the published messages over to the host. -/
def take (o : Outbox) : List Message × Outbox := (o.published, { o with published := [] })

/-- The published messages under a topic. -/
def withTopic (o : Outbox) (topic : String) : List Message :=
  o.published.filter (·.topic = topic)

/-- What can be done to an outbox. -/
inductive Operation where
  | push (m : Message)
  | flush
  | take

/-- What comes back from an operation. -/
inductive Answer where
  | nothing
  /-- How many messages were published. -/
  | count (n : Nat)
  | messages (taken : List Message)

/-- Performs an operation. -/
def perform (o : Outbox) : Operation → Answer × Outbox
  | .push m => (.nothing, o.push m)
  | .flush => (.count o.pending.length, o.flush)
  | .take => let (taken, o) := o.take; (.messages taken, o)

end Outbox

end Logo
