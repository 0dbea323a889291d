import Logo.Proofs.Interpreter.Agree

/-!
# Conservation of messages

Whatever is done to an outbox, no message is lost, doubled or passed by another: those that were
taken, those that are published and those that wait are the messages that were pushed, in order. An
outbox with room for some messages never has as many waiting, since the message that would fill it
goes out with all others.
-/

namespace Logo.Outbox

/-- The messages that an operation pushes. -/
def Operation.pushed : Operation → List Message
  | push m => [m]
  | flush | take => []

/-- The messages that were taken. -/
def Answer.taken : Answer → List Message
  | messages taken => taken
  | nothing | count _ => []

/-- Performs operations in order. -/
def performAll : Outbox → List Operation → List Answer × Outbox
  | o, [] => ([], o)
  | o, operation :: rest =>
    let (answer, o) := o.perform operation
    let (answers, o) := o.performAll rest
    (answer :: answers, o)

/-- The last of several operations is performed on the outbox that the others have left. -/
theorem performAll_concat (o : Outbox) (operations : List Operation) (operation : Operation) :
    o.performAll (operations ++ [operation]) =
      ((o.performAll operations).1 ++ [((o.performAll operations).2.perform operation).1],
        ((o.performAll operations).2.perform operation).2) := by
  induction operations generalizing o with
  | nil => rfl
  | cons _ operations ih => simp only [List.cons_append, performAll, ih]

/-! ## One operation -/

/-- Whether an outbox of a capacity accounts for the messages that were pushed, when some of them
were taken. -/
structure Accounts (capacity : ℕ) (pushed taken : List Message) (o : Outbox) : Prop where
  capacity_eq : o.capacity = capacity
  conserved : taken ++ o.sent = pushed
  room : 0 < capacity → o.pending.length < capacity

namespace Accounts

variable {capacity : ℕ} {pushed taken : List Message} {o : Outbox}

/-- A new outbox accounts for no messages. -/
theorem empty (capacity : ℕ) : ({ capacity } : Outbox).Accounts capacity [] [] where
  capacity_eq := rfl
  conserved := rfl
  room h := h

/-- The message that fills the outbox goes out with all others, and any other one waits. -/
theorem push_eq (h : o.Accounts capacity pushed taken) (m : Message) :
    o.push m =
      if capacity = o.pending.length + 1 then ⟨o.published ++ o.pending ++ [m], [], capacity⟩
      else ⟨o.published, o.pending ++ [m], capacity⟩ := by
  obtain ⟨rfl, _, hroom⟩ := h
  have hfull : (0 < o.capacity && o.capacity ≤ (o.pending ++ [m]).length) = true ↔
      o.capacity = o.pending.length + 1 := by
    simp only [Bool.and_eq_true, decide_eq_true_eq, List.length_append, List.length_singleton]
    omega
  unfold push
  dsimp only
  split
  · next hpush =>
    rw [if_pos (hfull.mp hpush), flush, List.append_assoc]
  · next hpush =>
    rw [if_neg (mt hfull.mpr hpush)]

/-- A message that is pushed comes last among those that the outbox accounts for. -/
theorem push (h : o.Accounts capacity pushed taken) (m : Message) :
    (o.push m).Accounts capacity (pushed ++ [m]) taken where
  capacity_eq := by
    rw [h.push_eq]
    split
    · rfl
    · rfl
  conserved := by rw [sent_push, ← List.append_assoc, h.conserved]
  room hpos := by
    have hroom := h.room hpos
    rw [h.push_eq]
    split
    · exact hpos
    · next hfull =>
      simp only [List.length_append, List.length_singleton]
      omega

/-- Publishing what waits keeps the order of the messages. -/
theorem flush_eq (h : o.Accounts capacity pushed taken) :
    o.flush = ⟨o.published ++ o.pending, [], capacity⟩ := by
  rw [Outbox.flush, h.capacity_eq]

/-- Publishing what waits loses no message. -/
theorem flush (h : o.Accounts capacity pushed taken) : o.flush.Accounts capacity pushed taken where
  capacity_eq := h.capacity_eq
  conserved := by rw [sent_flush, h.conserved]
  room hpos := hpos

/-- Messages that are taken out are accounted for among those that were taken. -/
theorem take (h : o.Accounts capacity pushed taken) :
    o.take.2.Accounts capacity pushed (taken ++ o.take.1) where
  capacity_eq := h.capacity_eq
  conserved := by
    rw [List.append_assoc]
    exact h.conserved
  room := h.room

/-- Every operation leaves an outbox that accounts for all messages. -/
theorem perform (h : o.Accounts capacity pushed taken) (operation : Operation) :
    (o.perform operation).2.Accounts capacity (pushed ++ operation.pushed)
      (taken ++ (o.perform operation).1.taken) := by
  cases operation with
  | push m =>
    simpa [Outbox.perform, Operation.pushed, Answer.taken] using h.push m
  | flush =>
    simpa [Outbox.perform, Operation.pushed, Answer.taken] using h.flush
  | take =>
    simpa [Outbox.perform, Operation.pushed, Answer.taken] using h.take

/-- All operations leave an outbox that accounts for all messages. -/
theorem performAll (h : o.Accounts capacity pushed taken) (operations : List Operation) :
    (o.performAll operations).2.Accounts capacity (pushed ++ operations.flatMap Operation.pushed)
      (taken ++ (o.performAll operations).1.flatMap Answer.taken) := by
  induction operations generalizing o pushed taken with
  | nil => simpa [Outbox.performAll] using h
  | cons operation rest ih =>
    simpa [Outbox.performAll] using ih (h.perform operation)

end Accounts

end Logo.Outbox

namespace Logo

open Outbox (Operation Answer)

/-- **Messages are conserved.** Let any operations be performed on an empty outbox of any capacity.
The messages that were taken, those that are published and those that wait are together the ones
that were pushed, in order. If the capacity is positive, fewer messages wait. If the outbox is
flushed next, the answer is the number of messages that go out, and none is left waiting. If a
message is pushed next, all that wait go out with it if it is the last one that there is room for,
and nothing goes out otherwise, so never if the capacity is zero. -/
theorem outbox_conserves_messages (capacity : ℕ) (operations : List Operation) :
    let start : Outbox := { capacity }
    let answers := (start.performAll operations).1
    let o := (start.performAll operations).2
    answers.flatMap Answer.taken ++ o.published ++ o.pending =
      operations.flatMap Operation.pushed ∧
    (0 < capacity → o.pending.length < capacity) ∧
    (start.performAll (operations ++ [.flush]) =
      (answers ++ [.count o.pending.length], ⟨o.published ++ o.pending, [], capacity⟩)) ∧
    ∀ m, start.performAll (operations ++ [.push m]) =
      (answers ++ [.nothing],
        if capacity = o.pending.length + 1 then ⟨o.published ++ o.pending ++ [m], [], capacity⟩
        else ⟨o.published, o.pending ++ [m], capacity⟩) := by
  intro start answers o
  have haccounts : o.Accounts capacity _ _ := (Outbox.Accounts.empty capacity).performAll operations
  refine ⟨?_, haccounts.room, ?_, fun m => ?_⟩
  · rw [List.append_assoc]
    exact haccounts.conserved
  · rw [Outbox.performAll_concat, Outbox.perform, haccounts.flush_eq]
  · rw [Outbox.performAll_concat, Outbox.perform, haccounts.push_eq]

/-- The second of two messages fills an outbox with room for two, and the third one waits until the
outbox is flushed. -/
theorem outbox_conserves_messages_two :
    let start : Outbox := { capacity := 2 }
    let a : Message := ⟨"a", .null⟩
    let b : Message := ⟨"b", .null⟩
    let c : Message := ⟨"c", .null⟩
    let operations : List Operation := [.push a, .push b, .push c, .take]
    start.performAll operations =
        ([.nothing, .nothing, .nothing, .messages [a, b]], ⟨[], [c], 2⟩) ∧
      (start.performAll operations).2.pending.length < 2 ∧
      start.performAll (operations ++ [.flush]) =
        ([.nothing, .nothing, .nothing, .messages [a, b], .count 1], ⟨[c], [], 2⟩) := by
  intro start a b c operations
  obtain ⟨_, hroom, hflush, _⟩ := outbox_conserves_messages 2 operations
  exact ⟨rfl, hroom (by decide), hflush⟩

end Logo
