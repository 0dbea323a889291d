import Logo.Host.Commands
import Logo.Host.Recorder
import Logo.Proofs.Interpreter.Agree
import Logo.Proofs.Interpreter.Occurrence

/-!
# Batches of messages

Messages wait in the outbox until enough of them are there, until a hook publishes them, or until
the session is over. Which of these comes first makes no difference to what a session does: it ends
in the same way, with the same store, and has published the same messages in the same order.
-/

namespace Logo

variable {σ : Type} {H : σ → σ → Prop}

/-- The hooks at the end of a session go alike. -/
theorem Interpreter.Agree.conclude {i₁ i₂ : Interpreter σ} (h : i₁.Agree H i₂)
    (r : Except Failure Flow) {m₁ m₂ : Machine σ} (hm : m₁.Agree H m₂) :
    (i₁.conclude (r, m₁)).1 = (i₂.conclude (r, m₂)).1 ∧
      H (i₁.conclude (r, m₁)).2.host (i₂.conclude (r, m₂)).2.host := by
  cases r with
  | error f =>
    have herror := h.hooks.afterError f m₁.outbox.flush m₂.outbox.flush _ _ hm.host
    exact ⟨rfl, (h.hooks.finish _ _ _ _ herror).2⟩
  | ok flow => exact h.hooks.finish _ _ _ _ hm.host

/-- The blocks of two sessions go alike, also if the start hooks fail. -/
theorem Interpreter.Agree.sessionOutcome {i₁ i₂ : Interpreter σ} (h : i₁.Agree H i₂) (effort : ℕ)
    (program : List Statement) (frame : FrameId) {m₁ m₂ : Machine σ} (hstore : m₁.store = m₂.store)
    (hhost : H m₁.host m₂.host) :
    Option.Rel (fun e₁ e₂ => e₁.1 = e₂.1 ∧
        Machine.KeepPace H (i₁.sessionBlock effort program frame m₁).start
          (i₂.sessionBlock effort program frame m₂).start e₁.2 e₂.2)
      (i₁.sessionOutcome effort program frame m₁) (i₂.sessionOutcome effort program frame m₂) := by
  obtain ⟨hstarted, hhost'⟩ := h.hooks.start
    { m₁.outbox with pending := [], capacity := i₁.settings.queueCapacity }
    { m₂.outbox with pending := [], capacity := i₂.settings.queueCapacity } _ _ hhost
  have hagree : (i₁.sessionBlock effort program frame m₁).start.Agree H
      (i₂.sessionBlock effort program frame m₂).start := ⟨hstore, rfl, hhost'⟩
  rw [Interpreter.sessionOutcome, Interpreter.sessionOutcome, hstarted]
  cases (i₂.hooks.start { m₂.outbox with pending := [], capacity := i₂.settings.queueCapacity }
      m₂.host).1 with
  | error f => exact .some ⟨rfl, hagree.keepPace⟩
  | ok _ => exact h.runBlock effort program frame false _ _ hagree

/-! ## A recorder and commands of a host -/

/-- An event without the numbers of messages. -/
def Event.uncounted : Event → Event
  | .statement s _ _ _ => .statement s 0 0 0
  | e => e

namespace Recorder

/-- Whether two recorders have noted the same, apart from numbers of messages. -/
def Alike (r₁ r₂ : Recorder) : Prop :=
  r₁.statements = r₂.statements ∧ r₁.events.map Event.uncounted = r₂.events.map Event.uncounted

/-- Recorders that have noted the same still have when both note events that differ in numbers of
messages only. -/
theorem Alike.note {r₁ r₂ : Recorder} (h : r₁.Alike r₂) {e₁ e₂ : Event}
    (he : e₁.uncounted = e₂.uncounted) : (r₁.note e₁).Alike (r₂.note e₂) :=
  ⟨h.1, congrArg₂ List.cons he h.2⟩

/-- Recorders act alike if their plans differ only in whether they publish before statements. -/
theorem agree_hooks (plan : Plan) (flush₁ flush₂ : Bool) :
    (hooks { plan with flush := flush₁ }).Agree Alike (hooks { plan with flush := flush₂ }) where
  start _ _ _ _ h := ⟨rfl, h.note rfl⟩
  beforeStatement s o₁ o₂ x₁ x₂ h := by
    have hsent (flush : Bool) (o : Outbox) : (if flush then o.flush else o).sent = o.sent := by
      cases flush <;> simp
    refine ⟨?_, ⟨congrArg (· + 1) h.1, congrArg₂ List.cons rfl h.2⟩, [], ?_, ?_⟩
    · simp only [hooks, h.1]
      rfl
    · simp [hooks, hsent]
    · simp [hooks, hsent]
  afterError _ _ _ _ _ h := h.note rfl
  finish _ _ _ _ h := ⟨rfl, h.note rfl⟩

end Recorder

namespace Command

/-- The stamp command pays no attention to the outbox. -/
theorem oblivious_stampAs (name : String) (aliases : List String) :
    (stampAs name aliases : Command σ).Oblivious H := by
  intro r₁ r₂ _ frame arguments m₁ m₂ hm
  change Option.Rel _ (some _) (some _)
  rw [hm.depth]
  exact .some ⟨rfl, ⟨hm.store, hm.depth, hm.host⟩, _, Outbox.sent_push .., Outbox.sent_push ..⟩

/-- The command that runs a block twice pays no attention to the outbox. -/
theorem oblivious_twice : (twice : Command σ).Oblivious H := by
  intro r₁ r₂ hr frame arguments
  simp only [twice, Handler.run]
  cases Actual.codeAt arguments 0 with
  | error f => exact .fail f
  | ok body =>
    refine (hr.invoke body _ false).bind fun flow => ?_
    cases flow.isLeave with
    | true => exact .pure flow
    | false => exact hr.invoke body _ false

end Command

/-- **Batching makes no difference.** A message that is sent comes after all that were sent before.
For two interpreters whose hosts act alike, but may publish waiting messages before any statement,
and whose outboxes have room for different numbers of messages, a program comes to the same: both
sessions run out of effort, or both end, with the same result and the same store, also by a failure.
The messages that they have added to those of the host are the same, in the same order, and none is
left waiting. The commands are those of the language and further ones that pay no attention to the
outbox. -/
theorem batching_is_transparent (H : σ → σ → Prop) (settings : Settings) (capacity₁ capacity₂ : ℕ)
    (extra : List (Command σ)) (hooks₁ hooks₂ : Hooks σ) :
    let registry := extra.foldl Registry.register .standard
    let i₁ : Interpreter σ :=
      { settings := { settings with queueCapacity := capacity₁ }, registry, hooks := hooks₁ }
    let i₂ : Interpreter σ :=
      { settings := { settings with queueCapacity := capacity₂ }, registry, hooks := hooks₂ }
    (∀ c ∈ extra, c.Oblivious H) → hooks₁.Agree H hooks₂ →
      (∀ (outbox : Outbox) (message : Message),
        (outbox.push message).sent = outbox.sent ++ [message]) ∧
      ∀ (effort : ℕ) (program : List Statement) (frame : FrameId) (m₁ m₂ : Machine σ),
        m₁.store = m₂.store → H m₁.host m₂.host →
        Option.Rel (fun e₁ e₂ => e₁.1 = e₂.1 ∧ e₁.2.store = e₂.2.store ∧ H e₁.2.host e₂.2.host ∧
            ∃ new, e₁.2.outbox.published = m₁.outbox.published ++ new ∧
              e₂.2.outbox.published = m₂.outbox.published ++ new ∧
              e₁.2.outbox.pending = [] ∧ e₂.2.outbox.pending = [])
          (i₁.runSession effort program frame m₁) (i₂.runSession effort program frame m₂) := by
  intro registry i₁ i₂ hextra hhooks
  have h : i₁.Agree H i₂ :=
    { settings := rfl
      registry := rfl
      hooks := hhooks
      oblivious := fun label c hfind => by
        rcases Registry.mem_of_find?_foldl hfind with ⟨hmem, _⟩ | hstandard
        · exact hextra c hmem
        · exact Command.oblivious_of_mem_standard (Registry.mem_of_find?_standard hstandard).1 }
  refine ⟨Outbox.sent_push, fun effort program frame m₁ m₂ hstore hhost => ?_⟩
  rw [i₁.runSession_eq, i₂.runSession_eq]
  refine rel_map (h.sessionOutcome effort program frame hstore hhost) ?_
  rintro ⟨r, m₁'⟩ ⟨_, m₂'⟩ ⟨rfl, hpace⟩
  obtain ⟨hresult, hhost'⟩ := h.conclude r hpace.agree
  obtain ⟨new, hnew₁, hnew₂⟩ := hpace.sent
  refine ⟨hresult, ?_, hhost', new, ?_⟩
  · rw [i₁.store_conclude, i₂.store_conclude]
    exact hpace.agree.store
  · rw [i₁.outbox_conclude, i₂.outbox_conclude]
    refine ⟨?_, ?_, rfl, rfl⟩
    · calc m₁'.outbox.sent
        _ = m₁.outbox.published ++ [] ++ new := hnew₁
        _ = m₁.outbox.published ++ new := by rw [List.append_nil]
    · calc m₂'.outbox.sent
        _ = m₂.outbox.published ++ [] ++ new := hnew₂
        _ = m₂.outbox.published ++ new := by rw [List.append_nil]

/-- A program that sends two messages and fails publishes both, one by one or together at the
end. -/
theorem batching_is_transparent_pen :
    let registry : Registry Recorder := [.stamp, .twice].foldl Registry.register .standard
    let i₁ : Interpreter Recorder :=
      { settings := { queueCapacity := 0 }, registry, hooks := Recorder.hooks {} }
    let i₂ : Interpreter Recorder :=
      { settings := { queueCapacity := 2 }, registry, hooks := Recorder.hooks { flush := true } }
    let program : List Statement := [⟨"penup", [], none, ⟨1, 1⟩⟩, ⟨"pd", [], none, ⟨2, 1⟩⟩,
      ⟨"else", [], none, ⟨3, 1⟩⟩, ⟨"home", [], none, ⟨4, 1⟩⟩]
    let m : Machine Recorder :=
      { store := ({} : Store).push none none, outbox := { capacity := 64 }, host := {} }
    let pen (down : Bool) : Message := ⟨"turtle.pen", .record [("down", .bool down)]⟩
    ∃ failure ended₁ ended₂, i₁.runSession 2 program 0 m = some (.error failure, ended₁) ∧
      i₂.runSession 2 program 0 m = some (.error failure, ended₂) ∧
      ended₁.outbox.published = [pen false, pen true] ∧
      ended₂.outbox.published = ended₁.outbox.published := by
  intro registry i₁ i₂ program m pen
  have hextra : ∀ c ∈ [Command.stamp, Command.twice], c.Oblivious Recorder.Alike := by
    simp [Command.stamp, Command.oblivious_stampAs, Command.oblivious_twice]
  obtain ⟨_, hsessions⟩ := batching_is_transparent Recorder.Alike {} 0 2 [.stamp, .twice] _ _ hextra
    (Recorder.agree_hooks {} false true)
  obtain ⟨failure, ended₁, hended₁, hpublished⟩ :
      ∃ failure ended₁, i₁.runSession 2 program 0 m = some (.error failure, ended₁) ∧
        ended₁.outbox.published = [pen false, pen true] := ⟨_, _, rfl, rfl⟩
  have hrel : Option.Rel _ (i₁.runSession 2 program 0 m) (i₂.runSession 2 program 0 m) :=
    hsessions 2 program 0 m m rfl ⟨rfl, rfl⟩
  rw [hended₁] at hrel
  generalize i₂.runSession 2 program 0 m = e₂ at hrel ⊢
  rcases hrel with @⟨_, ⟨r, ended₂⟩, hresult, _, _, new, hnew₁, hnew₂, _⟩
  obtain rfl : .error failure = r := hresult
  exact ⟨failure, ended₁, ended₂, hended₁, rfl, hpublished, hnew₂.trans hnew₁.symm⟩

end Logo
