import Logo.Proofs.Interpreter.Effect
import Logo.Proofs.Interpreter.Leave
import Mathlib.Data.Option.Basic

/-!
# Actions that agree

Two actions agree if they do the same on any two machines that have the same store and the same
depth: they end in the same way, with the same store, and they send the same messages. Which
messages wait in the outboxes, and how many may, makes no difference to them. The states of the
hosts are compared by a relation, for hosts that note when messages are published.
-/

namespace Logo

/-- All messages that were sent, published or not, oldest first. -/
def Outbox.sent (o : Outbox) : List Message := o.published ++ o.pending

namespace Outbox

/-- Publishing the messages that wait sends none. -/
@[simp] theorem sent_flush (o : Outbox) : o.flush.sent = o.sent := by simp [flush, sent]

/-- A message that is sent comes after all others, whether or not it has to wait. -/
@[simp] theorem sent_push (o : Outbox) (message : Message) :
    (o.push message).sent = o.sent ++ [message] := by
  unfold push
  dsimp only
  split
  · rw [sent_flush]
    exact (List.append_assoc ..).symm
  · exact (List.append_assoc ..).symm

end Outbox

/-- Related options are mapped to related options. -/
theorem rel_map {α β α' β' : Type} {P : α → β → Prop} {Q : α' → β' → Prop} {f : α → α'}
    {g : β → β'} {a : Option α} {b : Option β} (h : Option.Rel P a b)
    (hPQ : ∀ x y, P x y → Q (f x) (g y)) : Option.Rel Q (a.map f) (b.map g) := by
  cases h with
  | some h => exact .some (hPQ _ _ h)
  | none => exact .none

variable {σ α β : Type} {H : σ → σ → Prop}

/-- Whether two machines have the same store at the same depth, and hosts in related states. -/
structure Machine.Agree (H : σ → σ → Prop) (m₁ m₂ : Machine σ) : Prop where
  store : m₁.store = m₂.store
  depth : m₁.depth = m₂.depth
  host : H m₁.host m₂.host

/-- Whether two machines have become machines that agree, and the same messages were sent. -/
structure Machine.KeepPace (H : σ → σ → Prop) (m₁ m₂ m₁' m₂' : Machine σ) : Prop where
  agree : m₁'.Agree H m₂'
  sent : ∃ new, m₁'.outbox.sent = m₁.outbox.sent ++ new ∧ m₂'.outbox.sent = m₂.outbox.sent ++ new

/-- Machines that agree have kept pace so far. -/
theorem Machine.Agree.keepPace {m₁ m₂ : Machine σ} (h : m₁.Agree H m₂) :
    KeepPace H m₁ m₂ m₁ m₂ :=
  ⟨h, [], by simp⟩

/-- Machines that keep pace twice in a row keep pace. -/
theorem Machine.KeepPace.trans {m₁ m₂ m₁' m₂' m₁'' m₂'' : Machine σ} (h : KeepPace H m₁ m₂ m₁' m₂')
    (h' : KeepPace H m₁' m₂' m₁'' m₂'') : KeepPace H m₁ m₂ m₁'' m₂'' := by
  obtain ⟨new, hnew₁, hnew₂⟩ := h.sent
  obtain ⟨new', hnew₁', hnew₂'⟩ := h'.sent
  refine ⟨h'.agree, new ++ new', ?_, ?_⟩
  · rw [hnew₁', hnew₁, List.append_assoc]
  · rw [hnew₂', hnew₂, List.append_assoc]

namespace Action

/-- Whether two actions do the same, apart from what becomes of the messages that wait. -/
def Agree (H : σ → σ → Prop) (a₁ a₂ : Action σ α) : Prop :=
  ∀ m₁ m₂, m₁.Agree H m₂ →
    Option.Rel (fun e₁ e₂ => e₁.1 = e₂.1 ∧ Machine.KeepPace H m₁ m₂ e₁.2 e₂.2) (a₁.apply m₁)
      (a₂.apply m₂)

namespace Agree

/-- Doing nothing agrees with itself. -/
theorem pure (x : α) : Agree H (Pure.pure x : Action σ α) (Pure.pure x) :=
  fun _ _ hm => .some ⟨rfl, hm.keepPace⟩

/-- Failing agrees with itself. -/
theorem fail (f : Fault) : Agree H (fail f : Action σ α) (fail f) :=
  fun _ _ hm => .some ⟨rfl, hm.keepPace⟩

/-- Running out of effort agrees with itself. -/
theorem exhausted : Agree H (exhausted : Action σ α) exhausted :=
  fun _ _ _ => .none

/-- Looking at the store agrees with itself. -/
theorem store : Agree H (store : Action σ Store) store := by
  intro m₁ m₂ hm
  rw [apply_store, apply_store, hm.store]
  exact .some ⟨rfl, hm.keepPace⟩

/-- An evaluation agrees with itself, since it does not look at the machine. -/
theorem ofEval (e : Eval α) : Agree H (ofEval e : Action σ α) (ofEval e) := by
  intro m₁ m₂ hm
  rw [apply_ofEval, apply_ofEval]
  cases e.run with
  | none => exact .none
  | some r => exact .some ⟨rfl, hm.keepPace⟩

/-- A change of the store agrees with itself. -/
theorem updateStore (f : Store → Eval Store) :
    Agree H (updateStore f : Action σ Unit) (updateStore f) := by
  intro m₁ m₂ hm
  rw [apply_updateStore, apply_updateStore, hm.store]
  rcases (f m₂.store).run with _ | fault | s
  · exact .none
  · exact .some ⟨rfl, hm.keepPace⟩
  · exact .some ⟨rfl, ⟨rfl, hm.depth, hm.host⟩, [], by simp⟩

/-- Sending a message agrees with itself, whether or not it is published at once. -/
theorem publish (message : Message) :
    Agree H (publish message : Action σ Unit) (publish message) :=
  fun _ _ hm =>
    .some ⟨rfl, ⟨hm.store, hm.depth, hm.host⟩, [message], Outbox.sent_push .., Outbox.sent_push ..⟩

/-- Actions in a row agree if their parts do. -/
theorem bind {a₁ a₂ : Action σ α} {f₁ f₂ : α → Action σ β} (ha : Agree H a₁ a₂)
    (hf : ∀ x, Agree H (f₁ x) (f₂ x)) : Agree H (a₁ >>= f₁) (a₂ >>= f₂) := by
  intro m₁ m₂ hm
  have hrel := ha m₁ m₂ hm
  rw [apply_bind, apply_bind]
  generalize a₁.apply m₁ = e₁ at hrel ⊢
  generalize a₂.apply m₂ = e₂ at hrel ⊢
  rcases hrel with @⟨⟨r₁, m₁'⟩, ⟨r₂, m₂'⟩, hresult, hpace⟩ | _
  · obtain rfl : r₁ = r₂ := hresult
    cases r₁ with
    | error failure => exact .some ⟨rfl, hpace⟩
    | ok x =>
      have hrel' := hf x m₁' m₂' hpace.agree
      rw [continueWith_ok, continueWith_ok]
      generalize (f₁ x).apply m₁' = e₁ at hrel' ⊢
      generalize (f₂ x).apply m₂' = e₂ at hrel' ⊢
      rcases hrel' with ⟨hresult', hpace'⟩ | _
      · exact .some ⟨hresult', hpace.trans hpace'⟩
      · exact .none
  · exact .none

/-- Actions that agree do so with a line noted in their failures. -/
theorem atLine {a₁ a₂ : Action σ α} (h : Agree H a₁ a₂) (line : ℕ) :
    Agree H (a₁.atLine line) (a₂.atLine line) := by
  intro m₁ m₂ hm
  rw [apply_atLine, apply_atLine]
  refine rel_map (h m₁ m₂ hm) fun e₁ e₂ he => ?_
  exact ⟨congrArg (Except.mapError fun f : Failure => f.atLine line) he.1, he.2⟩

/-- Actions that agree do so one level deeper. -/
theorem nested {a₁ a₂ : Action σ α} (h : Agree H a₁ a₂) (limit : ℕ) :
    Agree H (a₁.nested limit) (a₂.nested limit) := by
  intro m₁ m₂ hm
  by_cases hdepth : m₂.depth < limit
  · have hdepth₁ : m₁.depth < limit := hm.depth ▸ hdepth
    have hdeeper : Machine.Agree H { m₁ with depth := m₁.depth + 1 }
        { m₂ with depth := m₂.depth + 1 } := ⟨hm.store, congrArg (· + 1) hm.depth, hm.host⟩
    rw [apply_nested hdepth, apply_nested hdepth₁]
    refine rel_map (h _ _ hdeeper) fun e₁ e₂ he => ?_
    obtain ⟨hresult, hagree, hsent⟩ := he
    exact ⟨hresult, ⟨hagree.store, congrArg (· - 1) hagree.depth, hagree.host⟩, hsent⟩
  · have hdepth₁ : limit ≤ m₁.depth := hm.depth ▸ Nat.not_lt.mp hdepth
    rw [Action.nested, Action.nested, apply_ofFun, apply_ofFun, if_pos hdepth₁,
      if_pos (Nat.not_lt.mp hdepth)]
    exact .some ⟨rfl, hm.keepPace⟩

/-- The new frame has the same number on both sides. -/
theorem inFrame {a₁ a₂ : FrameId → Action σ α} (h : ∀ id, Agree H (a₁ id) (a₂ id)) (code : Code)
    (bindings : Option Bindings) :
    Agree H (inFrame code bindings a₁) (inFrame code bindings a₂) := by
  intro m₁ m₂ hm
  by_cases hlive : m₂.store.isLive code.frame = true
  · have hlive₁ : m₁.store.isLive code.frame = true := hm.store ▸ hlive
    have hpushed : Machine.Agree H { m₁ with store := m₁.store.push (some code.frame) bindings }
        { m₂ with store := m₂.store.push (some code.frame) bindings } :=
      ⟨congrArg (Store.push · (some code.frame) bindings) hm.store, hm.depth, hm.host⟩
    rw [apply_inFrame hlive, apply_inFrame hlive₁, hm.store]
    refine rel_map (h _ _ _ (hm.store ▸ hpushed)) fun e₁ e₂ he => ?_
    obtain ⟨hresult, hagree, hsent⟩ := he
    exact ⟨hresult, ⟨congrArg (Store.drop · _) hagree.store, hagree.depth, hagree.host⟩, hsent⟩
  · have hlive₁ : ¬m₁.store.isLive code.frame = true := hm.store ▸ hlive
    rw [Action.inFrame, Action.inFrame, apply_ofFun, apply_ofFun, if_neg hlive, if_neg hlive₁]
    exact .some ⟨rfl, hm.keepPace⟩

end Agree

end Action

open Logo.Action

/-! ## Statements and blocks -/

/-- Whether two hosts act alike, whatever the outbox holds: before a statement the same messages are
sent, and each host may publish those that wait. -/
structure Hooks.Agree (H : σ → σ → Prop) (h₁ h₂ : Hooks σ) : Prop where
  start : ∀ o₁ o₂ x₁ x₂, H x₁ x₂ →
    (h₁.start o₁ x₁).1 = (h₂.start o₂ x₂).1 ∧ H (h₁.start o₁ x₁).2 (h₂.start o₂ x₂).2
  beforeStatement : ∀ s o₁ o₂ x₁ x₂, H x₁ x₂ →
    (h₁.beforeStatement s o₁ x₁).1 = (h₂.beforeStatement s o₂ x₂).1 ∧
      H (h₁.beforeStatement s o₁ x₁).2.2 (h₂.beforeStatement s o₂ x₂).2.2 ∧
      ∃ new, (h₁.beforeStatement s o₁ x₁).2.1.sent = o₁.sent ++ new ∧
        (h₂.beforeStatement s o₂ x₂).2.1.sent = o₂.sent ++ new
  afterError : ∀ f o₁ o₂ x₁ x₂, H x₁ x₂ → H (h₁.afterError f o₁ x₁) (h₂.afterError f o₂ x₂)
  finish : ∀ o₁ o₂ x₁ x₂, H x₁ x₂ →
    (h₁.finish o₁ x₁).1 = (h₂.finish o₂ x₂).1 ∧ H (h₁.finish o₁ x₁).2 (h₂.finish o₂ x₂).2

/-- Hosts that act alike announce a statement alike. -/
theorem Hooks.Agree.announce {h₁ h₂ : Hooks σ} (h : h₁.Agree H h₂) (s : Statement) :
    Action.Agree H (h₁.announce s) (h₂.announce s) := by
  intro m₁ m₂ hm
  obtain ⟨hresult, hhost, hsent⟩ :=
    h.beforeStatement s m₁.outbox m₂.outbox m₁.host m₂.host hm.host
  exact .some ⟨hresult, ⟨hm.store, hm.depth, hhost⟩, hsent⟩

/-- Whether two runners run code alike. Their settings may differ in how many messages can wait. -/
structure Runner.Agree (H : σ → σ → Prop) (r₁ r₂ : Runner σ) : Prop where
  effort : r₁.effort = r₂.effort
  settings : { r₁.settings with queueCapacity := r₂.settings.queueCapacity } = r₂.settings
  invoke : ∀ code bindings procedure,
    Action.Agree H (r₁.invoke code bindings procedure) (r₂.invoke code bindings procedure)

/-- Whether a command pays no attention to the outbox, other than by sending messages. -/
def Command.Oblivious (H : σ → σ → Prop) (c : Command σ) : Prop :=
  ∀ r₁ r₂, r₁.Agree H r₂ → ∀ frame arguments,
    Action.Agree H (c.handler.run r₁ frame arguments) (c.handler.run r₂ frame arguments)

/-- A script agrees with itself if its blocks are run alike. -/
theorem Script.agree_run {invoke₁ invoke₂ : Code → Option Bindings → Bool → Action σ Flow}
    (hinvoke : ∀ code bindings procedure,
      Action.Agree H (invoke₁ code bindings procedure) (invoke₂ code bindings procedure))
    (s : Script) : Action.Agree H (s.run invoke₁) (s.run invoke₂) := by
  induction s with
  | finish flow => exact .pure flow
  | fail f => exact .fail f
  | exhausted => exact .exhausted
  | ask question next ih => exact Agree.store.bind fun _ => (Agree.ofEval _).bind ih
  | block role code bindings next ih => exact (hinvoke code bindings false).bind ih

/-- An effect agrees with itself, since it looks at the store alone. -/
theorem Effect.agree_run (effort : ℕ) (frame : FrameId) (effect : Effect) :
    Action.Agree H (effect.run effort frame : Action σ Flow) (effect.run effort frame) := by
  cases effect with
  | finish flow => exact .pure flow
  | fail f => exact .fail f
  | send message => exact (Agree.publish message).bind fun _ => .pure _
  | create path v => exact (Agree.updateStore _).bind fun _ => .pure _
  | set path v => exact (Agree.updateStore _).bind fun _ => .pure _

/-- The commands of the language pay no attention to the outbox. -/
theorem Command.oblivious_of_mem_standard {c : Command σ} (h : c ∈ standard) : c.Oblivious H := by
  intro r₁ r₂ hr frame arguments
  rcases standard_cases h with ⟨control, rfl⟩ | ⟨effect, hdoes⟩
  · have hscript : control.script r₁.effort r₁.settings frame arguments =
        control.script r₂.effort r₂.settings frame arguments := by
      rw [hr.effort, ← hr.settings]
      cases control <;> rfl
    rw [control.handler_run, control.handler_run, hscript]
    exact Script.agree_run hr.invoke _
  · rw [hdoes.handler_run, hdoes.handler_run, hr.effort]
    exact Effect.agree_run r₂.effort frame _

/-- Statements in a row agree if each of them is run alike. -/
theorem agree_runStatements {step₁ step₂ : Statement → Action σ Flow}
    (h : ∀ s, Action.Agree H (step₁ s) (step₂ s)) (last : Option Value) (body : List Statement) :
    Action.Agree H (runStatements step₁ last body) (runStatements step₂ last body) := by
  induction body generalizing last with
  | nil => exact .pure _
  | cons s rest ih =>
    refine ((h s).atLine s.pos.line).bind fun flow => ?_
    cases flow with
    | leave v => exact .pure _
    | next v => exact ih v

/-- Whether two interpreters differ at most in how many messages can wait, and in hooks that
agree. -/
structure Interpreter.Agree (H : σ → σ → Prop) (i₁ i₂ : Interpreter σ) : Prop where
  settings : { i₁.settings with queueCapacity := i₂.settings.queueCapacity } = i₂.settings
  registry : i₁.registry = i₂.registry
  oblivious : ∀ label c, i₂.registry.find? label = some c → c.Oblivious H
  hooks : i₁.hooks.Agree H i₂.hooks

namespace Interpreter.Agree

variable {i₁ i₂ : Interpreter σ} {r₁ r₂ : Runner σ}

/-- A statement is dispatched alike by interpreters that agree. -/
theorem dispatch (h : i₁.Agree H i₂) (hr : r₁.Agree H r₂) (frame : FrameId) (s : Statement) :
    Action.Agree H (i₁.dispatch r₁ frame s) (i₂.dispatch r₂ frame s) := by
  refine Agree.store.bind fun store => ?_
  rw [h.registry, hr.effort]
  cases hfind : i₂.registry.find? s.label with
  | some command =>
    exact (Agree.ofEval _).bind fun arguments =>
      h.oblivious _ command hfind r₁ r₂ hr frame arguments
  | none =>
    dsimp only
    cases store.procedure? frame s.label with
    | some code =>
      refine Agree.store.bind fun store => ?_
      rw [hr.effort]
      exact (Agree.ofEval _).bind fun _ => hr.invoke code _ true
    | none => exact (Agree.ofEval _).bind fun _ => .pure _

/-- Giving a value to the target of a statement agrees with itself. -/
theorem bindTarget (effort : ℕ) (frame : FrameId) (s : Statement) (flow : Flow) :
    Action.Agree H (bindTarget effort frame s flow : Action σ Unit)
      (bindTarget effort frame s flow) := by
  unfold Interpreter.bindTarget
  cases s.target with
  | none => exact .pure _
  | some target =>
    dsimp only
    cases flow.value? with
    | none => exact .fail _
    | some v => exact .updateStore _

/-- A statement is run alike by interpreters that agree. -/
theorem runStatement (h : i₁.Agree H i₂) (hr : r₁.Agree H r₂) (frame : FrameId) (s : Statement) :
    Action.Agree H (i₁.runStatement r₁ frame s) (i₂.runStatement r₂ frame s) := by
  refine (h.hooks.announce s).bind fun _ => (h.dispatch hr frame s).bind fun flow => ?_
  rw [hr.effort]
  exact (bindTarget r₂.effort frame s flow).bind fun _ => .pure flow

/-- Blocks agree: with less effort their runners do. -/
theorem runBlock (h : i₁.Agree H i₂) (effort : ℕ) (body : List Statement) (frame : FrameId)
    (procedure : Bool) :
    Action.Agree H (i₁.runBlock effort body frame procedure)
      (i₂.runBlock effort body frame procedure) := by
  induction effort generalizing body frame procedure with
  | zero => exact .exhausted
  | succ effort ih =>
    have hdepth : i₁.settings.maxDepth = i₂.settings.maxDepth :=
      (congrArg Settings.maxDepth h.settings :)
    have hr : (i₁.runner effort).Agree H (i₂.runner effort) :=
      { effort := rfl
        settings := h.settings
        invoke := fun code bindings procedure =>
          .inFrame (fun id => ih code.body id procedure) code bindings }
    rw [runBlock_succ, runBlock_succ, hdepth]
    exact ((agree_runStatements (h.runStatement hr frame) none body).nested _).bind fun _ => .pure _

end Interpreter.Agree

end Logo
