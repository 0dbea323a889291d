import Logo.Proofs.Interpreter.Abort

/-!
# Calls of hooks

A host can note the calls of its hooks: each with the outbox that the hook saw, and with its answer.
A session of such a host does what it does without the notes. The calls before statements that it
notes in a block are those for the statements of the trace, in the same order.
-/

namespace Logo

variable {σ τ α β : Type}

/-- A call of a hook, with the outbox that the hook saw and its answer. -/
inductive HookCall where
  | start (outbox : Outbox) (answer : Except Failure Unit)
  | statement (s : Statement) (outbox : Outbox) (answer : Except Failure Unit)
  | error (f : Failure) (outbox : Outbox)
  | finish (outbox : Outbox) (answer : Except Failure Unit)

/-- The hooks of a host that notes their calls. -/
def Hooks.noting (h : Hooks σ) : Hooks (σ × List HookCall) where
  start outbox host :=
    let r := h.start outbox host.1
    (r.1, r.2, host.2 ++ [.start outbox r.1])
  beforeStatement s outbox host :=
    let r := h.beforeStatement s outbox host.1
    (r.1, r.2.1, r.2.2, host.2 ++ [.statement s outbox r.1])
  afterError f outbox host := (h.afterError f outbox host.1, host.2 ++ [.error f outbox])
  finish outbox host :=
    let r := h.finish outbox host.1
    (r.1, r.2, host.2 ++ [.finish outbox r.1])

/-- The machine of a host that has noted some calls. -/
def Machine.noting (m : Machine σ) (calls : List HookCall) : Machine (σ × List HookCall) where
  store := m.store
  outbox := m.outbox
  depth := m.depth
  host := (m.host, calls)

/-- The call of a hook before a statement. -/
def StatementRun.call (hooks : Hooks σ) (st : StatementRun σ) : HookCall :=
  .statement st.statement st.start.outbox
    (hooks.beforeStatement st.statement st.start.outbox st.start.host).1

/-! ## The commands of the language for two hosts -/

/-- Whether commands for two hosts are the same command of the language. -/
structure Command.Like (c : Command σ) (d : Command τ) : Prop where
  names_eq : c.names = d.names
  signature_eq : c.signature = d.signature
  same : (∃ control : Control, c = control.command ∧ d = control.command) ∨
    ∃ effect, c.Does effect ∧ d.Does effect

/-- The commands of the language are the same ones for every host. -/
theorem Command.standard_like :
    List.Forall₂ Command.Like (standard : List (Command σ)) (standard : List (Command τ)) := by
  refine .cons ⟨rfl, rfl, .inr ⟨_, new_does, new_does⟩⟩ ?_
  refine .cons ⟨rfl, rfl, .inr ⟨_, set_does, set_does⟩⟩ ?_
  refine .cons ⟨rfl, rfl, .inr ⟨_, print_does, print_does⟩⟩ ?_
  refine .cons ⟨rfl, rfl, .inr ⟨_, measured_does .., measured_does ..⟩⟩ ?_
  refine .cons ⟨rfl, rfl, .inr ⟨_, measured_does .., measured_does ..⟩⟩ ?_
  refine .cons ⟨rfl, rfl, .inr ⟨_, measured_does .., measured_does ..⟩⟩ ?_
  refine .cons ⟨rfl, rfl, .inr ⟨_, measured_does .., measured_does ..⟩⟩ ?_
  refine .cons ⟨rfl, rfl, .inr ⟨_, signal_does .., signal_does ..⟩⟩ ?_
  refine .cons ⟨rfl, rfl, .inr ⟨_, signal_does .., signal_does ..⟩⟩ ?_
  refine .cons ⟨rfl, rfl, .inr ⟨_, goto_does, goto_does⟩⟩ ?_
  refine .cons ⟨rfl, rfl, .inr ⟨_, signal_does .., signal_does ..⟩⟩ ?_
  refine .cons ⟨rfl, rfl, .inr ⟨_, signal_does .., signal_does ..⟩⟩ ?_
  refine .cons ⟨rfl, rfl, .inr ⟨_, color_does, color_does⟩⟩ ?_
  refine .cons ⟨rfl, rfl, .inr ⟨_, measured_does .., measured_does ..⟩⟩ ?_
  refine .cons ⟨rfl, rfl, .inl ⟨.ifElse, rfl, rfl⟩⟩ ?_
  refine .cons ⟨rfl, rfl, .inr ⟨_, stray_does _, stray_does _⟩⟩ ?_
  refine .cons ⟨rfl, rfl, .inr ⟨_, stray_does _, stray_does _⟩⟩ ?_
  refine .cons ⟨rfl, rfl, .inl ⟨.whileTrue, rfl, rfl⟩⟩ ?_
  refine .cons ⟨rfl, rfl, .inl ⟨.repeatTimes, rfl, rfl⟩⟩ ?_
  refine .cons ⟨rfl, rfl, .inl ⟨.eachItem, rfl, rfl⟩⟩ ?_
  refine .cons ⟨rfl, rfl, .inr ⟨_, returnValue_does, returnValue_does⟩⟩ ?_
  exact .cons ⟨rfl, rfl, .inr ⟨_, learn_does, learn_does⟩⟩ .nil

/-- A label names the same command of the language for each host. -/
theorem Registry.find?_standard_like (label : String) :
    Option.Rel Command.Like (standard.find? label : Option (Command σ))
      (standard.find? label : Option (Command τ)) := by
  have hfold {cs : List (Command σ)} {ds : List (Command τ)} (h : List.Forall₂ Command.Like cs ds)
      {r : Registry σ} {r' : Registry τ}
      (hr : Option.Rel Command.Like (r.find? label) (r'.find? label)) :
      Option.Rel Command.Like ((cs.foldl register r).find? label)
        ((ds.foldl register r').find? label) := by
    induction h generalizing r r' with
    | nil => exact hr
    | @cons c d cs ds hlike _ ih =>
      refine ih ?_
      rw [find?_register, find?_register, hlike.names_eq]
      split
      · exact .some hlike
      · exact hr
  exact hfold Command.standard_like .none

/-! ## Actions that note calls -/

/-- Whether `a'` does for a host that notes calls what `a` does, and notes the calls for the
statements `started`. -/
def Noted (hooks : Hooks σ) (a : Action σ α) (a' : Action (σ × List HookCall) α)
    (started : List (StatementRun σ)) (m : Machine σ) : Prop :=
  ∀ calls, a'.apply (m.noting calls) = (a.apply m).map
    (Prod.map id (Machine.noting · (calls ++ started.map (StatementRun.call hooks))))

namespace Noted

variable {hooks : Hooks σ} {a : Action σ α} {a' : Action (σ × List HookCall) α}
  {started : List (StatementRun σ)} {m : Machine σ}

/-- What is noted depends only on what the actions do on the machine. -/
theorem congr {b : Action σ α} {b' : Action (σ × List HookCall) α}
    (h : Noted hooks b b' started m) (ha : a.apply m = b.apply m)
    (ha' : ∀ calls, a'.apply (m.noting calls) = b'.apply (m.noting calls)) :
    Noted hooks a a' started m := by
  intro calls
  rw [ha, ha', h calls]

/-- An action that calls no hook. -/
theorem leaf (h : ∀ calls, a'.apply (m.noting calls) =
    (a.apply m).map (Prod.map id (Machine.noting · calls))) : Noted hooks a a' [] m := by
  intro calls
  rw [h, List.map_nil, List.append_nil]

/-- Doing nothing calls no hook. -/
theorem pure (x : α) : Noted hooks (Pure.pure x) (Pure.pure x) [] m := leaf fun _ => rfl

/-- Failing calls no hook. -/
theorem fail (f : Fault) : Noted hooks (Action.fail f : Action σ α) (Action.fail f) [] m :=
  leaf fun _ => rfl

/-- Running out of effort calls no hook. -/
theorem exhausted : Noted hooks (Action.exhausted : Action σ α) Action.exhausted [] m :=
  leaf fun _ => rfl

/-- An evaluation calls no hook. -/
theorem ofEval (e : Eval α) : Noted hooks (Action.ofEval e) (Action.ofEval e) [] m := by
  refine leaf fun calls => ?_
  rw [Action.apply_ofEval, Action.apply_ofEval, Option.map_map]
  rfl

/-- A change of the store calls no hook. -/
theorem updateStore (f : Store → Eval Store) :
    Noted hooks (Action.updateStore f) (Action.updateStore f) [] m := by
  refine leaf fun calls => ?_
  have hstore : (m.noting calls).store = m.store := rfl
  rw [Action.apply_updateStore, Action.apply_updateStore, hstore]
  rcases (f m.store).run with _ | _ | s
  · rfl
  · rfl
  · rfl

/-- Sending a message calls no hook. -/
theorem publish (message : Message) :
    Noted hooks (Action.publish message) (Action.publish message) [] m := leaf fun _ => rfl

/-- A hook before a statement is one call. -/
theorem announce (st : StatementRun σ) :
    Noted hooks (hooks.announce st.statement) (hooks.noting.announce st.statement) [st] st.start :=
  fun _ => rfl

/-- The calls of a sequence are those of its first part, and then those of the second one. -/
theorem bind {f : α → Action σ β} {f' : α → Action (σ × List HookCall) β}
    {rest : α → Machine σ → List (StatementRun σ)} (ha : Noted hooks a a' started m)
    (hf : ∀ x m₁, a.apply m = some (.ok x, m₁) → Noted hooks (f x) (f' x) (rest x m₁) m₁) :
    Noted hooks (a >>= f) (a' >>= f') (started ++ a.followed rest m) m := by
  intro calls
  rw [Action.apply_bind, Action.apply_bind, ha calls]
  rcases hrun : a.apply m with _ | ⟨failure | x, m₁⟩
  · rfl
  · rw [Action.followed_of_error hrun, List.append_nil]
    rfl
  · rw [Action.followed_of_ok hrun, List.map_append, ← List.append_assoc]
    exact hf x m₁ hrun _

/-- What follows may call no hook. -/
theorem bind_leaf {f : α → Action σ β} {f' : α → Action (σ × List HookCall) β}
    (ha : Noted hooks a a' started m)
    (hf : ∀ x m₁, a.apply m = some (.ok x, m₁) → Noted hooks (f x) (f' x) [] m₁) :
    Noted hooks (a >>= f) (a' >>= f') started m := by
  simpa using ha.bind hf

/-- What is done before and after an action does not matter, if the notes are left alone. -/
theorem around {m₀ : Machine σ} {b : Action σ α} {b' : Action (σ × List HookCall) α}
    {e : Except Failure α → Except Failure α} {g : Machine σ → Machine σ}
    {g' : Machine (σ × List HookCall) → Machine (σ × List HookCall)}
    (h : Noted hooks a a' started m₀) (hb : b.apply m = (a.apply m₀).map (Prod.map e g))
    (hb' : ∀ calls, b'.apply (m.noting calls) =
      (a'.apply (m₀.noting calls)).map (Prod.map e g'))
    (hg : ∀ m calls, g' (m.noting calls) = (g m).noting calls) :
    Noted hooks b b' started m := by
  intro calls
  rw [hb, hb', h calls, Option.map_map, Option.map_map]
  congr 1
  funext r
  exact Prod.ext rfl (hg _ _)

/-- Noting the line of failures calls no hook. -/
theorem atLine (h : Noted hooks a a' started m) (line : ℕ) :
    Noted hooks (a.atLine line) (a'.atLine line) started m :=
  h.around (Action.apply_atLine ..) (fun _ => Action.apply_atLine ..) fun _ _ => rfl

/-- A block calls the hooks of its content. -/
theorem nested {limit : ℕ} (hdepth : m.depth < limit)
    (h : Noted hooks a a' started { m with depth := m.depth + 1 }) :
    Noted hooks (a.nested limit) (a'.nested limit) started m :=
  h.around (Action.apply_nested hdepth a)
    (fun calls => Action.apply_nested (m := m.noting calls) hdepth a') fun _ _ => rfl

end Noted

/-! ## Statements in order and scripts -/

section

variable {hooks : Hooks σ} {m : Machine σ}

/-- Statements in a row call their hooks in order. -/
theorem noted_runStatements {step : Statement → Action σ Flow}
    {step' : Statement → Action (σ × List HookCall) Flow}
    {trace : Statement → Machine σ → List (StatementRun σ)}
    (hstep : ∀ s (m : Machine σ),
      Noted hooks ((step s).atLine s.pos.line) ((step' s).atLine s.pos.line) (trace s m) m)
    (last : Option Value) (body : List Statement) :
    Noted hooks (runStatements step last body) (runStatements step' last body)
      (traceStatements step trace body m) m := by
  induction body generalizing last m with
  | nil => exact .pure _
  | cons s rest ih =>
    refine (hstep s m).bind fun flow m₁ _ => ?_
    cases flow with
    | leave v => exact .pure _
    | next v => exact ih v

/-- The calls of a script are those of its blocks. -/
theorem Script.noted {invoke : Code → Option Bindings → Bool → Action σ Flow}
    {invoke' : Code → Option Bindings → Bool → Action (σ × List HookCall) Flow}
    {blocks : List Statement → FrameId → Machine σ → List (StatementRun σ)}
    (hinvoke : ∀ v : Invocation σ, Noted hooks (invoke v.code v.bindings v.procedure)
      (invoke' v.code v.bindings v.procedure) (v.trace blocks) v.start) (s : Script) :
    Noted hooks (s.run invoke) (s.run invoke')
      ((s.calls invoke m).flatMap fun call => call.invocation.trace blocks) m := by
  induction s generalizing m with
  | finish flow => exact .pure flow
  | fail f => exact .fail f
  | exhausted => exact .exhausted
  | ask question next ih =>
    have hrun {τ : Type} (invoke : Code → Option Bindings → Bool → Action τ Flow)
        (m : Machine τ) : ((ask question next).run invoke).apply m =
          (Action.ofEval (question.answer m.store) >>= fun v => (next v).run invoke).apply m := by
      simp only [run, Action.apply_bind, Action.apply_store, Action.continueWith_ok]
    rw [calls_ask, Action.flatMap_followed]
    exact ((Noted.ofEval _).bind fun v m₁ _ => ih v).congr (hrun invoke m) fun calls =>
      hrun invoke' (m.noting calls)
  | block role code bindings next ih =>
    rw [calls_block, List.flatMap_cons, Action.flatMap_followed]
    exact (hinvoke ⟨code, bindings, false, m⟩).bind fun flow m₁ _ => ih flow

/-- A simple command calls no hook. -/
theorem Effect.noted (effort : ℕ) (frame : FrameId) (effect : Effect) :
    Noted hooks (effect.run effort frame) (effect.run effort frame) [] m := by
  cases effect with
  | finish flow => exact .pure flow
  | fail f => exact .fail f
  | send message => exact (Noted.publish message).bind_leaf fun _ _ _ => .pure _
  | create path v => exact (Noted.updateStore _).bind_leaf fun _ _ _ => .pure _
  | set path v => exact (Noted.updateStore _).bind_leaf fun _ _ _ => .pure _

/-- Giving a value to the target of a statement calls no hook. -/
theorem Interpreter.noted_bindTarget (effort : ℕ) (frame : FrameId) (s : Statement) (flow : Flow) :
    Noted hooks (bindTarget effort frame s flow) (bindTarget effort frame s flow) [] m := by
  simp only [bindTarget]
  cases s.target with
  | none => exact .pure ()
  | some target =>
    cases flow.value? with
    | none => exact .fail _
    | some v => exact .updateStore _

end

/-! ## Blocks and sessions -/

namespace Interpreter

variable {i : Interpreter σ} {effort : ℕ} {frame : FrameId} {s : Statement} {m : Machine σ}

/-- The interpreter of a host that notes calls, with the commands of the language. -/
def noting (i : Interpreter σ) : Interpreter (σ × List HookCall) where
  settings := i.settings
  registry := .standard
  hooks := i.hooks.noting

/-- The calls of what a statement says are those of the blocks that it runs. -/
theorem noted_dispatch (hregistry : i.registry = .standard)
    (hinvoke : ∀ v : Invocation σ, Noted i.hooks
      ((i.runner effort).invoke v.code v.bindings v.procedure)
      ((i.noting.runner effort).invoke v.code v.bindings v.procedure)
      (v.trace (i.trace effort)) v.start) :
    Noted i.hooks (i.dispatch (i.runner effort) frame s)
      (i.noting.dispatch (i.noting.runner effort) frame s)
      ((i.invocations effort frame s m).flatMap (Invocation.trace (i.trace effort))) m := by
  have hlike : Option.Rel Command.Like (i.registry.find? s.label)
      (i.noting.registry.find? s.label) := hregistry ▸ Registry.find?_standard_like s.label
  generalize hcommand : i.registry.find? s.label = found at hlike
  generalize hcommand' : i.noting.registry.find? s.label = found' at hlike
  cases hlike with
  | none =>
    rcases hprocedure : m.store.procedure? frame s.label with _ | code
    · have hrun (calls : List HookCall) :
          (i.noting.dispatch (i.noting.runner effort) frame s).apply (m.noting calls) =
            (Action.ofEval (evaluateStatement effort m.store frame s) >>= fun v =>
              (pure (.next (some v)) : Action _ Flow)).apply (m.noting calls) :=
        apply_dispatch_expression (m := m.noting calls) hcommand' hprocedure
      simp only [invocations, hcommand, hprocedure, List.flatMap_nil]
      refine Noted.congr ?_ (apply_dispatch_expression hcommand hprocedure) hrun
      exact (Noted.ofEval _).bind_leaf fun v _ _ => .pure _
    · have hrun (calls : List HookCall) :
          (i.noting.dispatch (i.noting.runner effort) frame s).apply (m.noting calls) =
            (Action.ofEval (validate effort m.store frame s.label (.exactly code.arity .value)
              s.arguments) >>= fun arguments => (i.noting.runner effort).invoke code
                (some (bindParams code.params arguments)) true).apply (m.noting calls) :=
        apply_dispatch_procedure (m := m.noting calls) hcommand' hprocedure
      simp only [invocations, hcommand, hprocedure, Action.flatMap_followed, List.flatMap_cons,
        List.flatMap_nil, List.append_nil]
      refine Noted.congr ?_ (apply_dispatch_procedure hcommand hprocedure) hrun
      exact (Noted.ofEval _).bind fun arguments m₁ _ =>
        hinvoke ⟨code, some (bindParams code.params arguments), true, m₁⟩
  | @some command command' hlike =>
    have hrun (calls : List HookCall) :
        (i.noting.dispatch (i.noting.runner effort) frame s).apply (m.noting calls) =
          (Action.ofEval (validate effort m.store frame s.label command.signature s.arguments) >>=
            command'.handler.run (i.noting.runner effort) frame).apply (m.noting calls) := by
      rw [hlike.signature_eq]
      exact apply_dispatch_command (m := m.noting calls) hcommand'
    refine Noted.congr ?_ (apply_dispatch_command hcommand) hrun
    rcases hlike.same with ⟨c, rfl, rfl⟩ | ⟨effect, hdoes, hdoes'⟩
    · simp only [invocations, hcommand, Control.ofCommand?_command, Action.flatMap_followed,
        List.flatMap_map]
      refine (Noted.ofEval _).bind fun arguments m₁ _ => ?_
      rw [c.handler_run, c.handler_run]
      exact Script.noted hinvoke _
    · simp only [invocations, hcommand, Control.ofCommand?_of_does hdoes, List.flatMap_nil]
      refine (Noted.ofEval _).bind_leaf fun arguments m₁ _ => ?_
      rw [hdoes.handler_run, hdoes'.handler_run]
      exact Effect.noted _ _ _

/-- A statement calls its own hook, and then those of the blocks that it runs. -/
theorem noted_runStatement (hregistry : i.registry = .standard)
    (hinvoke : ∀ v : Invocation σ, Noted i.hooks
      ((i.runner effort).invoke v.code v.bindings v.procedure)
      ((i.noting.runner effort).invoke v.code v.bindings v.procedure)
      (v.trace (i.trace effort)) v.start) :
    Noted i.hooks (i.runStatement (i.runner effort) frame s)
      (i.noting.runStatement (i.noting.runner effort) frame s)
      (StatementRun.trace i (i.trace effort) ⟨effort, frame, s, m⟩) m := by
  refine (Noted.announce ⟨effort, frame, s, m⟩).bind fun _ m₁ _ => ?_
  refine (noted_dispatch hregistry hinvoke).bind_leaf fun flow m₂ _ => ?_
  exact (noted_bindTarget effort frame s flow).bind_leaf fun _ _ _ => .pure flow

/-- The calls of code in a new frame are those of its block. -/
theorem noted_invoke (v : Invocation σ)
    (hblock : ∀ m : Machine σ, Noted i.hooks
      (i.runBlock effort v.code.body v.start.store.next v.procedure)
      (i.noting.runBlock effort v.code.body v.start.store.next v.procedure)
      (i.trace effort v.code.body v.start.store.next m) m) :
    Noted i.hooks ((i.runner effort).invoke v.code v.bindings v.procedure)
      ((i.noting.runner effort).invoke v.code v.bindings v.procedure)
      (v.trace (i.trace effort)) v.start := by
  unfold Invocation.trace
  by_cases hlive : v.start.store.isLive v.code.frame = true
  · rw [if_pos hlive]
    have hdrop (m : Machine σ) (calls : List HookCall) :
        Machine.dropFrame v.start.store.next (m.noting calls) =
          (Machine.dropFrame v.start.store.next m).noting calls := rfl
    refine (hblock _).around (apply_invoke hlive ..) (fun calls => ?_) hdrop
    exact apply_invoke (m := v.start.noting calls) hlive ..
  · rw [if_neg hlive]
    exact .congr (.fail .expiredScope) (apply_invoke_of_not_isLive hlive ..)
      fun calls => apply_invoke_of_not_isLive (m := v.start.noting calls) hlive ..

/-- The calls of a block are those of its statements. -/
theorem noted_runBlock (hregistry : i.registry = .standard) (effort : ℕ) (body : List Statement)
    (frame : FrameId) (procedure : Bool) (m : Machine σ) :
    Noted i.hooks (i.runBlock effort body frame procedure)
      (i.noting.runBlock effort body frame procedure) (i.trace effort body frame m) m := by
  induction effort generalizing body frame procedure m with
  | zero => exact .exhausted
  | succ effort ih =>
    have hinvoke (v : Invocation σ) := noted_invoke v fun m => ih v.code.body _ v.procedure m
    by_cases hdepth : m.depth < i.settings.maxDepth
    · rw [trace_of_lt hdepth, runBlock_succ, runBlock_succ]
      refine Noted.bind_leaf (Noted.nested hdepth ?_) fun flow m₁ _ => .pure _
      refine noted_runStatements (fun s m => Noted.atLine ?_ _) none body
      exact noted_runStatement hregistry hinvoke
    · have hlimit : i.settings.maxDepth ≤ m.depth := Nat.not_lt.mp hdepth
      rw [trace_of_limit hlimit]
      exact Noted.congr (.fail (.depthLimit i.settings.maxDepth))
        (apply_runBlock_of_limit hlimit effort procedure) fun calls =>
          apply_runBlock_of_limit (i := i.noting) (m := m.noting calls) hlimit effort procedure

end Interpreter

end Logo
