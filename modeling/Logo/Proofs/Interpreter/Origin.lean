import Logo.Host.Recorder
import Logo.Proofs.Interpreter.Dispatch

/-!
# Where failures come from

A failure arises in one statement: its hook fails, its arguments do not fit, its command fails by
itself, a block cannot be started, or its value cannot be bound. It gets the line of this statement.
All blocks and statements around it then fail in the same way, and none of them notes another line.
-/

namespace Logo

variable {σ : Type}

/-! ## Failures of a script -/

/-- Whether a script comes to a fault of its own, after blocks that it ran to their end. -/
inductive Script.Faults (invoke : Code → Option Bindings → Bool → Action σ Flow) :
    Script → Machine σ → Fault → Prop
  | fail {f : Fault} {m : Machine σ} : Faults invoke (.fail f) m f
  | question {question : Question} {next : Value → Script} {m : Machine σ} {f : Fault}
      (h : question.answer m.store = throw f) : Faults invoke (.ask question next) m f
  | ask {question : Question} {next : Value → Script} {m : Machine σ} {v : Value}
      {f : Fault} (h : question.answer m.store = pure v) (hnext : Faults invoke (next v) m f) :
      Faults invoke (.ask question next) m f
  | block {role : Role} {code : Code} {bindings : Option Bindings} {next : Flow → Script}
      {m m' : Machine σ} {flow : Flow} {f : Fault}
      (h : (invoke code bindings false).apply m = some (.ok flow, m'))
      (hnext : Faults invoke (next flow) m' f) : Faults invoke (.block role code bindings next) m f

namespace Script

variable {invoke : Code → Option Bindings → Bool → Action σ Flow} {s : Script} {m left : Machine σ}

/-- A script that comes to a fault of its own fails with it. -/
theorem Faults.run_apply {f : Fault} (h : s.Faults invoke m f) :
    ∃ left, (s.run invoke).apply m = some (.error { fault := f }, left) := by
  induction h with
  | fail => exact ⟨_, rfl⟩
  | @question _ _ m _ h =>
    refine ⟨m, ?_⟩
    simp only [run, Action.apply_bind, Action.apply_store, Action.continueWith_ok, h]
    rfl
  | ask h _ ih =>
    obtain ⟨left, hleft⟩ := ih
    refine ⟨left, ?_⟩
    simp only [run, Action.apply_bind, Action.apply_store, Action.continueWith_ok, h]
    exact hleft
  | block h _ ih =>
    obtain ⟨left, hleft⟩ := ih
    refine ⟨left, ?_⟩
    simp only [run, Action.apply_bind, h, Action.continueWith_ok]
    exact hleft

/-- A script that fails comes to a fault of its own, or one of its blocks fails. -/
theorem faults_or_call_of_error {f : Failure} (h : (s.run invoke).apply m = some (.error f, left)) :
    (∃ fault, f = { fault } ∧ s.Faults invoke m fault) ∨
      ∃ call ∈ s.calls invoke m, call.outcome = some (.error f, left) := by
  induction s generalizing m with
  | finish flow => cases h
  | fail fault =>
    cases h
    exact .inl ⟨fault, rfl, .fail⟩
  | exhausted => cases h
  | ask question next ih =>
    simp only [run, Action.apply_bind, Action.apply_store, Action.continueWith_ok] at h
    rcases (question.answer m.store).cases_outcome with heval | ⟨fault, heval⟩ | ⟨v, heval⟩
    · rw [heval] at h
      cases h
    · rw [heval] at h
      cases h
      exact .inl ⟨fault, rfl, .question heval⟩
    · rw [heval] at h
      have hcalls : (ask question next).calls invoke m = (next v).calls invoke m := by
        simp only [calls, heval]
        rfl
      rcases ih v h with ⟨fault, rfl, hfaults⟩ | hcall
      · exact .inl ⟨fault, rfl, .ask heval hfaults⟩
      · exact .inr (hcalls ▸ hcall)
  | block role code bindings next ih =>
    simp only [run, Action.apply_bind] at h
    simp only [calls]
    rcases happly : (invoke code bindings false).apply m with _ | ⟨failure | flow, m'⟩
    · rw [happly] at h
      cases h
    · rw [happly] at h
      cases h
      exact .inr ⟨_, List.mem_cons_self, rfl⟩
    · rw [happly] at h
      rcases ih flow h with ⟨fault, rfl, hfaults⟩ | ⟨call, hcall, houtcome⟩
      · exact .inl ⟨fault, rfl, .block happly hfaults⟩
      · exact .inr ⟨call, List.mem_cons_of_mem _ hcall, houtcome⟩

end Script

/-! ## Failures of a statement -/

/-- How an invocation ends. -/
def Invocation.outcome (i : Interpreter σ) (effort : ℕ) (v : Invocation σ) :
    Option (Except Failure Flow × Machine σ) :=
  ((i.runner effort).invoke v.code v.bindings v.procedure).apply v.start

/-- Whether a statement fails by itself, and not because a statement of a block that it runs does.
-/
inductive StatementRun.Raises (i : Interpreter σ) : StatementRun σ → Fault → Prop
  | hook {st : StatementRun σ} {left : Machine σ} {f : Fault}
      (h : (i.hooks.announce st.statement).apply st.start = some (.error { fault := f }, left)) :
      Raises i st f
  /-- The arguments are not those that the command takes. -/
  | arguments {st : StatementRun σ} {announced : Machine σ} {command : Command σ} {f : Fault}
      (hannounce : (i.hooks.announce st.statement).apply st.start = some (.ok (), announced))
      (hcommand : i.registry.find? st.statement.label = some command)
      (h : validate st.effort announced.store st.frame st.statement.label command.signature
        st.statement.arguments = throw f) : Raises i st f
  /-- The arguments are not those that the procedure takes. -/
  | parameters {st : StatementRun σ} {announced : Machine σ} {code : Code} {f : Fault}
      (hannounce : (i.hooks.announce st.statement).apply st.start = some (.ok (), announced))
      (hcommand : i.registry.find? st.statement.label = none)
      (hprocedure : announced.store.procedure? st.frame st.statement.label = some code)
      (h : validate st.effort announced.store st.frame st.statement.label
        (.exactly code.arity .value) st.statement.arguments = throw f) : Raises i st f
  /-- What is neither a command nor a procedure has no value as an expression. -/
  | expression {st : StatementRun σ} {announced : Machine σ} {f : Fault}
      (hannounce : (i.hooks.announce st.statement).apply st.start = some (.ok (), announced))
      (hcommand : i.registry.find? st.statement.label = none)
      (hprocedure : announced.store.procedure? st.frame st.statement.label = none)
      (h : evaluateStatement st.effort announced.store st.frame st.statement = throw f) :
      Raises i st f
  /-- A simple command fails. -/
  | simple {st : StatementRun σ} {announced left : Machine σ} {command : Command σ}
      {run : ℕ → FrameId → List Actual → Action σ Flow} {arguments : List Actual} {f : Fault}
      (hannounce : (i.hooks.announce st.statement).apply st.start = some (.ok (), announced))
      (hcommand : i.registry.find? st.statement.label = some command)
      (hhandler : command.handler = .simple run)
      (harguments : validate st.effort announced.store st.frame st.statement.label
        command.signature st.statement.arguments = pure arguments)
      (h : (run st.effort st.frame arguments).apply announced =
        some (.error { fault := f }, left)) : Raises i st f
  /-- A control command fails between its blocks. -/
  | control {st : StatementRun σ} {announced : Machine σ} {c : Control} {arguments : List Actual}
      {f : Fault}
      (hannounce : (i.hooks.announce st.statement).apply st.start = some (.ok (), announced))
      (hcommand : i.registry.find? st.statement.label = some c.command)
      (harguments : validate st.effort announced.store st.frame st.statement.label
        (c.command : Command σ).signature st.statement.arguments = pure arguments)
      (h : (c.script st.effort i.settings st.frame arguments).Faults (i.runner st.effort).invoke
        announced f) : Raises i st f
  /-- A block that the statement runs would be too deep. -/
  | limit {st : StatementRun σ} {v : Invocation σ} (hinvokes : st.Invokes i v)
      (hlive : v.start.store.isLive v.code.frame = true) (heffort : 0 < st.effort)
      (h : i.settings.maxDepth ≤ v.start.depth) : Raises i st (.depthLimit i.settings.maxDepth)
  /-- The frame of a block that the statement runs is not in use any more. -/
  | expired {st : StatementRun σ} {v : Invocation σ} (hinvokes : st.Invokes i v)
      (h : ¬v.start.store.isLive v.code.frame = true) : Raises i st .expiredScope
  /-- There is no value to bind, or it cannot be bound. -/
  | binding {st : StatementRun σ} {announced done left : Machine σ} {flow : Flow} {f : Fault}
      (hannounce : (i.hooks.announce st.statement).apply st.start = some (.ok (), announced))
      (hdispatch : (i.dispatch (i.runner st.effort) st.frame st.statement).apply announced =
        some (.ok flow, done))
      (h : (Interpreter.bindTarget st.effort st.frame st.statement flow).apply done =
        some (.error { fault := f }, left)) : Raises i st f

section

variable {i : Interpreter σ} {f : Failure} {left : Machine σ}

/-- An invocation that fails cannot be started, or its block fails. -/
theorem Invocation.cases_of_error {effort : ℕ} {v : Invocation σ}
    (h : v.outcome i effort = some (.error f, left)) :
    (¬v.start.store.isLive v.code.frame = true ∧ f = { fault := .expiredScope }) ∨
      v.start.store.isLive v.code.frame = true ∧
        ((0 < effort ∧ i.settings.maxDepth ≤ v.start.depth ∧
          f = { fault := .depthLimit i.settings.maxDepth }) ∨
        v.start.depth < i.settings.maxDepth ∧
          ∃ left, (v.blockRun effort).outcome i v.procedure = some (.error f, left)) := by
  by_cases hlive : v.start.store.isLive v.code.frame = true
  · rw [outcome, Interpreter.apply_invoke hlive] at h
    obtain ⟨⟨r, m⟩, hblock, heq⟩ := Option.map_eq_some_iff.mp h
    obtain ⟨rfl, _⟩ := Prod.mk.inj heq
    refine .inr ⟨hlive, ?_⟩
    by_cases hdepth : v.start.depth < i.settings.maxDepth
    · exact .inr ⟨hdepth, m, hblock⟩
    · cases effort with
      | zero => cases hblock
      | succ effort =>
        rw [Interpreter.apply_runBlock_of_limit (by exact Nat.not_lt.mp hdepth)] at hblock
        cases hblock
        exact .inl ⟨Nat.succ_pos _, Nat.not_lt.mp hdepth, rfl⟩
  · rw [outcome, Interpreter.apply_invoke_of_not_isLive hlive] at h
    cases h
    exact .inl ⟨hlive, rfl⟩

/-- A statement fails as what it says fails. -/
theorem StatementRun.outcome_of_dispatch {st : StatementRun σ} {announced : Machine σ}
    (hannounce : (i.hooks.announce st.statement).apply st.start = some (.ok (), announced))
    (hdispatch : (i.dispatch (i.runner st.effort) st.frame st.statement).apply announced =
      some (.error f, left)) : st.outcome i = some (.error f, left) := by
  rw [outcome_eq, hannounce, Action.continueWith_ok, hdispatch, Action.continueWith_error]

/-- A block that fails makes the statement fail that runs it. -/
theorem StatementRun.Invokes.outcome_of_error {st : StatementRun σ} {v : Invocation σ}
    (h : st.Invokes i v) (herror : v.outcome i st.effort = some (.error f, left)) :
    st.outcome i = some (.error f, left) := by
  cases h with
  | control hannounce hcommand harguments hcall =>
    obtain ⟨before, after, hcalls⟩ := List.append_of_mem hcall
    obtain ⟨next, _, _, houtcome, hrun, _⟩ := Script.exists_next_of_calls hcalls
    refine outcome_of_dispatch hannounce ?_
    rw [Interpreter.apply_dispatch_command hcommand, Action.apply_bind, harguments,
      Action.apply_ofEval_pure,
      Action.continueWith_ok, Control.handler_run]
    exact hrun.trans (by rw [houtcome.trans herror, Action.continueWith_error])
  | procedure hannounce hcommand hprocedure harguments =>
    refine outcome_of_dispatch hannounce ?_
    rw [Interpreter.apply_dispatch_procedure hcommand hprocedure, Action.apply_bind, harguments,
      Action.apply_ofEval_pure, Action.continueWith_ok]
    exact herror

/-- A statement fails if a block that it runs does, with the same failure. -/
theorem StatementRun.Invokes.exists_outcome_of_block {st : StatementRun σ} {v : Invocation σ}
    (h : st.Invokes i v) (hlive : v.start.store.isLive v.code.frame = true)
    (hblock : (v.blockRun st.effort).outcome i v.procedure = some (.error f, left)) :
    ∃ left, st.outcome i = some (.error f, left) := by
  refine ⟨left.dropFrame v.start.store.next, h.outcome_of_error ?_⟩
  rw [Invocation.outcome, Interpreter.apply_invoke hlive]
  exact congrArg (Option.map _) hblock

/-- A statement that fails by itself fails with its fault, and has not noted a line. -/
theorem StatementRun.Raises.exists_outcome {st : StatementRun σ} {fault : Fault}
    (h : st.Raises i fault) : ∃ left, st.outcome i = some (.error { fault }, left) := by
  cases h with
  | @hook left _ h => exact ⟨left, by rw [outcome_eq, h, Action.continueWith_error]⟩
  | @arguments announced _ _ hannounce hcommand h =>
    refine ⟨announced, outcome_of_dispatch hannounce ?_⟩
    rw [Interpreter.apply_dispatch_command hcommand, Action.apply_bind, h,
      Action.apply_ofEval_throw, Action.continueWith_error]
  | @parameters announced _ _ hannounce hcommand hprocedure h =>
    refine ⟨announced, outcome_of_dispatch hannounce ?_⟩
    rw [Interpreter.apply_dispatch_procedure hcommand hprocedure, Action.apply_bind, h,
      Action.apply_ofEval_throw,
      Action.continueWith_error]
  | @expression announced _ hannounce hcommand hprocedure h =>
    refine ⟨announced, outcome_of_dispatch hannounce ?_⟩
    rw [Interpreter.apply_dispatch_expression hcommand hprocedure, Action.apply_bind, h,
      Action.apply_ofEval_throw,
      Action.continueWith_error]
  | @simple _ left _ _ _ _ hannounce hcommand hhandler harguments h =>
    refine ⟨left, outcome_of_dispatch hannounce ?_⟩
    rw [Interpreter.apply_dispatch_command hcommand, Action.apply_bind, harguments,
      Action.apply_ofEval_pure,
      Action.continueWith_ok, hhandler]
    exact h
  | control hannounce hcommand harguments h =>
    obtain ⟨left, hleft⟩ := h.run_apply
    refine ⟨left, outcome_of_dispatch hannounce ?_⟩
    rw [Interpreter.apply_dispatch_command hcommand, Action.apply_bind, harguments,
      Action.apply_ofEval_pure,
      Action.continueWith_ok, Control.handler_run]
    exact hleft
  | @limit v hinvokes hlive heffort h =>
    obtain ⟨effort, heffort⟩ := Nat.exists_eq_add_one_of_ne_zero heffort.ne'
    have hblock : (v.blockRun st.effort).outcome i v.procedure = some
        (.error { fault := .depthLimit i.settings.maxDepth }, (v.blockRun st.effort).start) := by
      rw [heffort]
      exact Interpreter.apply_runBlock_of_limit (by exact h) effort v.procedure
    exact hinvokes.exists_outcome_of_block hlive hblock
  | expired hinvokes h =>
    exact ⟨_, hinvokes.outcome_of_error (Interpreter.apply_invoke_of_not_isLive h _ _ _)⟩
  | @binding _ _ left _ _ hannounce hdispatch h =>
    refine ⟨left, ?_⟩
    rw [outcome_eq, hannounce, Action.continueWith_ok, hdispatch, Action.continueWith_ok, h,
      Action.continueWith_error]

/-- A simple command of the language does not note a line. -/
theorem Effect.line_of_error {effort : ℕ} {frame : FrameId} {effect : Effect} {m : Machine σ}
    (h : (effect.run effort frame).apply m = some (.error f, left)) : f.line = none := by
  have hupdate {change : Store → Eval Store} (h : ((do
      Action.updateStore change
      proceed) : Action σ Flow).apply m = some (.error f, left)) : f.line = none := by
    rw [Action.apply_bind, Action.apply_updateStore] at h
    rcases hchange : (change m.store).run with _ | fault | s
    · rw [hchange] at h
      cases h
    · rw [hchange] at h
      cases h
      rfl
    · rw [hchange] at h
      cases h
  cases effect with
  | finish flow => cases h
  | fail fault =>
    cases h
    rfl
  | send message => cases h
  | create path v => exact hupdate h
  | set path v => exact hupdate h

/-- A return binding does not note a line. -/
theorem Interpreter.line_of_bindTarget {effort : ℕ} {frame : FrameId} {s : Statement} {flow : Flow}
    {m : Machine σ} (h : (bindTarget effort frame s flow).apply m = some (.error f, left)) :
    f.line = none := by
  unfold bindTarget at h
  rcases htarget : s.target with _ | target
  · rw [htarget] at h
    cases h
  · rw [htarget] at h
    dsimp only at h
    rcases hvalue : flow.value? with _ | v
    · rw [hvalue] at h
      cases h
      rfl
    · rw [hvalue] at h
      dsimp only at h
      rw [Action.apply_updateStore] at h
      rcases hchange : (if target.fresh then m.store.create effort frame target.name v
        else m.store.set effort frame target.name v).run with _ | fault | store
      · rw [hchange] at h
        cases h
      · rw [hchange] at h
        cases h
        rfl
      · rw [hchange] at h
        cases h

/-- Whether a statement runs a block that fails, or cannot run it. -/
def StatementRun.InvokesFailing (i : Interpreter σ) (st : StatementRun σ) (f : Failure) : Prop :=
  ∃ v left, st.Invokes i v ∧ v.outcome i st.effort = some (.error f, left)

/-- What a statement says fails by itself, or a block does that it runs. -/
theorem StatementRun.raises_or_invokesFailing_of_dispatch {st : StatementRun σ}
    {announced : Machine σ} (hregistry : i.registry = .standard)
    (hannounce : (i.hooks.announce st.statement).apply st.start = some (.ok (), announced))
    (h : (i.dispatch (i.runner st.effort) st.frame st.statement).apply announced =
      some (.error f, left)) :
    (∃ fault, f = { fault } ∧ st.Raises i fault) ∨ st.InvokesFailing i f := by
  rcases hcommand : i.registry.find? st.statement.label with _ | command
  · rcases hprocedure : announced.store.procedure? st.frame st.statement.label with _ | code
    · rw [Interpreter.apply_dispatch_expression hcommand hprocedure, Action.apply_bind] at h
      rcases Action.cases_of_ofEval h with ⟨fault, heval, hf, _⟩ | ⟨v, _, hv⟩
      · cases hf
        exact .inl ⟨fault, rfl, .expression hannounce hcommand hprocedure heval⟩
      · cases hv
    · rw [Interpreter.apply_dispatch_procedure hcommand hprocedure, Action.apply_bind] at h
      rcases Action.cases_of_ofEval h with ⟨fault, heval, hf, _⟩ | ⟨arguments, heval, herror⟩
      · cases hf
        exact .inl ⟨fault, rfl, .parameters hannounce hcommand hprocedure heval⟩
      · exact .inr ⟨_, left, .procedure hannounce hcommand hprocedure heval, herror⟩
  · rw [Interpreter.apply_dispatch_command hcommand, Action.apply_bind] at h
    rcases Action.cases_of_ofEval h with ⟨fault, heval, hf, _⟩ | ⟨arguments, heval, herror⟩
    · cases hf
      exact .inl ⟨fault, rfl, .arguments hannounce hcommand heval⟩
    · have hmem := (Registry.mem_of_find?_standard (hregistry ▸ hcommand)).1
      rcases Command.standard_cases hmem with ⟨control, rfl⟩ | ⟨effect, hdoes⟩
      · rw [control.handler_run] at herror
        rcases Script.faults_or_call_of_error herror with ⟨fault, rfl, hfaults⟩ | ⟨call, hcall, hf⟩
        · exact .inl ⟨fault, rfl, .control hannounce hcommand heval hfaults⟩
        · obtain ⟨before, after, hcalls⟩ := List.append_of_mem hcall
          obtain ⟨_, _, _, houtcome, _, _⟩ := Script.exists_next_of_calls hcalls
          exact .inr ⟨_, left, .control hannounce hcommand heval hcall, houtcome.symm.trans hf⟩
      · rw [hdoes.handler_run] at herror
        obtain ⟨fault, line⟩ := f
        obtain rfl : line = none := Effect.line_of_error herror
        exact .inl ⟨fault, rfl, .simple hannounce hcommand hdoes.handler_eq heval herror⟩

/-- Whether the hook before a statement leaves it to the statement to note its line. -/
def Hooks.Unlined (hooks : Hooks σ) : Prop :=
  ∀ s outbox host f, (hooks.beforeStatement s outbox host).1 = .error f → f.line = Option.none

/-- A statement that fails does so by itself, or a block fails that it runs. -/
theorem StatementRun.raises_or_invokesFailing {st : StatementRun σ}
    (hregistry : i.registry = .standard) (hhooks : i.hooks.Unlined)
    (h : st.outcome i = some (.error f, left)) :
    (∃ fault, f = { fault } ∧ st.Raises i fault) ∨ st.InvokesFailing i f := by
  rw [outcome_eq] at h
  rcases Action.cases_of_continueWith h with ⟨_, hannounce, hf⟩ | ⟨_, announced, hannounce, hrest⟩
  · cases hf
    obtain ⟨fault, line⟩ := f
    obtain ⟨hresult, _⟩ := Prod.mk.inj (Option.some.inj hannounce)
    obtain rfl : line = none := hhooks _ _ _ _ hresult
    exact .inl ⟨fault, rfl, .hook hannounce⟩
  · rcases Action.cases_of_continueWith hrest with ⟨_, hdispatch, hf⟩ | ⟨flow, m, hdispatch, hbind⟩
    · cases hf
      exact raises_or_invokesFailing_of_dispatch hregistry hannounce hdispatch
    · rcases Action.cases_of_continueWith hbind with ⟨_, hbound, hf⟩ | ⟨_, _, _, hdone⟩
      · cases hf
        obtain ⟨fault, line⟩ := f
        obtain rfl : line = none := Interpreter.line_of_bindTarget hbound
        exact .inl ⟨fault, rfl, .binding hannounce hdispatch hbound⟩
      · cases hdone

/-! ## Failures of a block -/

/-- If a list of statements fails, one of them does, and its line is noted. -/
theorem exists_step_of_error {step : Statement → Action σ Flow} {last : Option Value}
    {body : List Statement} {m : Machine σ}
    (h : (runStatements step last body).apply m = some (.error f, left)) :
    ∃ before s after v reached own, body = before ++ s :: after ∧
      (runStatements step last before).apply m = some (.ok (.next v), reached) ∧
      (step s).apply reached = some (.error own, left) ∧ f = own.atLine s.pos.line := by
  induction body generalizing last m with
  | nil => cases h
  | cons s rest ih =>
    rw [runStatements, Action.apply_bind, Action.apply_atLine] at h
    rcases hs : (step s).apply m with _ | ⟨own | v | v, m₁⟩
    · rw [hs] at h
      cases h
    · rw [hs] at h
      cases h
      exact ⟨[], s, rest, last, m, own, rfl, rfl, hs, rfl⟩
    · rw [hs] at h
      obtain ⟨before, t, after, w, reached, own, rfl, hbefore, hstep, rfl⟩ := ih h
      refine ⟨s :: before, t, after, w, reached, own, rfl, ?_, hstep, rfl⟩
      rw [runStatements, Action.apply_bind, Action.apply_atLine, hs]
      exact hbefore
    · rw [hs] at h
      cases h

/-- The procedure that a block may be the body of makes no difference to its failures. -/
theorem BlockRun.outcome_error_iff {b : BlockRun σ} (procedure : Bool) :
    b.outcome i procedure = some (.error f, left) ↔ b.outcome i false = some (.error f, left) := by
  cases procedure with
  | false => exact Iff.rfl
  | true =>
    rw [outcome, outcome, Interpreter.apply_runBlock_procedure]
    rcases (i.runBlock b.effort b.body b.frame false).apply b.start with _ | ⟨own | flow, m⟩
    · simp
    · simp [Except.map]
    · simp [Except.map]

/-- A statement of the block fails if the block does. -/
theorem BlockRun.exists_starts_of_error {b : BlockRun σ} {procedure : Bool}
    (hdepth : b.start.depth < i.settings.maxDepth)
    (h : b.outcome i procedure = some (.error f, left)) :
    ∃ st own left, b.Starts i st ∧ st.outcome i = some (.error own, left) ∧
      f = own.atLine st.statement.pos.line := by
  rw [outcome_error_iff] at h
  obtain ⟨_ | effort, body, frame, start⟩ := b
  · cases h
  · rw [outcome, Interpreter.apply_runBlock hdepth] at h
    obtain ⟨⟨r, m⟩, hrun, heq⟩ := Option.map_eq_some_iff.mp h
    obtain ⟨rfl, _⟩ := Prod.mk.inj heq
    obtain ⟨before, s, after, v, reached, own, rfl, hbefore, hstep, rfl⟩ :=
      exists_step_of_error hrun
    exact ⟨⟨effort, frame, s, reached⟩, own, m, .intro hdepth hbefore, hstep, rfl⟩

/-- The block fails if a statement of it does. -/
theorem BlockRun.Starts.exists_outcome_of_error {b : BlockRun σ} {st : StatementRun σ}
    (h : b.Starts i st) (herror : st.outcome i = some (.error f, left)) (procedure : Bool) :
    ∃ left, b.outcome i procedure = some (.error (f.atLine st.statement.pos.line), left) := by
  simp only [outcome_error_iff]
  cases h with
  | @intro effort frame start reached before after last s hdepth hbefore =>
    refine ⟨left.rise, ?_⟩
    have hstep : (i.runStatement (i.runner effort) frame s).apply reached =
        some (.error f, left) := herror
    rw [outcome, Interpreter.apply_runBlock hdepth, apply_runStatements_append hbefore,
      runStatements, Action.apply_bind, Action.apply_atLine, hstep]
    rfl

/-- A failure in a block goes through all that is around it. -/
theorem BlockRun.Contains.exists_outcome_of_error {b : BlockRun σ} {st : StatementRun σ}
    (h : b.Contains i st) (herror : st.outcome i = some (.error f, left)) (procedure : Bool) :
    ∃ left, b.outcome i procedure = some (.error (f.atLine st.statement.pos.line), left) := by
  induction h generalizing procedure with
  | direct hstarts => exact hstarts.exists_outcome_of_error herror procedure
  | @nested b outer st v hstarts hinvokes hlive _ ih =>
    obtain ⟨_, hinner⟩ := ih herror v.procedure
    obtain ⟨_, houter⟩ := hinvokes.exists_outcome_of_block hlive hinner
    obtain ⟨left, hleft⟩ := hstarts.exists_outcome_of_error houter procedure
    exact ⟨left, by rw [hleft, Failure.atLine_atLine]⟩

/-- A session fails as its block does, if nothing fails at its start and at its end. -/
theorem Interpreter.runSession_error_iff (i : Interpreter σ)
    (hstart : ∀ outbox host, (i.hooks.start outbox host).1 = .ok ())
    (hfinish : ∀ outbox host, (i.hooks.finish outbox host).1 = .ok ()) {effort : ℕ}
    {program : List Statement} {frame : FrameId} {m : Machine σ} :
    (∃ left, i.runSession effort program frame m = some (.error f, left)) ↔
      ∃ left, (i.sessionBlock effort program frame m).outcome i false = some (.error f, left) := by
  rw [runSession_eq, sessionOutcome, hstart]
  dsimp only
  rcases (i.sessionBlock effort program frame m).outcome i false with _ | ⟨own | flow, m'⟩
  · simp
  · simp [conclude]
  · simp [conclude, hfinish]

/-- A failure of a block was raised by a statement that runs in it, and has the line of this
statement. A block that this statement runs has less effort, so the search for the innermost one
comes to an end. -/
theorem BlockRun.exists_raises (hregistry : i.registry = .standard) (hhooks : i.hooks.Unlined)
    {b : BlockRun σ} {procedure : Bool} (hdepth : b.start.depth < i.settings.maxDepth)
    (h : b.outcome i procedure = some (.error f, left)) :
    ∃ st fault, b.Contains i st ∧ st.Raises i fault ∧
      f = { fault, line := some st.statement.pos.line } := by
  -- An inner block has less effort than the block around it: the search inwards comes to an end.
  obtain ⟨effort, heffort⟩ : ∃ effort, b.effort = effort := ⟨_, rfl⟩
  induction effort using Nat.strong_induction_on generalizing b procedure f left with
  | h effort ih =>
    obtain ⟨st, own, m, hstarts, herror, rfl⟩ := exists_starts_of_error hdepth h
    rcases st.raises_or_invokesFailing hregistry hhooks herror with
      ⟨fault, rfl, hraises⟩ | ⟨v, m, hinvokes, hfailing⟩
    · exact ⟨st, fault, .direct hstarts, hraises, rfl⟩
    · rcases Invocation.cases_of_error hfailing with
        ⟨hlive, rfl⟩ | ⟨hlive, ⟨hpos, hlimit, rfl⟩ | ⟨hinside, m', hblock⟩⟩
      · exact ⟨st, _, .direct hstarts, .expired hinvokes hlive, rfl⟩
      · exact ⟨st, _, .direct hstarts, .limit hinvokes hlive hpos hlimit, rfl⟩
      · have hless : st.effort < effort := heffort ▸ hstarts.effort_lt
        obtain ⟨inner, fault, hinner, hraises, rfl⟩ := ih st.effort hless hinside hblock rfl
        exact ⟨inner, fault, .nested hstarts hinvokes hlive hinner, hraises, rfl⟩

end

/-- A recorder that stops a session notes no line. -/
theorem Recorder.unlined_hooks (plan : Plan) : (hooks plan).Unlined := by
  intro s outbox host f h
  by_cases hstops : stops plan s (host.statements + 1) = true
  · simp only [hooks, hstops] at h
    cases h
    rfl
  · simp only [hooks, hstops] at h
    cases h

/-- **A failure has the line of the innermost statement.** The hooks note no lines of their own, and
those at the start and at the end succeed. A session fails if and only if a statement that runs in
it fails by itself, with the fault and the line of this statement. No statement of a block that it
runs then fails by itself. Every block around this statement, whether or not it is the body of a
procedure, and every statement that runs such a block, fails with the same fault and the same line.
-/
theorem failures_have_the_innermost_line (settings : Settings) (hooks : Hooks σ)
    (hlimit : 1 ≤ settings.maxDepth) (hunlined : hooks.Unlined)
    (hstart : ∀ outbox host, (hooks.start outbox host).1 = .ok ())
    (hfinish : ∀ outbox host, (hooks.finish outbox host).1 = .ok ()) :
    let i : Interpreter σ := { settings, registry := .standard, hooks }
    (∀ (effort : ℕ) (program : List Statement) (frame : FrameId) (m : Machine σ)
      (failure : Failure),
      (∃ left, i.runSession effort program frame m = some (.error failure, left)) ↔
        ∃ st fault, (i.sessionBlock effort program frame m).Contains i st ∧ st.Raises i fault ∧
          failure = { fault, line := some st.statement.pos.line }) ∧
    ∀ (st : StatementRun σ) (fault : Fault), st.Raises i fault →
      (∀ v inner other, st.Invokes i v → v.start.store.isLive v.code.frame = true →
        (v.blockRun st.effort).Contains i inner → ¬inner.Raises i other) ∧
      (∀ (b : BlockRun σ) (procedure : Bool), b.Contains i st → ∃ left, b.outcome i procedure =
        some (.error { fault, line := some st.statement.pos.line }, left)) ∧
      ∀ (outer : StatementRun σ) (v : Invocation σ), outer.Invokes i v →
        v.start.store.isLive v.code.frame = true → (v.blockRun outer.effort).Contains i st →
        ∃ left, outer.outcome i =
          some (.error { fault, line := some st.statement.pos.line }, left) := by
  intro i
  have hblock (st : StatementRun σ) (fault : Fault) (hraises : st.Raises i fault)
      (b : BlockRun σ) (procedure : Bool) (hcontains : b.Contains i st) :
      ∃ left, b.outcome i procedure =
        some (.error { fault, line := some st.statement.pos.line }, left) := by
    obtain ⟨_, herror⟩ := hraises.exists_outcome
    exact hcontains.exists_outcome_of_error herror procedure
  have hstatement (st : StatementRun σ) (fault : Fault) (hraises : st.Raises i fault)
      (outer : StatementRun σ) (v : Invocation σ) (hinvokes : outer.Invokes i v)
      (hlive : v.start.store.isLive v.code.frame = true)
      (hcontains : (v.blockRun outer.effort).Contains i st) : ∃ left, outer.outcome i =
        some (.error { fault, line := some st.statement.pos.line }, left) := by
    obtain ⟨_, herror⟩ := hblock st fault hraises _ v.procedure hcontains
    exact hinvokes.exists_outcome_of_block hlive herror
  refine ⟨fun effort program frame m failure => ⟨?_, ?_⟩, fun st fault hraises =>
    ⟨fun v inner other hinvokes hlive hinner hother => ?_, hblock st fault hraises,
      hstatement st fault hraises⟩⟩
  · rintro ⟨left, hleft⟩
    obtain ⟨m', hfailed⟩ := (i.runSession_error_iff hstart hfinish).mp ⟨left, hleft⟩
    exact BlockRun.exists_raises rfl hunlined hlimit hfailed
  · rintro ⟨st, fault, hcontains, hraises, rfl⟩
    exact (i.runSession_error_iff hstart hfinish).mpr (hblock st fault hraises _ false hcontains)
  · obtain ⟨_, herror⟩ := hraises.exists_outcome
    obtain ⟨_, herror'⟩ := hstatement inner other hother st v hinvokes hlive hinner
    cases herror.symm.trans herror'

/-- A session that is stopped in the condition of a loop fails with the line of the statement there,
and not with the line of the loop. -/
theorem failures_have_the_innermost_line_while :
    let i : Interpreter Recorder :=
      { registry := .standard, hooks := Recorder.hooks { stopLabel := some "home" } }
    let m : Machine Recorder :=
      { store := ({} : Store).push none none, outbox := { capacity := 64 }, host := {} }
    let home : Statement := ⟨"home", [], none, ⟨2, 3⟩⟩
    let program : List Statement :=
      [⟨"while", [.block ⟨0, ⟨1, 7⟩⟩ [home], .block ⟨1, ⟨3, 3⟩⟩ []], none, ⟨1, 1⟩⟩]
    ∃ left st, i.runSession 3 program 0 m =
        some (.error { fault := .host "stopped", line := some 2 }, left) ∧
      (i.sessionBlock 3 program 0 m).Contains i st ∧ st.Raises i (.host "stopped") ∧
      st.statement.pos.line = 2 := by
  intro i m home program
  obtain ⟨hsession, _⟩ := failures_have_the_innermost_line i.settings i.hooks (by decide)
    (Recorder.unlined_hooks _) (fun _ _ => rfl) (fun _ _ => rfl)
  obtain ⟨left, hleft⟩ : ∃ left, i.runSession 3 program 0 m =
      some (.error { fault := .host "stopped", line := some 2 }, left) := ⟨_, rfl⟩
  obtain ⟨st, fault, hcontains, hraises, hfailure⟩ := (hsession 3 program 0 m _).mp ⟨left, hleft⟩
  obtain ⟨hfault, hline⟩ := Failure.mk.inj hfailure
  exact ⟨left, st, hleft, hcontains, hfault ▸ hraises, (Option.some.inj hline).symm⟩

end Logo
