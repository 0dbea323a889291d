import Logo.Proofs.Evaluation.Consult
import Logo.Proofs.Interpreter.Sent
import Logo.Proofs.Interpreter.Settling

/-!
# Expressions that a run has to evaluate

A statement evaluates expressions to check its arguments, to decide conditions, to find the variable
that it makes or sets, and if it is an expression itself. If a run has come to its end, then so has
the evaluation of each of these expressions, in the blocks inside of it as well.
-/

namespace Logo

variable {σ α β : Type}

/-- Whether a statement has to evaluate a text in its frame, with the variables of a store. -/
inductive StatementRun.Evaluates (i : Interpreter σ) : StatementRun σ → Store → String → Prop
  /-- The check of the arguments of a command waits for the text. -/
  | arguments {effort : ℕ} {frame : FrameId} {s : Statement} {start announced : Machine σ}
      {command : Command σ} {text : String}
      (hannounce : (i.hooks.announce s).apply start = some (.ok (), announced))
      (hcommand : i.registry.find? s.label = some command)
      (htext : (announced.store.environment frame).Awaits (fun o => validateBy o
        (announced.store.find? frame) frame s.label command.signature s.arguments) text) :
      Evaluates i ⟨effort, frame, s, start⟩ announced.store text
  /-- The check of the arguments of a procedure waits for the text. -/
  | parameters {effort : ℕ} {frame : FrameId} {s : Statement} {start announced : Machine σ}
      {code : Code} {text : String}
      (hannounce : (i.hooks.announce s).apply start = some (.ok (), announced))
      (hcommand : i.registry.find? s.label = none)
      (hprocedure : announced.store.procedure? frame s.label = some code)
      (htext : (announced.store.environment frame).Awaits (fun o => validateBy o
        (announced.store.find? frame) frame s.label (.exactly code.arity .value) s.arguments)
        text) :
      Evaluates i ⟨effort, frame, s, start⟩ announced.store text
  /-- The statement is an expression itself. An identifier with arguments behind it is one only if
  it is the name of a variable; otherwise it is an unknown command, and nothing is evaluated. -/
  | expression {effort : ℕ} {frame : FrameId} {s : Statement} {start announced : Machine σ}
      {text : String}
      (hannounce : (i.hooks.announce s).apply start = some (.ok (), announced))
      (hcommand : i.registry.find? s.label = none)
      (hprocedure : announced.store.procedure? frame s.label = none)
      (hknown : isIdentifier s.label = true → s.arguments ≠ [] →
        (announced.store.find? frame s.label).isSome = true)
      (htext : s.expression? = some text) :
      Evaluates i ⟨effort, frame, s, start⟩ announced.store text
  /-- A control command comes to the text as a condition. -/
  | condition {effort : ℕ} {frame : FrameId} {s : Statement} {start announced : Machine σ}
      {c : Control} {arguments : List Actual} {store : Store} {text : String}
      (hannounce : (i.hooks.announce s).apply start = some (.ok (), announced))
      (hcommand : i.registry.find? s.label = some c.command)
      (harguments : validate effort announced.store frame s.label
        (c.command : Command σ).signature s.arguments = pure arguments)
      (htext : (c.script effort i.settings frame arguments).Inquires (i.runner effort).invoke
        announced ⟨effort, frame, text⟩ store) :
      Evaluates i ⟨effort, frame, s, start⟩ store text
  /-- The path of a variable that is made or set waits for the text. -/
  | assignment {effort : ℕ} {frame : FrameId} {s : Statement} {start announced : Machine σ}
      {command : Command σ} {effect : List Actual → Effect} {arguments : List Actual}
      {path : String} {v : Value} {text : String}
      (hannounce : (i.hooks.announce s).apply start = some (.ok (), announced))
      (hcommand : i.registry.find? s.label = some command) (hdoes : command.Does effect)
      (harguments : validate effort announced.store frame s.label command.signature s.arguments =
        pure arguments)
      (heffect : effect arguments = .create path v ∨ effect arguments = .set path v)
      (htext : (announced.store.environment frame).Awaits
        (fun o => Path.resolve (announced.store.find? frame) o path) text) :
      Evaluates i ⟨effort, frame, s, start⟩ announced.store text
  /-- The path of the return binding waits for the text. -/
  | binding {effort : ℕ} {frame : FrameId} {s : Statement} {start announced reached : Machine σ}
      {flow : Flow} {target : Target} {text : String}
      (hannounce : (i.hooks.announce s).apply start = some (.ok (), announced))
      (hdispatch : (i.dispatch (i.runner effort) frame s).apply announced =
        some (.ok flow, reached))
      (htarget : s.target = some target) (hvalue : flow.value?.isSome = true)
      (htext : (reached.store.environment frame).Awaits
        (fun o => Path.resolve (reached.store.find? frame) o target.name) text) :
      Evaluates i ⟨effort, frame, s, start⟩ reached.store text

/-- Whether the evaluation of each expression that a block has to evaluate comes to an end. -/
def BlockRun.Answered (i : Interpreter σ) (b : BlockRun σ) : Prop :=
  ∀ st, b.Contains i st → ∀ store text, st.Evaluates i store text →
    (store.environment st.frame).Finishes text

/-- Whether the evaluation of each expression that a statement has to evaluate comes to an end, also
in the blocks that it runs. -/
structure StatementRun.Answered (i : Interpreter σ) (st : StatementRun σ) : Prop where
  own {store : Store} {text : String} :
    st.Evaluates i store text → (store.environment st.frame).Finishes text
  blocks {v : Invocation σ} :
    st.Invokes i v → v.start.store.isLive v.code.frame = true → (v.blockRun st.effort).Answered i

/-- If each expression of a block comes to an end, then so do those of each of its statements. -/
theorem BlockRun.Answered.of_starts {i : Interpreter σ} {b : BlockRun σ} {st : StatementRun σ}
    (h : b.Answered i) (hst : b.Starts i st) : st.Answered i where
  own := h st (.direct hst) _ _
  blocks hinvokes hlive inner hinner := h inner (.nested hst hinvokes hlive hinner)

/-- Whether the evaluation of each expression that a session has to evaluate comes to an end. Where
the start hook fails, a session evaluates nothing. -/
def Interpreter.SessionAnswered (i : Interpreter σ) (effort : ℕ) (program : List Statement)
    (frame : FrameId) (m : Machine σ) : Prop :=
  (i.hooks.start { m.outbox with pending := [], capacity := i.settings.queueCapacity }
      m.host).1 = .ok () →
    (i.sessionBlock effort program frame m).Answered i

/-! ## Runs that have come to their end -/

namespace Action

variable {m : Machine σ}

/-- The first part of a sequence has come to its end if the whole sequence has. -/
theorem ne_none_of_bind {a : Action σ α} {k : α → Action σ β} (h : (a >>= k).apply m ≠ none) :
    a.apply m ≠ none := fun hnone => by
  rw [apply_bind, hnone] at h
  exact h rfl

/-- An evaluation has come to its end if its action has. -/
theorem ne_exhausted_of_ofEval {e : Eval α} (h : (ofEval e : Action σ α).apply m ≠ none) :
    e ≠ Eval.exhausted := by
  rintro rfl
  exact h rfl

/-- A new store has been evaluated if its action has come to its end. -/
theorem ne_exhausted_of_updateStore {f : Store → Eval Store}
    (h : (updateStore f : Action σ Unit).apply m ≠ none) : f m.store ≠ Eval.exhausted :=
  fun hunknown => by
    rw [apply_updateStore, hunknown] at h
    exact h rfl

end Action

section

variable {store : Store} {effort : ℕ} {frame : FrameId} {path : String} {v : Value}

/-- A variable is made after its path was read. -/
theorem Store.resolve_ne_exhausted_of_create
    (h : store.create effort frame path v ≠ Eval.exhausted) :
    store.resolve effort frame path ≠ Eval.exhausted := fun hunknown => by
  rw [create, hunknown] at h
  exact h rfl

/-- A variable is set after its path was read. -/
theorem Store.resolve_ne_exhausted_of_set (h : store.set effort frame path v ≠ Eval.exhausted) :
    store.resolve effort frame path ≠ Eval.exhausted := fun hunknown => by
  rw [set, hunknown] at h
  exact h rfl

/-- A statement that is an expression is evaluated as one, unless it is an unknown command. -/
theorem evaluateStatement_eq_evaluate {s : Statement} {text : String}
    (hknown : isIdentifier s.label = true → s.arguments ≠ [] →
      (store.find? frame s.label).isSome = true)
    (htext : s.expression? = some text) :
    evaluateStatement effort store frame s = evaluate effort (store.environment frame) text := by
  have hguard : ¬(isIdentifier s.label && !s.arguments.isEmpty &&
      (store.find? frame s.label).isNone) = true := by
    intro h
    simp only [Bool.and_eq_true, Bool.not_eq_true', List.isEmpty_eq_false_iff] at h
    obtain ⟨⟨hlabel, harguments⟩, hnone⟩ := h
    rw [Option.isNone_iff_eq_none.mp hnone] at hknown
    exact absurd (hknown hlabel harguments) (by simp)
  rw [evaluateStatement, if_neg hguard, htext]

end

/-- A return binding has read the path of its target if it has come to its end. -/
theorem resolve_ne_exhausted_of_bindTarget {effort : ℕ} {frame : FrameId} {s : Statement}
    {flow : Flow} {target : Target} {m : Machine σ}
    (h : (Interpreter.bindTarget effort frame s flow).apply m ≠ none)
    (htarget : s.target = some target) (hvalue : flow.value?.isSome = true) :
    m.store.resolve effort frame target.name ≠ Eval.exhausted := by
  obtain ⟨v, hv⟩ := Option.isSome_iff_exists.mp hvalue
  simp only [Interpreter.bindTarget, htarget, hv] at h
  have hwrite := Action.ne_exhausted_of_updateStore h
  split at hwrite
  · exact Store.resolve_ne_exhausted_of_create hwrite
  · exact Store.resolve_ne_exhausted_of_set hwrite

namespace StatementRun

variable {i : Interpreter σ} {st : StatementRun σ} {announced : Machine σ}

/-- What a statement says has come to its end if the statement has. -/
theorem dispatch_ne_none (hended : st.outcome i ≠ none)
    (hannounce : (i.hooks.announce st.statement).apply st.start = some (.ok (), announced)) :
    (i.dispatch (i.runner st.effort) st.frame st.statement).apply announced ≠ none := by
  rw [outcome, Interpreter.runStatement, Action.apply_bind, hannounce] at hended
  exact Action.ne_none_of_bind hended

/-- If a statement has come to its end, then so has each expression that it has to evaluate. -/
theorem Evaluates.finishes {store : Store} {text : String} (h : st.Evaluates i store text)
    (hended : st.outcome i ≠ none) : (store.environment st.frame).Finishes text := by
  cases h with
  | arguments hannounce hcommand htext =>
    have hdispatch := dispatch_ne_none hended hannounce
    rw [Interpreter.apply_dispatch_command hcommand] at hdispatch
    have hvalidate := Action.ne_exhausted_of_ofEval (Action.ne_none_of_bind hdispatch)
    exact htext.finishes (validate_eq .. ▸ hvalidate)
  | parameters hannounce hcommand hprocedure htext =>
    have hdispatch := dispatch_ne_none hended hannounce
    rw [Interpreter.apply_dispatch_procedure hcommand hprocedure] at hdispatch
    have hvalidate := Action.ne_exhausted_of_ofEval (Action.ne_none_of_bind hdispatch)
    exact htext.finishes (validate_eq .. ▸ hvalidate)
  | expression hannounce hcommand hprocedure hknown htext =>
    have hdispatch := dispatch_ne_none hended hannounce
    rw [Interpreter.apply_dispatch_expression hcommand hprocedure,
      evaluateStatement_eq_evaluate hknown htext] at hdispatch
    have hevaluate := Action.ne_exhausted_of_ofEval (Action.ne_none_of_bind hdispatch)
    exact Environment.finishes_iff_ne_exhausted.mpr ⟨_, hevaluate⟩
  | condition hannounce hcommand harguments htext =>
    have hdispatch := dispatch_ne_none hended hannounce
    rw [apply_dispatch_of_command (i.runner _) hcommand harguments, Control.handler_run]
      at hdispatch
    exact Environment.finishes_iff_ne_exhausted.mpr ⟨_, htext.answer_ne_exhausted hdispatch⟩
  | assignment hannounce hcommand hdoes harguments heffect htext =>
    have hdispatch := dispatch_ne_none hended hannounce
    rw [apply_dispatch_of_command (i.runner _) hcommand harguments, hdoes.handler_run] at hdispatch
    rcases heffect with heffect | heffect
    · rw [heffect] at hdispatch
      have hcreate := Action.ne_exhausted_of_updateStore (Action.ne_none_of_bind hdispatch)
      exact htext.finishes (Store.resolve_ne_exhausted_of_create hcreate)
    · rw [heffect] at hdispatch
      have hset := Action.ne_exhausted_of_updateStore (Action.ne_none_of_bind hdispatch)
      exact htext.finishes (Store.resolve_ne_exhausted_of_set hset)
  | binding hannounce hdispatch htarget hvalue htext =>
    rw [outcome, Interpreter.runStatement, Action.apply_bind, hannounce, Action.continueWith_ok,
      Action.apply_bind, hdispatch, Action.continueWith_ok] at hended
    have hbinding := Action.ne_none_of_bind hended
    exact htext.finishes (resolve_ne_exhausted_of_bindTarget hbinding htarget hvalue)

end StatementRun

/-- If a block has come to its end, then so has each expression that it has to evaluate. -/
theorem BlockRun.answered_of_outcome {i : Interpreter σ} (hregistry : i.registry = .standard)
    {b : BlockRun σ} (procedure : Bool) (hended : b.outcome i procedure ≠ none) :
    b.Answered i := by
  intro st hst store text htext
  obtain ⟨⟨r, left⟩, houtcome⟩ := Option.ne_none_iff_exists'.mp hended
  obtain ⟨_, _, hstatement, _⟩ := (hst.goesOn hregistry procedure).retains houtcome
  exact htext.finishes (by simp [hstatement])

/-- If a session has come to its end, then so has each expression that it has to evaluate. -/
theorem Interpreter.sessionAnswered_of_runSession {i : Interpreter σ}
    (hregistry : i.registry = .standard) {effort : ℕ} {program : List Statement} {frame : FrameId}
    {m : Machine σ} (hended : i.runSession effort program frame m ≠ none) :
    i.SessionAnswered effort program frame m := by
  intro hstart
  refine BlockRun.answered_of_outcome hregistry false fun hnone => hended ?_
  rw [runSession_eq, sessionOutcome, hstart]
  exact congrArg (Option.map i.conclude) hnone

end Logo
