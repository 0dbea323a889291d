import Logo.Proofs.Interpreter.Ends

/-!
# What statements do

A statement with the label of a command checks its arguments and runs the command. With the name of
a procedure it checks its arguments and runs the code of the procedure, and any other statement is
evaluated. Of these three cases, and of the ways to run code, each has an equation of its own.
-/

namespace Logo

variable {σ α β : Type}

namespace Action

/-- An evaluation with a fault fails with this fault. -/
@[simp] theorem apply_ofEval_throw (f : Fault) (m : Machine σ) :
    (ofEval (throw f) : Action σ α).apply m = some (.error { fault := f }, m) := rfl

/-- An evaluation with a value goes on with this value. -/
@[simp] theorem apply_ofEval_pure (a : α) (m : Machine σ) :
    (ofEval (pure a) : Action σ α).apply m = some (.ok a, m) := rfl

variable {k : α → Machine σ → Option (Except Failure β × Machine σ)} {m left : Machine σ}
  {r : Except Failure β}

/-- What goes on after an action has come to its end, or the action has failed. -/
theorem cases_of_continueWith {o : Option (Except Failure α × Machine σ)}
    (h : continueWith k o = some (r, left)) :
    (∃ f, o = some (.error f, left) ∧ r = .error f) ∨
      ∃ a m, o = some (.ok a, m) ∧ k a m = some (r, left) := by
  rcases o with _ | ⟨f | a, m⟩
  · cases h
  · cases h
    exact .inl ⟨f, rfl, rfl⟩
  · exact .inr ⟨a, m, rfl, h⟩

/-- What goes on after an evaluation has come to its end, or the evaluation has a fault. -/
theorem cases_of_ofEval {e : Eval α} (h : continueWith k ((ofEval e).apply m) = some (r, left)) :
    (∃ fault, e = throw fault ∧ r = .error { fault } ∧ left = m) ∨
      ∃ a, e = pure a ∧ k a m = some (r, left) := by
  rcases e.cases_outcome with rfl | ⟨fault, rfl⟩ | ⟨a, rfl⟩
  · cases h
  · cases h
    exact .inl ⟨fault, rfl, rfl, rfl⟩
  · exact .inr ⟨a, rfl, h⟩

end Action

namespace Interpreter

variable {i : Interpreter σ} {effort : ℕ} {frame : FrameId} {s : Statement} {m : Machine σ}

/-- Where the label is that of a command, its arguments are checked by its signature and it is run
on them. -/
theorem apply_dispatch_command {command : Command σ}
    (hcommand : i.registry.find? s.label = some command) :
    (i.dispatch (i.runner effort) frame s).apply m =
      (Action.ofEval (validate effort m.store frame s.label command.signature s.arguments) >>=
        fun arguments => command.handler.run (i.runner effort) frame arguments).apply m := by
  rw [dispatch, Action.apply_bind, Action.apply_store, Action.continueWith_ok, hcommand]
  rfl

/-- Where the label is that of a procedure, its arguments are checked for values and its body is run
with them bound to the parameters. -/
theorem apply_dispatch_procedure {code : Code} (hcommand : i.registry.find? s.label = none)
    (hprocedure : m.store.procedure? frame s.label = some code) :
    (i.dispatch (i.runner effort) frame s).apply m =
      (Action.ofEval
          (validate effort m.store frame s.label (.exactly code.arity .value) s.arguments) >>=
        fun arguments => (i.runner effort).invoke code
          (some (bindParams code.params arguments)) true).apply m := by
  simp only [dispatch, Action.apply_bind, Action.apply_store, Action.continueWith_ok, hcommand,
    hprocedure, call]
  rfl

/-- Where the label is neither, the statement as a whole is an expression. -/
theorem apply_dispatch_expression (hcommand : i.registry.find? s.label = none)
    (hprocedure : m.store.procedure? frame s.label = none) :
    (i.dispatch (i.runner effort) frame s).apply m =
      (Action.ofEval (evaluateStatement effort m.store frame s) >>= fun v =>
        (pure (.next (some v)) : Action σ Flow)).apply m := by
  simp only [dispatch, Action.apply_bind, Action.apply_store, Action.continueWith_ok, hcommand,
    hprocedure]
  rfl

/-- Code does not run once its frame is dropped. -/
theorem apply_invoke_of_not_isLive {code : Code} (h : ¬m.store.isLive code.frame = true)
    (effort : ℕ) (bindings : Option Bindings) (procedure : Bool) :
    ((i.runner effort).invoke code bindings procedure).apply m =
      some (.error { fault := .expiredScope }, m) :=
  if_neg h

/-- A block at the limit is not run. -/
theorem apply_runBlock_of_limit {body : List Statement} (h : i.settings.maxDepth ≤ m.depth)
    (effort : ℕ) (procedure : Bool) :
    (i.runBlock (effort + 1) body frame procedure).apply m =
      some (.error { fault := .depthLimit i.settings.maxDepth }, m) := by
  rw [runBlock_succ, Action.apply_bind, Action.nested, Action.apply_ofFun, if_pos h,
    Action.continueWith_error]

end Interpreter

/-- A statement is its hook, what it says, and its return binding. -/
theorem StatementRun.outcome_eq (i : Interpreter σ) (st : StatementRun σ) :
    st.outcome i = Action.continueWith
      (fun _ m => Action.continueWith
        (fun flow m => Action.continueWith (fun _ m => some (.ok flow, m))
          ((Interpreter.bindTarget st.effort st.frame st.statement flow).apply m))
        ((i.dispatch (i.runner st.effort) st.frame st.statement).apply m))
      ((i.hooks.announce st.statement).apply st.start) := by
  simp only [outcome, Interpreter.runStatement, Action.apply_bind, Action.apply_pure]
  rfl

end Logo
