import Logo.Command.Standard
import Logo.Proofs.Interpreter.Control

/-!
# Leaving a procedure

A block that leaves makes the statement that ran it leave, then the block of this statement, and so
on outwards, up to the body of a procedure or the program. On this way no statement runs. Frames are
dropped, and a statement with a return binding still binds the value.
-/

namespace Logo

variable {σ : Type}

namespace Interpreter

variable {i : Interpreter σ}

/-- What a block gives to the commands in it, with the effort that is left for them. -/
def runner (i : Interpreter σ) (effort : ℕ) : Runner σ where
  effort
  settings := i.settings
  invoke code bindings procedure :=
    Action.inFrame code bindings fun id => i.runBlock effort code.body id procedure

/-- A block runs its statements one level deeper, and the body of a procedure takes in what leaves
it. -/
theorem runBlock_succ (effort : ℕ) (body : List Statement) (frame : FrameId) (procedure : Bool) :
    i.runBlock (effort + 1) body frame procedure = do
      let flow ← Action.nested i.settings.maxDepth
        (runStatements (i.runStatement (i.runner effort) frame) none body)
      return if procedure then flow.absorb else flow := rfl

/-- Code whose frame is in use runs in a new frame, which is dropped at the end. -/
theorem apply_invoke {code : Code} {m : Machine σ} (h : m.store.isLive code.frame = true)
    (effort : ℕ) (bindings : Option Bindings) (procedure : Bool) :
    ((i.runner effort).invoke code bindings procedure).apply m =
      ((i.runBlock effort code.body m.store.next procedure).apply
        { m with store := m.store.push (some code.frame) bindings }).map
          (Prod.map id (Machine.dropFrame m.store.next)) :=
  Action.apply_inFrame h bindings fun id => i.runBlock effort code.body id procedure

/-- A block that is not too deep runs its statements one level deeper. -/
theorem apply_runBlock {effort : ℕ} {body : List Statement} {frame : FrameId} {m : Machine σ}
    (hdepth : m.depth < i.settings.maxDepth) :
    (i.runBlock (effort + 1) body frame false).apply m =
      ((runStatements (i.runStatement (i.runner effort) frame) none body).apply
        { m with depth := m.depth + 1 }).map (Prod.map id Machine.rise) := by
  rw [runBlock_succ, Action.apply_bind, Action.apply_nested hdepth]
  rcases (runStatements (i.runStatement (i.runner effort) frame) none body).apply
    { m with depth := m.depth + 1 } with _ | ⟨_ | flow, m⟩
  · rfl
  · rfl
  · rfl

/-- The body of a procedure runs like any other block, but it ends what leaves it. -/
theorem apply_runBlock_procedure (effort : ℕ) (body : List Statement) (frame : FrameId)
    (m : Machine σ) :
    (i.runBlock effort body frame true).apply m =
      ((i.runBlock effort body frame false).apply m).map
        (Prod.map (Except.map Flow.absorb) id) := by
  cases effort with
  | zero => rfl
  | succ effort =>
    rw [runBlock_succ, runBlock_succ, Action.apply_bind, Action.apply_bind]
    rcases (Action.nested i.settings.maxDepth
      (runStatements (i.runStatement (i.runner effort) frame) none body)).apply m
      with _ | ⟨_ | flow, m⟩
    · rfl
    · rfl
    · rfl

end Interpreter

/-- Statements that come to their end are followed by the rest. -/
theorem apply_runStatements_append {step : Statement → Action σ Flow} {last v : Option Value}
    {before rest : List Statement} {m m' : Machine σ}
    (h : (runStatements step last before).apply m = some (.ok (.next v), m')) :
    (runStatements step last (before ++ rest)).apply m = (runStatements step v rest).apply m' := by
  induction before generalizing last m with
  | nil =>
    obtain ⟨rfl, rfl⟩ : last = v ∧ m = m' := by simpa [runStatements] using h
    rfl
  | cons s before ih =>
    simp only [List.cons_append, runStatements, Action.apply_bind] at h ⊢
    rcases hs : ((step s).atLine s.pos.line).apply m with _ | ⟨_ | _ | _, m₁⟩
    · simp [hs] at h
    · simp [hs] at h
    · rw [hs] at h
      exact ih h
    · simp [hs] at h

/-! ## Blocks inside blocks -/

/-- A block about to run in a frame. -/
structure BlockRun (σ : Type) where
  effort : ℕ
  body : List Statement
  frame : FrameId
  start : Machine σ

/-- How a block ends that is the body of a procedure, or is not. -/
def BlockRun.outcome (i : Interpreter σ) (b : BlockRun σ) (procedure : Bool) :
    Option (Except Failure Flow × Machine σ) :=
  (i.runBlock b.effort b.body b.frame procedure).apply b.start

/-- The block of a call, in its new frame. -/
def Call.blockRun (call : Call σ) (effort : ℕ) : BlockRun σ where
  effort
  body := call.code.body
  frame := call.start.store.next
  start := { call.start with
    store := call.start.store.push (some call.code.frame) call.bindings }

/-- Whether a statement of one block runs another block, as a part of a control command that leaves
when this other block leaves. -/
inductive Encloses (i : Interpreter σ) : BlockRun σ → Statement → BlockRun σ → Prop
  | intro {effort : ℕ} {frame : FrameId} {start reached announced : Machine σ}
      {before after : List Statement} {last : Option Value} {s : Statement} {c : Control}
      {arguments : List Actual} {call : Call σ}
      (hdepth : start.depth < i.settings.maxDepth)
      (hbefore : (runStatements (i.runStatement (i.runner effort) frame) none before).apply
        { start with depth := start.depth + 1 } = some (.ok (.next last), reached))
      (hannounce : (i.hooks.announce s).apply reached = some (.ok (), announced))
      (hcommand : i.registry.find? s.label = some c.command)
      (harguments : validate effort announced.store frame s.label
        (c.command : Command σ).signature s.arguments = pure arguments)
      (hcall : call ∈ (c.script effort i.settings frame arguments).calls (i.runner effort).invoke
        announced)
      (hforwards : c.Forwards call.role)
      (hlive : call.start.store.isLive call.code.frame = true) :
      Encloses i ⟨effort + 1, before ++ s :: after, frame, start⟩ s (call.blockRun effort)

/-- A statement with the label of a command runs it on the checked arguments. -/
theorem apply_dispatch_of_command {i : Interpreter σ} {frame : FrameId} {m : Machine σ}
    {s : Statement} {command : Command σ} {arguments : List Actual} (runner : Runner σ)
    (hcommand : i.registry.find? s.label = some command)
    (harguments : validate runner.effort m.store frame s.label command.signature s.arguments =
      pure arguments) :
    (i.dispatch runner frame s).apply m = (command.handler.run runner frame arguments).apply m := by
  simp only [Interpreter.dispatch, hcommand, Action.apply_bind, Action.apply_store,
    Action.continueWith_ok, harguments]
  rfl

/-- What the statement does whose command runs a block that does not just go on: it ends like this
block. -/
theorem apply_dispatch_of_call {i : Interpreter σ} {effort : ℕ} {frame : FrameId} {m : Machine σ}
    {s : Statement} {c : Control} {arguments : List Actual} {call : Call σ}
    (hcommand : i.registry.find? s.label = some c.command)
    (harguments : validate effort m.store frame s.label (c.command : Command σ).signature
      s.arguments = pure arguments)
    (hcall : call ∈ (c.script effort i.settings frame arguments).calls (i.runner effort).invoke m)
    (hforwards : c.Forwards call.role)
    (hnext : ∀ v m', call.outcome ≠ some (.ok (.next v), m')) :
    (i.dispatch (i.runner effort) frame s).apply m = call.outcome := by
  obtain ⟨before, after, hcalls⟩ := List.append_of_mem hcall
  have hdispatch : (i.dispatch (i.runner effort) frame s).apply m =
      ((c.script effort i.settings frame arguments).run (i.runner effort).invoke).apply m := by
    rw [apply_dispatch_of_command (i.runner effort) hcommand harguments]
    exact congrArg (Action.apply · m) (c.handler_run (i.runner effort) frame arguments)
  rw [hdispatch]
  obtain ⟨next, _, _, _, hrun, _⟩ := Script.exists_next_of_calls hcalls
  rcases houtcome : call.outcome with _ | ⟨f | v | v, m'⟩
  · rw [hrun, houtcome, Action.continueWith_none]
  · rw [hrun, houtcome, Action.continueWith_error]
  · exact absurd houtcome (hnext v m')
  · exact ((c.script_forwards _ _ _ _).run_of_leave hcalls hforwards houtcome).2

/-- The outcome of a call is that of its block, less the frame of the block. -/
theorem Call.outcome_eq {i : Interpreter σ} {effort : ℕ} {s : Script} {m : Machine σ}
    {call : Call σ} (hcall : call ∈ s.calls (i.runner effort).invoke m)
    (hlive : call.start.store.isLive call.code.frame = true) :
    call.outcome = ((call.blockRun effort).outcome i false).map
      (Prod.map id (Machine.dropFrame (call.blockRun effort).frame)) := by
  obtain ⟨before, after, hcalls⟩ := List.append_of_mem hcall
  obtain ⟨next, _, _, houtcome, _, _⟩ := Script.exists_next_of_calls hcalls
  rw [houtcome]
  exact Interpreter.apply_invoke hlive effort call.bindings false

/-! ## The way outwards -/

/-- Whether an outcome is that of a block which something has left with `v`: nothing is sent and the
host is not called any more, and the block leaves with `v` unless a failure stops it. -/
def IsUnwound (v : Option Value) (left : Machine σ)
    (outcome : Option (Except Failure Flow × Machine σ)) : Prop :=
  ∀ r m, outcome = some (r, m) →
    (m.outbox = left.outbox ∧ m.host = left.host) ∧ ∀ flow, r = .ok flow → flow = .leave v

namespace IsUnwound

variable {v : Option Value} {left : Machine σ} {outcome : Option (Except Failure Flow × Machine σ)}

/-- An outcome is still unwound if only the store and the depth of its machine change. -/
theorem map {g : Machine σ → Machine σ} (h : IsUnwound v left outcome)
    (hg : ∀ m, (g m).outbox = m.outbox ∧ (g m).host = m.host) :
    IsUnwound v left (outcome.map (Prod.map id g)) := by
  rintro r m houtcome
  obtain ⟨⟨r', m'⟩, hsome, heq⟩ := Option.map_eq_some_iff.mp houtcome
  obtain ⟨rfl, rfl⟩ := Prod.mk.inj heq
  obtain ⟨⟨houtbox, hhost⟩, hflow⟩ := h _ _ hsome
  exact ⟨⟨(hg m').1.trans houtbox, (hg m').2.trans hhost⟩, hflow⟩

/-- An outcome that goes on is unwound if what follows a block that has left is. -/
theorem continueWith {f : Flow → Machine σ → Option (Except Failure Flow × Machine σ)}
    (h : IsUnwound v left outcome)
    (hf : ∀ m, m.outbox = left.outbox → m.host = left.host → IsUnwound v left (f (.leave v) m)) :
    IsUnwound v left (Action.continueWith f outcome) := by
  rcases outcome with _ | ⟨failure | flow, m⟩
  · exact h
  · exact h
  · obtain ⟨⟨houtbox, hhost⟩, hflow⟩ := h _ _ rfl
    rw [hflow flow rfl]
    exact hf m houtbox hhost

/-- An outcome is still unwound when the line of its failure is noted. -/
theorem atLine {a : Action σ Flow} {m : Machine σ} (h : IsUnwound v left (a.apply m)) (line : ℕ) :
    IsUnwound v left ((a.atLine line).apply m) := by
  rw [Action.atLine, Action.apply_ofFun]
  rcases ha : a.apply m with _ | ⟨failure | flow, m'⟩
  · rw [ha] at h
    exact h
  · rintro r m'' hr
    obtain ⟨rfl, rfl⟩ := Prod.mk.inj (Option.some.inj hr)
    exact ⟨(h _ _ ha).1, fun flow hflow => by cases hflow⟩
  · rw [ha] at h
    exact h

end IsUnwound

/-- A new store sends nothing and does not call the host. -/
theorem outbox_host_of_updateStore {f : Store → Eval Store} {m m' : Machine σ}
    {r : Except Failure Unit} (h : (Action.updateStore f).apply m = some (r, m')) :
    m'.outbox = m.outbox ∧ m'.host = m.host := by
  rw [Action.apply_updateStore] at h
  split at h
  · cases h
  · cases h
    exact ⟨rfl, rfl⟩
  · cases h
    exact ⟨rfl, rfl⟩

/-- A return binding sends nothing and does not call the host. -/
theorem outbox_host_of_bindTarget {effort : ℕ} {frame : FrameId} {s : Statement} {flow : Flow}
    {m m' : Machine σ} {r : Except Failure Unit}
    (h : (Interpreter.bindTarget effort frame s flow).apply m = some (r, m')) :
    m'.outbox = m.outbox ∧ m'.host = m.host := by
  unfold Interpreter.bindTarget at h
  split at h
  · cases h
    exact ⟨rfl, rfl⟩
  · split at h
    · cases h
      exact ⟨rfl, rfl⟩
    · exact outbox_host_of_updateStore h

/-- A statement that leaves still binds its value. -/
theorem IsUnwound.bindTarget {v : Option Value} {left m : Machine σ}
    (houtbox : m.outbox = left.outbox) (hhost : m.host = left.host) (effort : ℕ) (frame : FrameId)
    (s : Statement) :
    IsUnwound v left (Action.continueWith (fun _ m => some (.ok (.leave v), m))
      ((Interpreter.bindTarget effort frame s (.leave v)).apply m)) := by
  intro r m' hr
  rcases hbind : (Interpreter.bindTarget effort frame s (.leave v)).apply m
    with _ | ⟨failure | _, m₁⟩
  · simp [hbind] at hr
  · obtain ⟨rfl, rfl⟩ : .error failure = r ∧ m₁ = m' := by simpa [hbind] using hr
    obtain ⟨houtbox', hhost'⟩ := outbox_host_of_bindTarget hbind
    exact ⟨⟨houtbox'.trans houtbox, hhost'.trans hhost⟩, by simp⟩
  · obtain ⟨rfl, rfl⟩ : .ok (.leave v) = r ∧ m₁ = m' := by simpa [hbind] using hr
    obtain ⟨houtbox', hhost'⟩ := outbox_host_of_bindTarget hbind
    exact ⟨⟨houtbox'.trans houtbox, hhost'.trans hhost⟩, by simp⟩

/-- The outcome of a statement is that of what it says, with its value bound and with its line noted
on a failure. -/
theorem apply_runStatement {i : Interpreter σ} {runner : Runner σ} {frame : FrameId} {s : Statement}
    {reached announced : Machine σ}
    (hannounce : (i.hooks.announce s).apply reached = some (.ok (), announced)) :
    (i.runStatement runner frame s).apply reached =
      Action.continueWith (fun flow m =>
        Action.continueWith (fun _ m => some (.ok flow, m))
          ((Interpreter.bindTarget runner.effort frame s flow).apply m))
        ((i.dispatch runner frame s).apply announced) := by
  simp only [Interpreter.runStatement, Action.apply_bind, hannounce, Action.continueWith_ok,
    Action.apply_pure]

namespace Encloses

variable {i : Interpreter σ} {outer inner : BlockRun σ} {s : Statement} {v : Option Value}

/-- What a block that leaves does to the block around it. -/
theorem isUnwound (h : Encloses i outer s inner) {left : Machine σ}
    (hinner : IsUnwound v left (inner.outcome i false)) :
    IsUnwound v left (outer.outcome i false) := by
  cases h with
  | @intro effort frame start reached announced before after last s c arguments call hdepth hbefore
      hannounce hcommand harguments hcall hforwards hlive =>
    have hcalled : IsUnwound v left call.outcome := by
      rw [Call.outcome_eq hcall hlive]
      exact hinner.map fun _ => ⟨rfl, rfl⟩
    have hdispatch : (i.dispatch (i.runner effort) frame s).apply announced = call.outcome := by
      refine apply_dispatch_of_call hcommand harguments hcall hforwards ?_
      intro w m houtcome
      cases (hcalled _ _ houtcome).2 _ rfl
    have hstatement :
        IsUnwound v left ((i.runStatement (i.runner effort) frame s).apply reached) := by
      rw [apply_runStatement hannounce, hdispatch]
      exact hcalled.continueWith fun m houtbox hhost => IsUnwound.bindTarget houtbox hhost _ _ _
    rw [BlockRun.outcome, Interpreter.apply_runBlock hdepth, apply_runStatements_append hbefore]
    refine IsUnwound.map ?_ fun _ => ⟨rfl, rfl⟩
    rw [runStatements, Action.apply_bind]
    refine (hstatement.atLine s.pos.line).continueWith fun m houtbox hhost => ?_
    rintro r m' hr
    obtain ⟨rfl, rfl⟩ := Prod.mk.inj (Option.some.inj hr)
    exact ⟨⟨houtbox, hhost⟩, fun flow hflow => (Except.ok.inj hflow).symm⟩

/-- Where no value is bound, the block around a block that leaves ends on the same machine, but for
the frame and the depth of the inner block. -/
theorem outcome_of_leave (h : Encloses i outer s inner) (htarget : s.target = none)
    {left : Machine σ} (hinner : inner.outcome i false = some (.ok (.leave v), left)) :
    outer.outcome i false = some (.ok (.leave v), (left.dropFrame inner.frame).rise) := by
  cases h with
  | @intro effort frame start reached announced before after last s c arguments call hdepth hbefore
      hannounce hcommand harguments hcall hforwards hlive =>
    have hcalled : call.outcome =
        some (.ok (.leave v), left.dropFrame (call.blockRun effort).frame) := by
      rw [Call.outcome_eq hcall hlive, hinner]
      rfl
    have hdispatch : (i.dispatch (i.runner effort) frame s).apply announced = call.outcome :=
      apply_dispatch_of_call hcommand harguments hcall hforwards (by simp [hcalled])
    have hstatement : (i.runStatement (i.runner effort) frame s).apply reached =
        some (.ok (.leave v), left.dropFrame (call.blockRun effort).frame) := by
      simp [apply_runStatement hannounce, hdispatch, hcalled, Interpreter.bindTarget, htarget]
    rw [BlockRun.outcome, Interpreter.apply_runBlock hdepth, apply_runStatements_append hbefore,
      runStatements, Action.apply_bind, Action.atLine, Action.apply_ofFun, hstatement]
    rfl

end Encloses

/-- A way from a block to one inside it, over statements and the frames of the blocks that they
run. -/
inductive Nesting (i : Interpreter σ) : BlockRun σ → List (Statement × FrameId) → BlockRun σ → Prop
  | nil (b : BlockRun σ) : Nesting i b [] b
  | cons {outer middle inner : BlockRun σ} {s : Statement} {steps : List (Statement × FrameId)}
      (hstep : Encloses i outer s middle) (hrest : Nesting i middle steps inner) :
      Nesting i outer ((s, middle.frame) :: steps) inner

namespace Nesting

variable {i : Interpreter σ} {outer inner : BlockRun σ} {steps : List (Statement × FrameId)}
  {v : Option Value} {left : Machine σ}

/-- A block that leaves unwinds all blocks around it, however deep it lies in them. -/
theorem isUnwound (h : Nesting i outer steps inner)
    (hinner : inner.outcome i false = some (.ok (.leave v), left)) :
    IsUnwound v left (outer.outcome i false) := by
  induction h with
  | nil b =>
    rw [hinner]
    rintro r m hr
    obtain ⟨rfl, rfl⟩ := Prod.mk.inj (Option.some.inj hr)
    exact ⟨⟨rfl, rfl⟩, fun flow hflow => (Except.ok.inj hflow).symm⟩
  | cons hstep hrest ih => exact hstep.isUnwound (ih hinner)

/-- If no statement on the way has a target, then all blocks around a block that leaves do leave
with its value. -/
theorem outcome_of_leave (h : Nesting i outer steps inner)
    (htargets : ∀ step ∈ steps, step.1.target = none)
    (hinner : inner.outcome i false = some (.ok (.leave v), left)) :
    outer.outcome i false = some (.ok (.leave v),
      steps.foldr (fun step m => (m.dropFrame step.2).rise) left) := by
  induction h with
  | nil b => exact hinner
  | cons hstep hrest ih =>
    have hrest' := ih (fun step hstep => htargets step (List.mem_cons_of_mem _ hstep)) hinner
    exact hstep.outcome_of_leave (htargets _ List.mem_cons_self) hrest'

end Nesting

/-- **Only the body of a procedure ends what leaves it.** A control command runs the blocks of its
script. A block of it that leaves is the last one that it runs, and the command leaves on the
machine that this block has left, if and only if the block is not a condition of an `if`. All blocks
around such a block, up to the body of a procedure or the program, leave with the same value: no
message is sent and the host is not called on the way, and only a return binding can fail there.
Without return bindings, nothing but the frames and the depth of the inner blocks is taken back. The
body of a procedure then goes on with the value. -/
theorem leave_ends_enclosing_blocks (i : Interpreter σ) :
    (∀ (c : Control) (runner : Runner σ) (frame : FrameId) (arguments : List Actual),
      (c.command.handler : Handler σ).run runner frame arguments =
        (c.script runner.effort runner.settings frame arguments).run runner.invoke ∧
      ∀ (m left : Machine σ) (before after : List (Call σ)) (call : Call σ) (v : Option Value),
        (c.script runner.effort runner.settings frame arguments).calls runner.invoke m =
          before ++ call :: after →
        call.outcome = some (.ok (.leave v), left) →
          ((after = [] ∧ ((c.command.handler : Handler σ).run runner frame arguments).apply m =
            some (.ok (.leave v), left)) ↔ ¬(c = .ifElse ∧ call.role = .condition))) ∧
    ∀ (outer inner : BlockRun σ) (steps : List (Statement × FrameId)) (v : Option Value)
      (left : Machine σ), Nesting i outer steps inner →
      inner.outcome i false = some (.ok (.leave v), left) →
        (∀ r m, outer.outcome i false = some (r, m) →
          (m.outbox = left.outbox ∧ m.host = left.host) ∧ ∀ flow, r = .ok flow → flow = .leave v) ∧
        ((∀ step ∈ steps, step.1.target = none) →
          outer.outcome i false = some (.ok (.leave v),
            steps.foldr (fun step m => (m.dropFrame step.2).rise) left)) ∧
        outer.outcome i true =
          (outer.outcome i false).map (Prod.map (Except.map Flow.absorb) id) := by
  refine ⟨fun c runner frame arguments => ⟨c.handler_run runner frame arguments, ?_⟩, ?_⟩
  · intro m left before after call v hcalls houtcome
    exact c.leave_iff_forwards hcalls houtcome
  · intro outer inner steps v left hnesting hinner
    refine ⟨hnesting.isUnwound hinner, ?_, ?_⟩
    · exact fun htargets => hnesting.outcome_of_leave htargets hinner
    · exact Interpreter.apply_runBlock_procedure outer.effort outer.body outer.frame outer.start

/-- A `return` in the condition of a `while` ends the block around this `while`. -/
theorem leave_ends_enclosing_blocks_while :
    ∃ (outer inner : BlockRun Unit) (left : Machine Unit),
      outer.body = [⟨"while", [.block ⟨0, ⟨1, 7⟩⟩ [⟨"return", [], none, ⟨1, 9⟩⟩],
        .block ⟨0, ⟨1, 18⟩⟩ []], none, .start⟩] ∧
      inner.outcome { registry := .standard } false = some (.ok (.leave none), left) ∧
      outer.outcome { registry := .standard } false =
        some (.ok (.leave none), (left.dropFrame inner.frame).rise) := by
  let i : Interpreter Unit := { registry := .standard }
  let m : Machine Unit :=
    { store := ({} : Store).push none none, outbox := { capacity := 64 }, host := () }
  let s : Statement := ⟨"while", [.block ⟨0, ⟨1, 7⟩⟩ [⟨"return", [], none, ⟨1, 9⟩⟩],
    .block ⟨0, ⟨1, 18⟩⟩ []], none, .start⟩
  let condition : Code :=
    { block := ⟨0, ⟨1, 7⟩⟩, body := [⟨"return", [], none, ⟨1, 9⟩⟩], frame := 0 }
  let call : Call Unit := {
    role := .condition
    code := condition
    bindings := none
    start := { m with depth := 1 }
    outcome := ((i.runner 3).invoke condition none false).apply { m with depth := 1 } }
  have hcalls : (Control.script .whileTrue 3 i.settings 0 [.value (.code condition),
      .value (.code { block := ⟨0, ⟨1, 18⟩⟩, body := [], frame := 0 })]).calls (i.runner 3).invoke
        { m with depth := 1 } = [call] := by
    change (whileScript condition _ 3).calls _ _ = _
    rw [whileScript, Script.calls]
    rfl
  have hcall := hcalls ▸ List.mem_singleton_self call
  have hstep : Encloses i ⟨4, [] ++ s :: [], 0, m⟩ s (call.blockRun 3) :=
    .intro (by decide) rfl rfl rfl rfl hcall (by decide) rfl
  have hinner : (call.blockRun 3).outcome i false = some (.ok (.leave none), _) := rfl
  exact ⟨⟨4, [s], 0, m⟩, call.blockRun 3, _, rfl, hinner,
    ((leave_ends_enclosing_blocks i).2 _ _ _ _ _ (.cons hstep (.nil _)) hinner).2.1 (by simp [s])⟩

/-- An `if` whose condition is a block with a `return` does not leave. -/
theorem if_condition_does_not_leave :
    ∃ (runner : Runner Unit) (condition body : Code) (m left : Machine Unit) (call : Call Unit),
      condition.body = [⟨"return", [], none, .start⟩] ∧
      (Control.script .ifElse runner.effort runner.settings 0
        [.value (.code condition), .value (.code body)]).calls runner.invoke m = [call] ∧
      call.outcome = some (.ok (.leave none), left) ∧
      ((Control.ifElse.command.handler : Handler Unit).run runner 0
        [.value (.code condition), .value (.code body)]).apply m =
          some (.ok (.next none), left) := by
  let i : Interpreter Unit := { registry := .standard }
  let m : Machine Unit :=
    { store := ({} : Store).push none none, outbox := { capacity := 64 }, host := () }
  let condition : Code :=
    { block := ⟨0, ⟨1, 4⟩⟩, body := [⟨"return", [], none, .start⟩], frame := 0 }
  let body : Code := { block := ⟨0, ⟨1, 15⟩⟩, body := [], frame := 0 }
  refine ⟨i.runner 3, condition, body, m, _, ⟨.condition, condition, none, m,
    ((i.runner 3).invoke condition none false).apply m⟩, rfl, ?_, rfl, rfl⟩
  change (Branch.script 3 0 [⟨some (.value (.code condition)), body⟩]).calls _ _ = _
  rw [Branch.script]
  dsimp only
  rw [Script.calls]
  rfl

end Logo
