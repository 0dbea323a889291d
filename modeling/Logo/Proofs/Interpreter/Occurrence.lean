import Logo.Proofs.Interpreter.Effect
import Logo.Proofs.Interpreter.Leave

/-!
# The statements of a run

The run of a block consists of the runs of statements: those of the block itself, one after the
other, and those of the blocks that these statements run in their turn. A statement runs a block as
a part of a control command or by calling a procedure.
-/

namespace Logo

variable {σ : Type}

/-- A statement about to run in a frame, with its hook still to come. -/
structure StatementRun (σ : Type) where
  effort : ℕ
  frame : FrameId
  statement : Statement
  start : Machine σ

/-- How a statement ends. -/
def StatementRun.outcome (i : Interpreter σ) (r : StatementRun σ) :
    Option (Except Failure Flow × Machine σ) :=
  (i.runStatement (i.runner r.effort) r.frame r.statement).apply r.start

/-- A block about to run in a new frame, with the bindings of this frame. -/
structure Invocation (σ : Type) where
  code : Code
  bindings : Option Bindings
  procedure : Bool
  start : Machine σ

/-- The block of an invocation, in its new frame. -/
def Invocation.blockRun (v : Invocation σ) (effort : ℕ) : BlockRun σ where
  effort
  body := v.code.body
  frame := v.start.store.next
  start := { v.start with store := v.start.store.push (some v.code.frame) v.bindings }

/-- A block that a control command runs is not the body of a procedure. -/
def Call.invocation (call : Call σ) : Invocation σ where
  code := call.code
  bindings := call.bindings
  procedure := false
  start := call.start

/-- Whether a statement of a block is run: those before it have come to their end. -/
inductive BlockRun.Starts (i : Interpreter σ) : BlockRun σ → StatementRun σ → Prop
  | intro {effort : ℕ} {frame : FrameId} {start reached : Machine σ} {before after : List Statement}
      {last : Option Value} {s : Statement} (hdepth : start.depth < i.settings.maxDepth)
      (hbefore : (runStatements (i.runStatement (i.runner effort) frame) none before).apply
        { start with depth := start.depth + 1 } = some (.ok (.next last), reached)) :
      Starts i ⟨effort + 1, before ++ s :: after, frame, start⟩ ⟨effort, frame, s, reached⟩

/-- Whether a statement runs a block, or fails to because the frame of the block is not in use. -/
inductive StatementRun.Invokes (i : Interpreter σ) : StatementRun σ → Invocation σ → Prop
  /-- A control command runs the blocks of its script. -/
  | control {effort : ℕ} {frame : FrameId} {s : Statement} {start announced : Machine σ}
      {c : Control} {arguments : List Actual} {call : Call σ}
      (hannounce : (i.hooks.announce s).apply start = some (.ok (), announced))
      (hcommand : i.registry.find? s.label = some c.command)
      (harguments : validate effort announced.store frame s.label
        (c.command : Command σ).signature s.arguments = pure arguments)
      (hcall : call ∈ (c.script effort i.settings frame arguments).calls (i.runner effort).invoke
        announced) :
      Invokes i ⟨effort, frame, s, start⟩ call.invocation
  /-- A procedure is called with the arguments of the statement. -/
  | procedure {effort : ℕ} {frame : FrameId} {s : Statement} {start announced : Machine σ}
      {code : Code} {arguments : List Actual}
      (hannounce : (i.hooks.announce s).apply start = some (.ok (), announced))
      (hcommand : i.registry.find? s.label = none)
      (hprocedure : announced.store.procedure? frame s.label = some code)
      (harguments : validate effort announced.store frame s.label (.exactly code.arity .value)
        s.arguments = pure arguments) :
      Invokes i ⟨effort, frame, s, start⟩
        ⟨code, some (bindParams code.params arguments), true, announced⟩

/-- Whether a statement is run in the run of a block, at any depth. -/
inductive BlockRun.Contains (i : Interpreter σ) : BlockRun σ → StatementRun σ → Prop
  | direct {b : BlockRun σ} {r : StatementRun σ} (hstarts : b.Starts i r) : Contains i b r
  | nested {b : BlockRun σ} {r inner : StatementRun σ} {v : Invocation σ} (hstarts : b.Starts i r)
      (hinvokes : r.Invokes i v) (hlive : v.start.store.isLive v.code.frame = true)
      (hinner : Contains i (v.blockRun r.effort) inner) : Contains i b inner

/-- A statement of a block runs in the frame of the block. -/
theorem BlockRun.Starts.frame_eq {i : Interpreter σ} {b : BlockRun σ} {r : StatementRun σ}
    (h : b.Starts i r) : r.frame = b.frame := by
  cases h
  rfl

/-- A statement that a block runs is one of its body. -/
theorem BlockRun.Starts.mem_body {i : Interpreter σ} {b : BlockRun σ} {r : StatementRun σ}
    (h : b.Starts i r) : r.statement ∈ b.body := by
  cases h
  simp

/-- The only statement of a block starts one level deeper than the block. -/
theorem BlockRun.Starts.eq_of_singleton {i : Interpreter σ} {effort : ℕ} {s : Statement}
    {frame : FrameId} {start : Machine σ} {r : StatementRun σ}
    (h : Starts i ⟨effort + 1, [s], frame, start⟩ r) :
    r = ⟨effort, frame, s, { start with depth := start.depth + 1 }⟩ := by
  generalize hbody : [s] = body at h
  cases h with
  | @intro _ _ _ reached before after _ t _ hbefore =>
    cases before with
    | nil =>
      obtain ⟨rfl, _⟩ := List.cons.inj hbody
      obtain ⟨_, rfl⟩ := Prod.mk.inj (Option.some.inj hbefore)
      rfl
    | cons => simp at hbody

/-- A statement has less effort than its block. -/
theorem BlockRun.Starts.effort_lt {i : Interpreter σ} {b : BlockRun σ} {r : StatementRun σ}
    (h : b.Starts i r) : r.effort < b.effort := by
  cases h
  exact Nat.lt_succ_self _

/-! ## Statements that change something -/

/-- If a list of statements brings a condition about, one of the statements does. -/
theorem exists_step_of_runStatements {P : Machine σ → Prop} {step : Statement → Action σ Flow}
    {last : Option Value} {body : List Statement} {m m' : Machine σ} {r : Except Failure Flow}
    (h : (runStatements step last body).apply m = some (r, m')) (hm : ¬P m) (hm' : P m') :
    ∃ before s after v reached r' m'', body = before ++ s :: after ∧
      (runStatements step last before).apply m = some (.ok (.next v), reached) ∧ ¬P reached ∧
      (step s).apply reached = some (r', m'') ∧ P m'' := by
  induction body generalizing last m with
  | nil =>
    obtain ⟨_, rfl⟩ : .ok (.next last) = r ∧ m = m' := by simpa [runStatements] using h
    exact absurd hm' hm
  | cons s rest ih =>
    rw [runStatements, Action.apply_bind, Action.atLine, Action.apply_ofFun] at h
    rcases hs : (step s).apply m with _ | ⟨r₁, m₁⟩
    · rw [hs] at h
      cases h
    · by_cases hm₁ : P m₁
      · exact ⟨[], s, rest, last, m, r₁, m₁, rfl, rfl, hm, hs, hm₁⟩
      · rw [hs] at h
        rcases r₁ with failure | v | v
        · cases h
          exact absurd hm' hm₁
        · obtain ⟨before, t, after, w, reached, r', m'', rfl, hbefore, hreached, hstep, hm''⟩ :=
            ih h hm₁
          refine ⟨s :: before, t, after, w, reached, r', m'', rfl, ?_, hreached, hstep, hm''⟩
          rw [runStatements, Action.apply_bind, Action.atLine, Action.apply_ofFun, hs]
          exact hbefore
        · cases h
          exact absurd hm' hm₁

/-- If a block brings a condition on the store about, one of its own statements does. -/
theorem BlockRun.exists_starts {i : Interpreter σ} {b : BlockRun σ} {P : Store → Prop}
    {m' : Machine σ} {r : Except Failure Flow} (h : b.outcome i false = some (r, m'))
    (hstart : ¬P b.start.store) (hend : P m'.store) :
    ∃ st r' m'', b.Starts i st ∧ ¬P st.start.store ∧ st.outcome i = some (r', m'') ∧ P m''.store := by
  obtain ⟨_ | effort, body, frame, start⟩ := b
  · cases h
  · by_cases hdepth : start.depth < i.settings.maxDepth
    · rw [outcome, Interpreter.apply_runBlock hdepth] at h
      obtain ⟨⟨r₁, m₁⟩, hrun, heq⟩ := Option.map_eq_some_iff.mp h
      obtain ⟨rfl, rfl⟩ := Prod.mk.inj heq
      obtain ⟨before, s, after, v, reached, r', m'', rfl, hbefore, hreached, hstep, hm''⟩ :=
        exists_step_of_runStatements (P := fun m => P m.store) hrun hstart hend
      exact ⟨⟨effort, frame, s, reached⟩, r', m'', .intro hdepth hbefore, hreached, hstep, hm''⟩
    · rw [outcome, Interpreter.runBlock_succ, Action.apply_bind, Action.nested, Action.apply_ofFun,
        if_pos (Nat.not_lt.mp hdepth)] at h
      cases h
      exact absurd hend hstart

/-! ## The block of a session -/

/-- The block that a session runs, once the start hook was called. -/
def Interpreter.sessionBlock (i : Interpreter σ) (effort : ℕ) (program : List Statement)
    (frame : FrameId) (m : Machine σ) : BlockRun σ :=
  let outbox := { m.outbox with pending := [], capacity := i.settings.queueCapacity }
  { effort, body := program, frame
    start := { m with outbox, host := (i.hooks.start outbox m.host).2, depth := 0 } }

/-- What a session does after its block: the messages that wait are published, and the host is told
of a failure and of the end. -/
def Interpreter.conclude (i : Interpreter σ) :
    Except Failure Flow × Machine σ → Except Failure Unit × Machine σ
  | (.error f, m) =>
    let host := i.hooks.afterError f m.outbox.flush m.host
    (.error f, { m with outbox := m.outbox.flush, host := (i.hooks.finish m.outbox.flush host).2 })
  | (.ok _, m) =>
    let (finished, host) := i.hooks.finish m.outbox.flush m.host
    (finished, { m with outbox := m.outbox.flush, host })

/-- How the block of a session ends. It is not run if the start hook fails. -/
def Interpreter.sessionOutcome (i : Interpreter σ) (effort : ℕ) (program : List Statement)
    (frame : FrameId) (m : Machine σ) : Option (Except Failure Flow × Machine σ) :=
  match (i.hooks.start { m.outbox with pending := [], capacity := i.settings.queueCapacity }
      m.host).1 with
  | .error f => some (.error f, (i.sessionBlock effort program frame m).start)
  | .ok () => (i.sessionBlock effort program frame m).outcome i false

/-- A session runs its block and concludes. -/
theorem Interpreter.runSession_eq (i : Interpreter σ) (effort : ℕ) (program : List Statement)
    (frame : FrameId) (m : Machine σ) :
    i.runSession effort program frame m =
      (i.sessionOutcome effort program frame m).map i.conclude := by
  rw [runSession, sessionOutcome]
  dsimp only
  cases (i.hooks.start { m.outbox with pending := [], capacity := i.settings.queueCapacity }
      m.host).1 with
  | error f => rfl
  | ok _ =>
    simp only [BlockRun.outcome, sessionBlock]
    rcases (i.runBlock effort program frame false).apply _ with _ | ⟨_ | flow, m'⟩
    · rfl
    · rfl
    · rfl

/-- The end of a session leaves the store as its block has left it. -/
theorem Interpreter.store_conclude (i : Interpreter σ) (r : Except Failure Flow) (m : Machine σ) :
    (i.conclude (r, m)).2.store = m.store := by
  cases r with
  | error f => rfl
  | ok flow => rfl

/-- The end of a session publishes the messages that wait. -/
theorem Interpreter.outbox_conclude (i : Interpreter σ) (r : Except Failure Flow) (m : Machine σ) :
    (i.conclude (r, m)).2.outbox = m.outbox.flush := by
  cases r with
  | error f => rfl
  | ok flow => rfl

/-- A session leaves the store that its block leaves, or the store that it was given if the start
hook fails. -/
theorem Interpreter.store_of_runSession {i : Interpreter σ} {effort : ℕ} {program : List Statement}
    {frame : FrameId} {m m' : Machine σ} {r : Except Failure Unit}
    (h : i.runSession effort program frame m = some (r, m')) :
    m'.store = m.store ∨ ∃ r₁ m₁, (i.sessionBlock effort program frame m).outcome i false =
      some (r₁, m₁) ∧ m'.store = m₁.store := by
  rw [runSession_eq] at h
  obtain ⟨⟨r₁, m₁⟩, hran, hconclude⟩ := Option.map_eq_some_iff.mp h
  have hstore : m'.store = m₁.store := by rw [← i.store_conclude r₁ m₁, hconclude]
  rw [sessionOutcome] at hran
  split at hran
  · cases hran
    exact .inl hstore
  · exact .inr ⟨r₁, m₁, hran, hstore⟩

end Logo
