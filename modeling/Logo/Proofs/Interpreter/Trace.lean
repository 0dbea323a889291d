import Logo.Proofs.Interpreter.Dispatch

/-!
# The statements of a run in order

The trace of a block lists the statements that are run, in the order in which they start: a
statement of the block stands before those of the blocks that it runs, and these before the next
statement of the block. The members of a trace are the statements that the run contains.
-/

namespace Logo

variable {σ α β γ : Type}

namespace Action

/-- What a list goes on with after an action, if the action does not fail. -/
def followed (a : Action σ α) (rest : α → Machine σ → List β) (m : Machine σ) : List β :=
  match a.apply m with
  | some (.ok x, m) => rest x m
  | some (.error _, _) => []
  | none => []

variable {a : Action σ α} {rest : α → Machine σ → List β} {m m' : Machine σ}

/-- After a success, the list goes on with its value and its machine. -/
theorem followed_of_ok {x : α} (h : a.apply m = some (.ok x, m')) :
    a.followed rest m = rest x m' := by
  rw [followed, h]

/-- After a failure, the list ends. -/
theorem followed_of_error {f : Failure} (h : a.apply m = some (.error f, m')) :
    a.followed rest m = [] := by
  rw [followed, h]

/-- After an action that comes to no end, the list ends. -/
theorem followed_of_none (h : a.apply m = none) : a.followed rest m = [] := by
  rw [followed, h]

/-- What the list goes on with comes after a success. -/
theorem mem_followed {b : β} :
    b ∈ a.followed rest m ↔ ∃ x m', a.apply m = some (.ok x, m') ∧ b ∈ rest x m' := by
  rcases h : a.apply m with _ | ⟨f | x, m'⟩
  · simp [followed_of_none h]
  · simp [followed_of_error h]
  · simp [followed_of_ok h]

/-- What the list goes on with after an evaluation comes after its value. -/
theorem mem_followed_ofEval {e : Eval α} {b : β} :
    b ∈ (ofEval e).followed rest m ↔ ∃ x, e = pure x ∧ b ∈ rest x m := by
  rw [mem_followed]
  constructor
  · rintro ⟨x, m', he, hb⟩
    obtain ⟨rfl, rfl⟩ := of_apply_ofEval he
    exact ⟨x, rfl, hb⟩
  · rintro ⟨x, rfl, hb⟩
    exact ⟨x, m, rfl, hb⟩

/-- A list that goes on with nothing is empty. -/
@[simp] theorem followed_nil : a.followed (fun _ _ => ([] : List β)) m = [] := by
  rcases h : a.apply m with _ | ⟨f | x, m'⟩
  · rw [followed_of_none h]
  · rw [followed_of_error h]
  · rw [followed_of_ok h]

/-- Mapping over what a list goes on with can be done behind the action. -/
theorem flatMap_followed (f : β → List γ) :
    (a.followed rest m).flatMap f = a.followed (fun x m => (rest x m).flatMap f) m := by
  rcases h : a.apply m with _ | ⟨_ | x, m'⟩
  · rw [followed_of_none h, followed_of_none h, List.flatMap_nil]
  · rw [followed_of_error h, followed_of_error h, List.flatMap_nil]
  · rw [followed_of_ok h, followed_of_ok h]

end Action

open Logo.Action

/-! ## Blocks that a statement runs -/

namespace Script

variable {invoke : Code → Option Bindings → Bool → Action σ Flow}

/-- A script that asks a question runs the blocks that come after the answer. -/
theorem calls_ask (question : Question) (next : Value → Script) (m : Machine σ) :
    (ask question next).calls invoke m =
      (ofEval (question.answer m.store)).followed (fun v m => (next v).calls invoke m) m := by
  rcases (question.answer m.store).cases_outcome with h | ⟨fault, h⟩ | ⟨v, h⟩
  · simp only [calls, h]
    rfl
  · simp only [calls, h]
    rfl
  · simp only [calls, h]
    rfl

/-- A script that runs a block runs this block first, and then those that come after it. -/
theorem calls_block (role : Role) (code : Code) (bindings : Option Bindings) (next : Flow → Script)
    (m : Machine σ) : (block role code bindings next).calls invoke m =
      ⟨role, code, bindings, m, (invoke code bindings false).apply m⟩ ::
        (invoke code bindings false).followed (fun flow m => (next flow).calls invoke m) m := by
  simp only [calls, followed]
  rcases (invoke code bindings false).apply m with _ | ⟨_ | flow, m'⟩
  · rfl
  · rfl
  · rfl

end Script

namespace Control

/-- Which control command a command of the language is. -/
def ofCommand? (command : Command σ) : Option Control :=
  if command.handler.isControl then
    [ifElse, whileTrue, repeatTimes, eachItem].find? fun c =>
      (c.command : Command σ).name = command.name
  else none

/-- A control command is recognised as the one that it is. -/
@[simp] theorem ofCommand?_command (c : Control) : ofCommand? (c.command : Command σ) = some c := by
  cases c with
  | ifElse | whileTrue | repeatTimes | eachItem => rfl

/-- A simple command is no control command. -/
theorem ofCommand?_of_does {command : Command σ} {effect : List Actual → Effect}
    (h : command.Does effect) : ofCommand? command = none := by
  rw [ofCommand?, h.handler_eq]
  rfl

end Control

/-- The blocks that a statement runs once its hook was called, in order, with those that it fails to
run because their frame is not in use. -/
def Interpreter.invocations (i : Interpreter σ) (effort : ℕ) (frame : FrameId) (s : Statement)
    (m : Machine σ) : List (Invocation σ) :=
  match i.registry.find? s.label with
  | some command =>
    match Control.ofCommand? command with
    | some c =>
      (ofEval (validate effort m.store frame s.label command.signature s.arguments)).followed
        (fun arguments m => ((c.script effort i.settings frame arguments).calls
          (i.runner effort).invoke m).map Call.invocation) m
    | none => []
  | none =>
    match m.store.procedure? frame s.label with
    | some code =>
      (ofEval (validate effort m.store frame s.label (.exactly code.arity .value)
        s.arguments)).followed
          (fun arguments m => [⟨code, some (bindParams code.params arguments), true, m⟩]) m
    | none => []

/-! ## Traces -/

/-- The statements that are run by statements in order, given those of each of them. -/
def traceStatements (step : Statement → Action σ Flow)
    (trace : Statement → Machine σ → List (StatementRun σ)) :
    List Statement → Machine σ → List (StatementRun σ)
  | [], _ => []
  | s :: rest, m => trace s m ++ ((step s).atLine s.pos.line).followed
      (fun flow m => if flow.isLeave then [] else traceStatements step trace rest m) m

/-- The statements that are run by an invocation, given those of blocks. -/
def Invocation.trace (blocks : List Statement → FrameId → Machine σ → List (StatementRun σ))
    (v : Invocation σ) : List (StatementRun σ) :=
  if v.start.store.isLive v.code.frame then
    blocks v.code.body v.start.store.next
      { v.start with store := v.start.store.push (some v.code.frame) v.bindings }
  else []

/-- A statement and those of the blocks that it runs, given those of blocks. -/
def StatementRun.trace (i : Interpreter σ)
    (blocks : List Statement → FrameId → Machine σ → List (StatementRun σ)) (st : StatementRun σ) :
    List (StatementRun σ) :=
  st :: (i.hooks.announce st.statement).followed (fun _ m =>
    (i.invocations st.effort st.frame st.statement m).flatMap (Invocation.trace blocks)) st.start

/-- The statements that a block runs, in the order in which they start. -/
def Interpreter.trace (i : Interpreter σ) :
    (effort : ℕ) → List Statement → FrameId → Machine σ → List (StatementRun σ)
  | 0, _, _, _ => []
  | effort + 1, body, frame, m =>
    if i.settings.maxDepth ≤ m.depth then []
    else
      traceStatements (i.runStatement (i.runner effort) frame)
        (fun s m => StatementRun.trace i (i.trace effort) ⟨effort, frame, s, m⟩) body
        { m with depth := m.depth + 1 }

/-- The statements that a session runs, in the order in which they start. -/
def Interpreter.sessionTrace (i : Interpreter σ) (effort : ℕ) (program : List Statement)
    (frame : FrameId) (m : Machine σ) : List (StatementRun σ) :=
  match (i.hooks.start { m.outbox with pending := [], capacity := i.settings.queueCapacity }
      m.host).1 with
  | .error _ => []
  | .ok () => i.trace effort program frame (i.sessionBlock effort program frame m).start

/-! ## Traces and the statements that a run contains -/

/-- A statement is run by statements in order exactly if it is run by one of them, and those before
it have come to their end. -/
theorem mem_traceStatements {step : Statement → Action σ Flow}
    {trace : Statement → Machine σ → List (StatementRun σ)} {body : List Statement}
    {m : Machine σ} {st : StatementRun σ} (last : Option Value) :
    st ∈ traceStatements step trace body m ↔ ∃ before s after v reached,
      body = before ++ s :: after ∧
        (runStatements step last before).apply m = some (.ok (.next v), reached) ∧
        st ∈ trace s reached := by
  induction body generalizing last m with
  | nil => simp [traceStatements]
  | cons s rest ih =>
    rw [traceStatements, List.mem_append, mem_followed]
    constructor
    · rintro (hst | ⟨flow, m', hs, hst⟩)
      · exact ⟨[], s, rest, last, m, rfl, rfl, hst⟩
      · cases flow with
        | leave v => simp [Flow.isLeave] at hst
        | next v =>
          obtain ⟨before, t, after, w, reached, rfl, hbefore, hst⟩ := (ih v).mp hst
          refine ⟨s :: before, t, after, w, reached, rfl, ?_, hst⟩
          rw [runStatements, apply_bind, hs]
          exact hbefore
    · rintro ⟨_ | ⟨t, before⟩, s', after, w, reached, hbody, hbefore, hst⟩
      · obtain ⟨rfl, rfl⟩ := List.cons.inj hbody
        obtain ⟨_, rfl⟩ := Prod.mk.inj (Option.some.inj hbefore)
        exact .inl hst
      · obtain ⟨rfl, rfl⟩ := List.cons.inj hbody
        rw [runStatements, apply_bind] at hbefore
        rcases cases_of_continueWith hbefore with ⟨f, _, hfailed⟩ | ⟨flow, m', hs, hrest⟩
        · cases hfailed
        · refine .inr ⟨flow, m', hs, ?_⟩
          cases flow with
          | leave v => cases hrest
          | next v => exact (ih v).mpr ⟨before, s', after, w, reached, rfl, hrest, hst⟩

variable {i : Interpreter σ}

/-- The blocks of a statement are those that it runs or fails to run. -/
theorem mem_invocations_iff (hregistry : i.registry = .standard) {st : StatementRun σ}
    {v : Invocation σ} :
    v ∈ (i.hooks.announce st.statement).followed
        (fun _ m => i.invocations st.effort st.frame st.statement m) st.start ↔ st.Invokes i v := by
  obtain ⟨effort, frame, s, start⟩ := st
  rw [mem_followed]
  constructor
  · rintro ⟨_, announced, hannounce, hv⟩
    simp only [Interpreter.invocations] at hv
    rcases hcommand : i.registry.find? s.label with _ | command
    · simp only [hcommand] at hv
      rcases hprocedure : announced.store.procedure? frame s.label with _ | code
      · simp [hprocedure] at hv
      · simp only [hprocedure] at hv
        obtain ⟨arguments, hvalid, hv⟩ := mem_followed_ofEval.mp hv
        obtain rfl := List.mem_singleton.mp hv
        exact .procedure hannounce hcommand hprocedure hvalid
    · simp only [hcommand] at hv
      obtain ⟨hmem, _⟩ := Registry.mem_of_find?_standard (hregistry ▸ hcommand)
      rcases Command.standard_cases hmem with ⟨c, rfl⟩ | ⟨effect, hdoes⟩
      · simp only [Control.ofCommand?_command] at hv
        obtain ⟨arguments, hvalid, hv⟩ := mem_followed_ofEval.mp hv
        obtain ⟨call, hcall, rfl⟩ := List.mem_map.mp hv
        exact .control hannounce hcommand hvalid hcall
      · simp [Control.ofCommand?_of_does hdoes] at hv
  · intro h
    cases h with
    | control hannounce hcommand hvalid hcall =>
      refine ⟨_, _, hannounce, ?_⟩
      simp only [Interpreter.invocations, hcommand, Control.ofCommand?_command]
      exact mem_followed_ofEval.mpr ⟨_, hvalid, List.mem_map_of_mem hcall⟩
    | procedure hannounce hcommand hprocedure hvalid =>
      refine ⟨_, _, hannounce, ?_⟩
      simp only [Interpreter.invocations, hcommand, hprocedure]
      exact mem_followed_ofEval.mpr ⟨_, hvalid, List.mem_singleton.mpr rfl⟩

section

variable {effort : ℕ} {body : List Statement} {frame : FrameId} {start : Machine σ}

/-- A block that is not too deep runs its statements in order. -/
theorem Interpreter.trace_of_lt (hdepth : start.depth < i.settings.maxDepth) :
    i.trace (effort + 1) body frame start =
      traceStatements (i.runStatement (i.runner effort) frame)
        (fun s m => StatementRun.trace i (i.trace effort) ⟨effort, frame, s, m⟩) body
        { start with depth := start.depth + 1 } :=
  if_neg (Nat.not_le.mpr hdepth)

/-- A block that is too deep runs nothing. -/
theorem Interpreter.trace_of_limit (hlimit : i.settings.maxDepth ≤ start.depth) :
    i.trace (effort + 1) body frame start = [] :=
  if_pos hlimit

/-- The trace of a block has what the traces of its own statements have. -/
theorem mem_trace_succ {st : StatementRun σ} : st ∈ i.trace (effort + 1) body frame start ↔ ∃ r,
    BlockRun.Starts i ⟨effort + 1, body, frame, start⟩ r ∧ st ∈ r.trace i (i.trace effort) := by
  by_cases hdepth : start.depth < i.settings.maxDepth
  · rw [Interpreter.trace_of_lt hdepth, mem_traceStatements none]
    constructor
    · rintro ⟨before, s, after, v, reached, rfl, hbefore, hst⟩
      exact ⟨_, .intro hdepth hbefore, hst⟩
    · rintro ⟨r, hstarts, hst⟩
      cases hstarts with
      | intro _ hbefore => exact ⟨_, _, _, _, _, rfl, hbefore, hst⟩
  · rw [Interpreter.trace_of_limit (Nat.not_lt.mp hdepth)]
    refine ⟨by simp, ?_⟩
    rintro ⟨r, hstarts, _⟩
    cases hstarts with
    | intro hdepth' => exact absurd hdepth' hdepth

/-- The trace of a block has the statements that its run contains. -/
theorem mem_trace_iff (hregistry : i.registry = .standard) {st : StatementRun σ} :
    st ∈ i.trace effort body frame start ↔
      BlockRun.Contains i ⟨effort, body, frame, start⟩ st := by
  induction effort generalizing body frame start with
  | zero =>
    refine ⟨fun h => (List.not_mem_nil h).elim, fun h => ?_⟩
    cases h with
    | direct hstarts | nested hstarts => cases hstarts
  | succ effort ih =>
    have hinvocation (v : Invocation σ) : st ∈ v.trace (i.trace effort) ↔
        v.start.store.isLive v.code.frame = true ∧ (v.blockRun effort).Contains i st := by
      rw [Invocation.trace]
      split
      · next hlive => exact ih.trans (iff_and_self.mpr fun _ => hlive)
      · next hlive => simp [hlive]
    rw [mem_trace_succ]
    simp only [StatementRun.trace, List.mem_cons, ← flatMap_followed, List.mem_flatMap,
      hinvocation, mem_invocations_iff hregistry]
    constructor
    · rintro ⟨r, hstarts, rfl | ⟨v, hinvokes, hlive, hinner⟩⟩
      · exact .direct hstarts
      · cases hstarts with
        | intro hdepth hbefore => exact .nested (.intro hdepth hbefore) hinvokes hlive hinner
    · intro h
      cases h with
      | direct hstarts => exact ⟨st, hstarts, .inl rfl⟩
      | nested hstarts hinvokes hlive hinner =>
        cases hstarts with
        | intro hdepth hbefore =>
          exact ⟨_, .intro hdepth hbefore, .inr ⟨_, hinvokes, hlive, hinner⟩⟩

end

end Logo
