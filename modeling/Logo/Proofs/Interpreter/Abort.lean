import Logo.Host.Recorder
import Logo.Proofs.Interpreter.Cut

/-!
# Aborted sessions

A host may abort a session by a failure of its hook before a statement. The session then runs the
statements that come before this one in the session that is not aborted, and nothing else: no block
or command around it goes on, and no return binding is made. What it has sent by then is published.
-/

namespace Logo

variable {σ α : Type}

/-- Whether hooks differ from others only in that they fail before the statement with the number
`n`, by the count that the host keeps. The other hooks never fail before a statement. Both may send
messages, but take none back. -/
structure Hooks.StopsAt (count : σ → ℕ) (n : ℕ) (hooks stopping : Hooks σ) : Prop where
  start_eq : stopping.start = hooks.start
  afterError_eq : stopping.afterError = hooks.afterError
  finish_eq : stopping.finish = hooks.finish
  succeeds (s : Statement) (outbox : Outbox) (host : σ) :
    (hooks.beforeStatement s outbox host).1 = .ok ()
  counts (s : Statement) (outbox : Outbox) (host : σ) :
    count (hooks.beforeStatement s outbox host).2.2 = count host + 1
  sends (s : Statement) (outbox : Outbox) (host : σ) :
    outbox.sent <+: (hooks.beforeStatement s outbox host).2.1.sent
  same {host : σ} (h : count host ≠ n) (s : Statement) (outbox : Outbox) :
    stopping.beforeStatement s outbox host = hooks.beforeStatement s outbox host
  stops {host : σ} (h : count host = n) (s : Statement) (outbox : Outbox) :
    ∃ f, (stopping.beforeStatement s outbox host).1 = .error f ∧
      outbox.sent <+: (stopping.beforeStatement s outbox host).2.1.sent ∧
      (stopping.beforeStatement s outbox host).2.1.sent <+:
        (hooks.beforeStatement s outbox host).2.1.sent

variable {count : σ → ℕ} {n : ℕ} {stopping : Hooks σ} {i : Interpreter σ} {effort : ℕ}
  {frame : FrameId} {s : Statement} {m : Machine σ}

/-! ## Statements -/

/-- A statement is announced by its hook, which sees and changes the outbox and the host alone. -/
theorem Hooks.apply_announce (hooks : Hooks σ) (s : Statement) (m : Machine σ) :
    (hooks.announce s).apply m = some ((hooks.beforeStatement s m.outbox m.host).1,
      { m with
        outbox := (hooks.beforeStatement s m.outbox m.host).2.1
        host := (hooks.beforeStatement s m.outbox m.host).2.2 }) := rfl

/-- A statement is cut off by its hook, or else where what it does after its hook is. -/
theorem Hooks.StopsAt.cut {hooks : Hooks σ} (hstops : hooks.StopsAt count n stopping)
    (st : StatementRun σ) (hm : st.start.store.Ordered) {a a' : Action σ α}
    {rest rest' : Machine σ → List (StatementRun σ)}
    (h : ∀ m, m.store.Ordered → Cut count n hooks stopping (a.atLine st.statement.pos.line)
      (a'.atLine st.statement.pos.line) (rest m) (rest' m) m) :
    Cut count n hooks stopping
      ((hooks.announce st.statement >>= fun _ => a).atLine st.statement.pos.line)
      ((stopping.announce st.statement >>= fun _ => a').atLine st.statement.pos.line)
      (st :: (hooks.announce st.statement).followed (fun _ m => rest m) st.start)
      (st :: (stopping.announce st.statement).followed (fun _ m => rest' m) st.start) st.start := by
  obtain ⟨announced, hannounce, hstore, hcount, hsent⟩ : ∃ announced,
      (hooks.announce st.statement).apply st.start = some (.ok (), announced) ∧
      announced.store = st.start.store ∧ count announced.host = count st.start.host + 1 ∧
      st.start.outbox.sent <+: announced.outbox.sent := by
    rw [Hooks.apply_announce, hstops.succeeds]
    exact ⟨_, rfl, rfl, hstops.counts .., hstops.sends ..⟩
  have hafter := h announced (hstore.symm ▸ hm)
  have hfollows : st.start.Follows announced := ⟨hstore.symm ▸ hm, fun _ => by rw [hstore], hsent⟩
  have hrun {hooks : Hooks σ} {a : Action σ α}
      (hannounce : (hooks.announce st.statement).apply st.start = some (.ok (), announced)) :
      ((hooks.announce st.statement >>= fun _ => a).atLine st.statement.pos.line).apply st.start =
        (a.atLine st.statement.pos.line).apply announced := by
    rw [Action.apply_atLine, Action.apply_bind, hannounce, Action.continueWith_ok,
      ← Action.apply_atLine]
  have hsame (hne : count st.start.host ≠ n) :
      (stopping.announce st.statement).apply st.start = some (.ok (), announced) := by
    rw [← hannounce, Hooks.apply_announce, Hooks.apply_announce, hstops.same hne]
  rw [Action.followed_of_ok hannounce]
  refine ⟨fun r m' hr => ?_, fun x m' hr => ?_, fun inner hinner => ?_, fun hlength => ?_,
    fun inner hc hinner => ?_⟩
  · rw [hrun hannounce] at hr
    exact hfollows.trans (hafter.ends r m' hr)
  · rw [hrun hannounce] at hr
    rw [hafter.counts x m' hr, hcount, List.length_cons]
    omega
  · rw [hrun hannounce]
    rcases List.mem_cons.mp hinner with rfl | hinner
    · refine ⟨hm, fun announced' hannounce' r m' hr => ?_⟩
      obtain ⟨_, rfl⟩ := Prod.mk.inj (Option.some.inj (hannounce.symm.trans hannounce'))
      exact (hafter.ends r m' hr).sent
    · exact hafter.starts inner hinner
  · rw [List.length_cons] at hlength
    have hannounce' := hsame (by omega)
    obtain ⟨hsame', hrest⟩ := hafter.same (by omega)
    rw [Action.followed_of_ok hannounce', hrun hannounce', hrun hannounce, hrest]
    exact ⟨hsame', rfl⟩
  · by_cases hn : count st.start.host = n
    · obtain ⟨f, hf, _⟩ := hstops.stops hn st.statement st.start.outbox
      obtain ⟨refused, hrefused, hsame⟩ : ∃ refused,
          (stopping.announce st.statement).apply st.start = some (.error f, refused) ∧
          refused.store = st.start.store := by
        rw [Hooks.apply_announce, hf]
        exact ⟨_, rfl, rfl⟩
      obtain rfl : st = inner := by simpa [hn] using hinner
      rw [Action.followed_of_error hrefused, hn, Nat.sub_self]
      refine ⟨rfl, f, refused, refused, hrefused, ?_, hsame.trans (Store.restrict_self _).symm, rfl⟩
      rw [Action.apply_atLine, Action.apply_bind, hrefused]
      rfl
    · have hannounce' := hsame hn
      have hindex : n - count st.start.host = n - count announced.host + 1 := by omega
      rw [hindex, List.getElem?_cons_succ] at hinner
      obtain ⟨hrest, hrefused⟩ := hafter.stopped inner (by omega) hinner
      rw [Action.followed_of_ok hannounce', hrun hannounce', hrest, hindex, List.take_succ_cons,
        ← hstore]
      exact ⟨rfl, hrefused⟩

/-- A simple command is not cut off. -/
theorem Effect.cut {hooks : Hooks σ} (hm : m.store.Ordered) (effect : Effect) :
    Cut count n hooks stopping (effect.run effort frame) (effect.run effort frame) [] [] m := by
  have hupdate {f : Store → Eval Store}
      (hkeeps : (Action.updateStore f : Action σ Unit).Keeps (Machine.Becomes fun _ => True)) :
      Cut count n hooks stopping (Action.updateStore f) (Action.updateStore f) [] [] m := by
    refine .leaf rfl fun r m' hr => ?_
    obtain ⟨houtbox, hhost⟩ := outbox_host_of_updateStore hr
    exact ⟨.of_becomes (hkeeps m r m' hr) hm (houtbox ▸ List.prefix_rfl), hhost⟩
  cases effect with
  | finish flow => exact .pure hm flow
  | fail f => exact .fail hm f
  | send message =>
    refine .leaf rfl fun r m' hr => ?_
    cases hr
    refine ⟨⟨hm, fun _ => rfl, ?_⟩, rfl⟩
    rw [Outbox.sent_push]
    exact List.prefix_append _ _
  | create path v =>
    exact (hupdate (keeps_create effort path v trivial)).bind_leaf fun _ _ _ h =>
      .pure h.ordered _
  | set path v =>
    exact (hupdate (keeps_set effort path v)).bind_leaf fun _ _ _ h => .pure h.ordered _

namespace Interpreter

/-- The interpreter of another host. -/
def withHooks (i : Interpreter σ) (hooks : Hooks σ) : Interpreter σ := { i with hooks }

/-- What a statement says is cut off in one of the blocks that it runs. -/
theorem cut_dispatch (hregistry : i.registry = .standard)
    (hinvoke : ∀ v : Invocation σ, v.start.store.Ordered → Cut count n i.hooks stopping
      ((i.runner effort).invoke v.code v.bindings v.procedure)
      (((i.withHooks stopping).runner effort).invoke v.code v.bindings v.procedure)
      (v.trace (i.trace effort)) (v.trace ((i.withHooks stopping).trace effort)) v.start)
    (hm : m.store.Ordered) :
    Cut count n i.hooks stopping (i.dispatch (i.runner effort) frame s)
      ((i.withHooks stopping).dispatch ((i.withHooks stopping).runner effort) frame s)
      ((i.invocations effort frame s m).flatMap (Invocation.trace (i.trace effort)))
      (((i.withHooks stopping).invocations effort frame s m).flatMap
        (Invocation.trace ((i.withHooks stopping).trace effort))) m := by
  have hfind : (i.withHooks stopping).registry.find? s.label = i.registry.find? s.label := rfl
  rcases hcommand : i.registry.find? s.label with _ | command
  · rcases hprocedure : m.store.procedure? frame s.label with _ | code
    · simp only [invocations, hfind, hcommand, hprocedure, List.flatMap_nil]
      refine Cut.congr ?_ (apply_dispatch_expression hcommand hprocedure)
        (apply_dispatch_expression (hfind.trans hcommand) hprocedure)
      exact (Cut.ofEval hm _).bind_leaf fun v m₁ _ hfollows => .pure hfollows.ordered _
    · simp only [invocations, hfind, hcommand, hprocedure, Action.flatMap_followed,
        List.flatMap_cons, List.flatMap_nil, List.append_nil]
      refine Cut.congr ?_ (apply_dispatch_procedure hcommand hprocedure)
        (apply_dispatch_procedure (hfind.trans hcommand) hprocedure)
      exact (Cut.ofEval hm _).bind fun arguments m₁ _ hfollows =>
        hinvoke ⟨code, some (bindParams code.params arguments), true, m₁⟩ hfollows.ordered
  · obtain ⟨hmem, _⟩ := Registry.mem_of_find?_standard (hregistry ▸ hcommand)
    refine Cut.congr ?_ (apply_dispatch_command hcommand)
      (apply_dispatch_command (hfind.trans hcommand))
    rcases Command.standard_cases hmem with ⟨c, rfl⟩ | ⟨effect, hdoes⟩
    · simp only [invocations, hfind, hcommand, Control.ofCommand?_command, Action.flatMap_followed,
        List.flatMap_map, c.handler_run]
      exact (Cut.ofEval hm _).bind fun arguments m₁ _ hfollows =>
        Script.cut hinvoke hfollows.ordered _
    · simp only [invocations, hfind, hcommand, Control.ofCommand?_of_does hdoes, List.flatMap_nil,
        hdoes.handler_run]
      exact (Cut.ofEval hm _).bind_leaf fun arguments m₁ _ hfollows =>
        Effect.cut hfollows.ordered _

/-- A statement is cut off by its own hook or in one of the blocks that it runs. -/
theorem cut_runStatement (hstops : i.hooks.StopsAt count n stopping)
    (hregistry : i.registry = .standard)
    (hinvoke : ∀ v : Invocation σ, v.start.store.Ordered → Cut count n i.hooks stopping
      ((i.runner effort).invoke v.code v.bindings v.procedure)
      (((i.withHooks stopping).runner effort).invoke v.code v.bindings v.procedure)
      (v.trace (i.trace effort)) (v.trace ((i.withHooks stopping).trace effort)) v.start)
    (hm : m.store.Ordered) :
    Cut count n i.hooks stopping
      ((i.runStatement (i.runner effort) frame s).atLine s.pos.line)
      (((i.withHooks stopping).runStatement ((i.withHooks stopping).runner effort) frame s).atLine
        s.pos.line)
      (StatementRun.trace i (i.trace effort) ⟨effort, frame, s, m⟩)
      (StatementRun.trace (i.withHooks stopping) ((i.withHooks stopping).trace effort)
        ⟨effort, frame, s, m⟩) m := by
  refine hstops.cut ⟨effort, frame, s, m⟩ hm fun m hm => Cut.atLine ?_ _
  refine (cut_dispatch hregistry hinvoke hm).bind_leaf fun flow m₁ _ hfollows => ?_
  have hbind : Cut count n i.hooks stopping (bindTarget effort frame s flow)
      (bindTarget effort frame s flow) [] [] m₁ := by
    refine .leaf rfl fun r m' hr => ?_
    have hbecomes : m₁.Becomes (fun _ => True) m' :=
      keeps_bindTarget (fun _ => trivial) m₁ r m' hr
    obtain ⟨houtbox, hhost⟩ := outbox_host_of_bindTarget hr
    exact ⟨.of_becomes hbecomes hfollows.ordered (houtbox ▸ List.prefix_rfl), hhost⟩
  exact hbind.bind_leaf fun _ _ _ hfollows' => .pure hfollows'.ordered flow

/-! ## Blocks -/

/-- Code that runs in a new frame is cut off where its block is. -/
theorem cut_invoke (hregistry : i.registry = .standard) (v : Invocation σ)
    (hv : v.start.store.Ordered)
    (hblock : ∀ m : Machine σ, m.store.Ordered → Cut count n i.hooks stopping
      (i.runBlock effort v.code.body v.start.store.next v.procedure)
      ((i.withHooks stopping).runBlock effort v.code.body v.start.store.next v.procedure)
      (i.trace effort v.code.body v.start.store.next m)
      ((i.withHooks stopping).trace effort v.code.body v.start.store.next m) m) :
    Cut count n i.hooks stopping ((i.runner effort).invoke v.code v.bindings v.procedure)
      (((i.withHooks stopping).runner effort).invoke v.code v.bindings v.procedure)
      (v.trace (i.trace effort)) (v.trace ((i.withHooks stopping).trace effort)) v.start := by
  unfold Invocation.trace
  by_cases hlive : v.start.store.isLive v.code.frame = true
  · rw [if_pos hlive, if_pos hlive]
    have hinside := hblock
      { v.start with store := v.start.store.push (some v.code.frame) v.bindings }
      (hv.push _ _)
    refine hinside.around rfl (apply_invoke hlive ..) (apply_invoke hlive ..) (fun _ _ hr => hr)
      (fun _ _ => rfl) (fun r m' hr => ?_) (fun _ => rfl) (fun _ => rfl) fun m' st hst hstore => ?_
    · have hinvoke := apply_invoke hlive effort v.bindings v.procedure (i := i)
      rw [hr] at hinvoke
      exact .of_becomes (i.keeps_names_invoke hregistry effort _ _ _ _ _ _ hinvoke) hv
        (hinside.ends r m' hr).sent
    · have hdrop := Store.drop_restrict_push (hinside.starts st hst).1 hv (some v.code.frame)
        v.bindings
      exact (congrArg (Store.drop · v.start.store.next) hstore).trans hdrop
  · rw [if_neg hlive, if_neg hlive]
    exact .congr (.fail hv .expiredScope) (apply_invoke_of_not_isLive hlive ..)
      (apply_invoke_of_not_isLive hlive ..)

/-- A block is cut off in one of its statements. -/
theorem cut_runBlock (hstops : i.hooks.StopsAt count n stopping)
    (hregistry : i.registry = .standard) (effort : ℕ) (body : List Statement) (frame : FrameId)
    (procedure : Bool) (hm : m.store.Ordered) :
    Cut count n i.hooks stopping (i.runBlock effort body frame procedure)
      ((i.withHooks stopping).runBlock effort body frame procedure)
      (i.trace effort body frame m) ((i.withHooks stopping).trace effort body frame m) m := by
  induction effort generalizing body frame procedure m with
  | zero => exact .exhausted
  | succ effort ih =>
    have hinvoke (v : Invocation σ) (hv : v.start.store.Ordered) :=
      cut_invoke hregistry v hv fun m hm => ih v.code.body v.start.store.next v.procedure hm
    by_cases hdepth : m.depth < i.settings.maxDepth
    · have hdepth' : m.depth < (i.withHooks stopping).settings.maxDepth := hdepth
      rw [trace_of_lt hdepth, trace_of_lt hdepth', runBlock_succ, runBlock_succ]
      refine Cut.bind_leaf (Cut.nested hdepth ?_) fun flow m₁ _ hfollows => .pure hfollows.ordered _
      refine cut_runStatements (fun s m hm => ?_) (by exact hm) none body
      exact cut_runStatement hstops hregistry hinvoke hm
    · have hlimit : i.settings.maxDepth ≤ m.depth := Nat.not_lt.mp hdepth
      have hlimit' : (i.withHooks stopping).settings.maxDepth ≤ m.depth := hlimit
      rw [trace_of_limit hlimit, trace_of_limit hlimit']
      exact Cut.congr (.fail hm (.depthLimit i.settings.maxDepth))
        (apply_runBlock_of_limit hlimit effort procedure)
        (apply_runBlock_of_limit hlimit' effort procedure)

end Interpreter

/-! ## Sessions -/

section

variable {program : List Statement}

/-- A host that stops a session starts it like the other one. -/
theorem Hooks.StopsAt.sessionBlock_eq (hstops : i.hooks.StopsAt count n stopping) :
    (i.withHooks stopping).sessionBlock effort program frame m =
      i.sessionBlock effort program frame m := by
  simp only [Interpreter.sessionBlock, Interpreter.withHooks, hstops.start_eq]

/-- A host that stops a session concludes it like the other one. -/
theorem Hooks.StopsAt.conclude_eq (hstops : i.hooks.StopsAt count n stopping)
    (outcome : Except Failure Flow × Machine σ) :
    (i.withHooks stopping).conclude outcome = i.conclude outcome := by
  obtain ⟨f | flow, m'⟩ := outcome
  · simp only [Interpreter.conclude, Interpreter.withHooks, hstops.afterError_eq, hstops.finish_eq]
  · simp only [Interpreter.conclude, Interpreter.withHooks, hstops.finish_eq]

/-- A session is cut off in its block, if it comes to its block. -/
theorem Interpreter.cut_session (hstops : i.hooks.StopsAt count n stopping)
    (hregistry : i.registry = .standard) (hm : m.store.Ordered) :
    Cut count n i.hooks stopping
      (Action.ofFun fun _ => i.sessionOutcome effort program frame m)
      (Action.ofFun fun _ => (i.withHooks stopping).sessionOutcome effort program frame m)
      (i.sessionTrace effort program frame m)
      ((i.withHooks stopping).sessionTrace effort program frame m)
      (i.sessionBlock effort program frame m).start := by
  have hstart : (i.withHooks stopping).hooks.start = i.hooks.start := hstops.start_eq
  have hsettings : (i.withHooks stopping).settings = i.settings := rfl
  simp only [sessionOutcome, sessionTrace, hstops.sessionBlock_eq, hstart, hsettings]
  cases (i.hooks.start { m.outbox with pending := [], capacity := i.settings.queueCapacity }
      m.host).1 with
  | error f =>
    refine .leaf rfl fun r m' hr => ?_
    cases hr
    exact ⟨.refl hm, rfl⟩
  | ok _ =>
    exact (cut_runBlock hstops hregistry effort program frame false (by exact hm)).congr rfl rfl

end

/-- What was sent before the hook failed is sent, and the hook that does not fail sends it too. -/
theorem Hooks.StopsAt.sent_of_refused {hooks : Hooks σ} (hstops : hooks.StopsAt count n stopping)
    {m refused : Machine σ} {f : Failure}
    (hrefused : (stopping.announce s).apply m = some (.error f, refused)) :
    ∃ announced, (hooks.announce s).apply m = some (.ok (), announced) ∧
      m.outbox.sent <+: refused.outbox.sent ∧ refused.outbox.sent <+: announced.outbox.sent := by
  by_cases hn : count m.host = n
  · obtain ⟨_, _, hsent, hsent'⟩ := hstops.stops hn s m.outbox
    obtain ⟨_, rfl⟩ := Prod.mk.inj (Option.some.inj hrefused)
    rw [Hooks.apply_announce, hstops.succeeds]
    exact ⟨_, rfl, hsent, hsent'⟩
  · rw [Hooks.apply_announce, hstops.same hn, hstops.succeeds] at hrefused
    cases hrefused

/-- A session publishes what was sent when its block ended. -/
theorem Interpreter.published_conclude (i : Interpreter σ) (r : Except Failure Flow)
    (m : Machine σ) : (i.conclude (r, m)).2.outbox.published = m.outbox.sent := by
  rw [i.outbox_conclude]
  rfl

/-- **Aborting yields a prefix.** Take a session with the commands of the language whose hook before
statements never fails, and the same session with a hook that fails before the statement with the
number `k`, counted from zero. If the first session runs no more than `k` statements, then both are
the same. Otherwise the second one starts the same statements up to this one, in the same states. It
fails with the failure of the hook, at the line of this statement. It leaves the store that this
statement found, without the frames that the session has made; and it has published all that was
sent before the hook failed, which the first session publishes before anything else. -/
theorem aborting_cuts_sessions_short (settings : Settings) {hooks stopping : Hooks σ}
    {count : σ → ℕ} {effort k : ℕ} {program : List Statement} {frame : FrameId}
    {m ended : Machine σ} {result : Except Failure Unit} :
    let full : Interpreter σ := ⟨settings, .standard, hooks⟩
    let aborted : Interpreter σ := ⟨settings, .standard, stopping⟩
    let base := count (full.sessionBlock effort program frame m).start.host
    let started := full.sessionTrace effort program frame m
    m.store.Ordered → hooks.StopsAt count (base + k) stopping →
    full.runSession effort program frame m = some (result, ended) →
      (started.length ≤ k → aborted.runSession effort program frame m = some (result, ended) ∧
        aborted.sessionTrace effort program frame m = started) ∧
      ∀ st, started[k]? = some st →
        aborted.sessionTrace effort program frame m = started.take (k + 1) ∧
        ∃ f refused left,
          (stopping.announce st.statement).apply st.start = some (.error f, refused) ∧
          aborted.runSession effort program frame m =
            some (.error (f.atLine st.statement.pos.line), left) ∧
          left.store = st.start.store.restrict m.store ∧
          left.outbox.published = refused.outbox.sent ∧
          st.start.outbox.sent <+: left.outbox.published ∧
          left.outbox.published <+: ended.outbox.published := by
  intro full aborted base started hm hstops hfull
  have hcut : Cut count (base + k) hooks stopping
      (Action.ofFun fun _ => full.sessionOutcome effort program frame m)
      (Action.ofFun fun _ => aborted.sessionOutcome effort program frame m) started
      (aborted.sessionTrace effort program frame m)
      (full.sessionBlock effort program frame m).start :=
    Interpreter.cut_session (i := full) hstops rfl hm
  have hconclude outcome : aborted.conclude outcome = full.conclude outcome :=
    Hooks.StopsAt.conclude_eq (i := full) hstops outcome
  have hindex : base + k - count (full.sessionBlock effort program frame m).start.host = k :=
    Nat.add_sub_cancel_left base k
  rw [Interpreter.runSession_eq] at hfull ⊢
  obtain ⟨⟨r, m'⟩, houtcome, hended⟩ := Option.map_eq_some_iff.mp hfull
  refine ⟨fun hlength => ?_, fun st hst => ?_⟩
  · obtain ⟨hsame, hstarted⟩ := hcut.same (Nat.add_le_add_left hlength base)
    have hsame' : aborted.sessionOutcome effort program frame m = some (r, m') :=
      hsame.trans houtcome
    rw [hsame', Option.map_some, hconclude, hended]
    exact ⟨rfl, hstarted⟩
  · obtain ⟨hstarted, f, refused, left, hrefused, hleft, hstore, houtbox⟩ :=
      hcut.stopped st (Nat.le_add_right base k) (by rwa [hindex])
    rw [hindex] at hstarted
    obtain ⟨announced, hannounce, hbefore, hafter⟩ := hstops.sent_of_refused hrefused
    obtain ⟨_, hsent⟩ := hcut.starts st (List.mem_of_getElem? hst)
    have hpublished := full.published_conclude (.error (f.atLine st.statement.pos.line)) left
    have hended' := full.published_conclude r m'
    rw [houtbox] at hpublished
    rw [hended] at hended'
    refine ⟨hstarted, f, refused, _, hrefused, ?_, (full.store_conclude ..).trans hstore,
      hpublished, ?_, ?_⟩
    · exact (congrArg (Option.map aborted.conclude) hleft).trans (congrArg some (hconclude _))
    · rw [hpublished]
      exact hbefore
    · rw [hpublished, hended']
      exact hafter.trans (hsent announced hannounce r m' houtcome)

/-- A recorder that is told to stop before a statement differs from one that is not only in this. -/
theorem Recorder.stopsAt_hooks {plan : Plan} (hlabel : plan.stopLabel = none)
    (hnumber : plan.stopAt = none) (n : ℕ) :
    (hooks plan).StopsAt Recorder.statements n (hooks { plan with stopAt := some (n + 1) }) := by
  have hsent (outbox : Outbox) :
      (if plan.flush then outbox.flush else outbox).sent = outbox.sent := by
    split
    · exact Outbox.sent_flush outbox
    · rfl
  refine ⟨rfl, rfl, rfl, fun s outbox host => ?_, fun _ _ _ => rfl, fun s outbox host => ?_,
    fun {host} hne s outbox => ?_,
    fun {host} heq s outbox => ⟨{ fault := .host "stopped" }, ?_, ?_, ?_⟩⟩
  · simp [hooks, stops, hlabel, hnumber]
  · simp [hooks, hsent]
  · simp [hooks, stops, hlabel, hnumber, hne.symm]
  · simp [hooks, stops, heq]
  · simp [hooks, hsent]
  · simp [hooks, hsent]

/-- A session that is stopped in the condition of a loop, between the pen going up and going down.
-/
theorem aborting_cuts_sessions_short_while :
    let full : Interpreter Recorder := { registry := .standard, hooks := Recorder.hooks {} }
    let aborted : Interpreter Recorder :=
      { registry := .standard, hooks := Recorder.hooks { stopAt := some 3 } }
    let m : Machine Recorder :=
      { store := ({} : Store).push none none, outbox := { capacity := 64 }, host := {} }
    let condition : List Statement := [⟨"pu", [], none, ⟨2, 3⟩⟩, ⟨"pd", [], none, ⟨3, 3⟩⟩]
    let program : List Statement :=
      [⟨"while", [.block ⟨0, ⟨1, 7⟩⟩ condition, .block ⟨1, ⟨4, 3⟩⟩ []], none, ⟨1, 1⟩⟩]
    ∃ st left, (full.sessionTrace 3 program 0 m)[2]? = some st ∧ st.statement.label = "pd" ∧
      st.start.store.frames.length = 2 ∧
      aborted.sessionTrace 3 program 0 m = (full.sessionTrace 3 program 0 m).take 3 ∧
      aborted.runSession 3 program 0 m =
        some (.error { fault := .host "stopped", line := some 3 }, left) ∧
      left.store = st.start.store.restrict m.store ∧
      left.outbox.published.map Message.topic = ["turtle.pen"] := by
  intro full aborted m condition program
  have hordered : m.store.Ordered := Store.Ordered.push ⟨.nil, by simp⟩ none none
  obtain ⟨⟨result, ended⟩, hfull⟩ : ∃ r, full.runSession 3 program 0 m = some r :=
    Option.isSome_iff_exists.mp (by decide +kernel)
  have haborted := (aborting_cuts_sessions_short full.settings hordered (k := 2)
    (Recorder.stopsAt_hooks rfl rfl 2) hfull).2
  have hthird : (full.sessionTrace 3 program 0 m)[2]?.map (fun st => (st.statement.label,
      st.statement.pos.line, st.start.host.statements, st.start.store.frames.length,
      st.start.outbox.sent.map Message.topic)) = some ("pd", 3, 2, 2, ["turtle.pen"]) := by
    decide +kernel
  obtain ⟨st, hst, hfields⟩ := Option.map_eq_some_iff.mp hthird
  simp only [Prod.mk.injEq] at hfields
  obtain ⟨hlabel, hline, hcount, hframes, htopics⟩ := hfields
  obtain ⟨hstarted, f, refused, left, hrefused, hleft, hstore, hpublished, _⟩ := haborted st hst
  obtain ⟨hf, rfl⟩ := Prod.mk.inj (Option.some.inj hrefused)
  obtain rfl : { fault := .host "stopped" } = f := by
    simpa [Recorder.hooks, Recorder.stops, hcount] using hf
  rw [hline] at hleft
  refine ⟨st, left, hst, hlabel, hframes, hstarted, hleft, hstore, ?_⟩
  rw [hpublished]
  exact htopics

end Logo
