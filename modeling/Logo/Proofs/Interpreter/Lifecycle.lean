import Logo.Proofs.Interpreter.Noting
import Logo.Proofs.Interpreter.Sent

/-!
# The life of a session

A session calls the hook at its start, then the hooks before its statements, then the one for a
failure, if there is one, and at last the one at its end. The last two find nothing waiting in the
outbox: all that was sent is published by then.
-/

namespace Logo

variable {σ α : Type}

/-- The failure of a result. -/
def failure? : Except Failure α → Option Failure
  | .error f => some f
  | .ok _ => none

/-- A result has a failure exactly if it is one. -/
@[simp] theorem failure?_eq_some_iff {r : Except Failure α} {f : Failure} :
    failure? r = some f ↔ r = .error f := by
  cases r with
  | error own => simp [failure?]
  | ok a => simp [failure?]

/-- The outbox of a session before its first statement. -/
def Settings.openOutbox (settings : Settings) (outbox : Outbox) : Outbox :=
  { outbox with pending := [], capacity := settings.queueCapacity }

namespace Interpreter

variable {i : Interpreter σ} {m left : Machine σ} {r : Except Failure Flow} (effort : ℕ)
  (program : List Statement) (frame : FrameId)

/-- A session whose start hook fails runs no statement. -/
theorem session_of_start_error {f : Failure}
    (h : (i.hooks.start (i.settings.openOutbox m.outbox) m.host).1 = .error f) :
    i.sessionOutcome effort program frame m =
        some (.error f, (i.sessionBlock effort program frame m).start) ∧
      i.sessionTrace effort program frame m = [] := by
  unfold Settings.openOutbox at h
  rw [sessionOutcome, sessionTrace, h]
  exact ⟨rfl, rfl⟩

/-- If the start hook does not fail, a session ends as its block does, and runs the statements of
its block. -/
theorem session_of_start_ok
    (h : (i.hooks.start (i.settings.openOutbox m.outbox) m.host).1 = .ok ()) :
    i.sessionOutcome effort program frame m =
        (i.sessionBlock effort program frame m).outcome i false ∧
      i.sessionTrace effort program frame m =
        i.trace effort program frame (i.sessionBlock effort program frame m).start := by
  unfold Settings.openOutbox at h
  rw [sessionOutcome, sessionTrace, h]
  exact ⟨rfl, rfl⟩

/-! ## Calls of a session -/

/-- The block of a session notes the call at the start and those for its statements. -/
theorem sessionOutcome_noting (hregistry : i.registry = .standard) (calls : List HookCall) :
    let opened := i.settings.openOutbox m.outbox
    i.noting.sessionOutcome effort program frame (m.noting calls) =
      (i.sessionOutcome effort program frame m).map (Prod.map id (Machine.noting ·
        (calls ++ [.start opened (i.hooks.start opened m.host).1] ++
          (i.sessionTrace effort program frame m).map (StatementRun.call i.hooks)))) := by
  intro opened
  have hstart : (i.noting.sessionBlock effort program frame (m.noting calls)).start =
      (i.sessionBlock effort program frame m).start.noting
        (calls ++ [.start opened (i.hooks.start opened m.host).1]) := rfl
  rcases hanswer : (i.hooks.start opened m.host).1 with f | _
  · have hanswer' : (i.noting.hooks.start opened (m.noting calls).host).1 = .error f := hanswer
    obtain ⟨houtcome, htrace⟩ := session_of_start_error effort program frame hanswer
    rw [(session_of_start_error _ _ _ hanswer').1, houtcome, htrace, hstart, hanswer]
    simp
  · have hanswer' : (i.noting.hooks.start opened (m.noting calls).host).1 = .ok () := hanswer
    obtain ⟨houtcome, htrace⟩ := session_of_start_ok effort program frame hanswer
    rw [(session_of_start_ok _ _ _ hanswer').1, houtcome, htrace, BlockRun.outcome, hstart, hanswer]
    exact noted_runBlock hregistry ..

/-- The end of a session notes a failure, and then that the session is over. -/
theorem exists_conclude_noting (i : Interpreter σ) (r : Except Failure Flow) (m : Machine σ) :
    ∃ finished, (i.conclude (r, m)).1 = (failure? r).elim finished .error ∧
      ∀ calls, i.noting.conclude (r, m.noting calls) =
        Prod.map id (Machine.noting · (calls ++
          (failure? r).toList.map (HookCall.error · m.outbox.flush) ++
          [.finish m.outbox.flush finished])) (i.conclude (r, m)) := by
  let outbox := m.outbox.flush
  cases r with
  | error f =>
    exact ⟨(i.hooks.finish outbox (i.hooks.afterError f outbox m.host)).1, rfl, fun _ => rfl⟩
  | ok flow =>
    refine ⟨(i.hooks.finish outbox m.host).1, rfl, fun calls => ?_⟩
    have hcalls : calls ++ (failure? (.ok flow : Except Failure Flow)).toList.map
        (HookCall.error · outbox) = calls := List.append_nil calls
    rw [hcalls]
    rfl

/-! ## Failures of a session -/

variable {effort program frame}

/-- A statement of a session is run in its block, so the session has come to its block. -/
theorem block_of_mem_sessionTrace (hregistry : i.registry = .standard)
    (h : i.sessionOutcome effort program frame m = some (r, left)) {st : StatementRun σ}
    (hst : st ∈ i.sessionTrace effort program frame m) :
    (i.sessionBlock effort program frame m).Contains i st ∧
      (i.sessionBlock effort program frame m).outcome i false = some (r, left) := by
  rcases hanswer : (i.hooks.start (i.settings.openOutbox m.outbox) m.host).1 with f | _
  · rw [(session_of_start_error effort program frame hanswer).2] at hst
    cases hst
  · obtain ⟨hrun, htrace⟩ := session_of_start_ok effort program frame hanswer
    rw [htrace] at hst
    exact ⟨(mem_trace_iff hregistry).mp hst, hrun.symm.trans h⟩

/-- A session that comes to its block fails there if a statement fails, or if no block at all may be
run. -/
theorem error_iff_of_sessionBlock {f : Failure} (hregistry : i.registry = .standard)
    (h : (i.sessionBlock effort program frame m).outcome i false = some (r, left)) :
    r = .error f ↔
      (∃ st, (i.sessionBlock effort program frame m).Contains i st ∧
        ∃ own left, st.outcome i = some (.error own, left) ∧
          f = own.atLine st.statement.pos.line) ∨
      i.settings.maxDepth = 0 ∧ f = { fault := .depthLimit 0 } := by
  have hrefused (hzero : i.settings.maxDepth = 0) : r = .error { fault := .depthLimit 0 } := by
    cases effort with
    | zero => cases h
    | succ effort =>
      have hlimit : (i.sessionBlock (effort + 1) program frame m).outcome i false =
          some (.error { fault := .depthLimit i.settings.maxDepth }, _) :=
        apply_runBlock_of_limit (by exact hzero.le) effort false
      rw [hzero] at hlimit
      exact (Prod.mk.inj (Option.some.inj (h.symm.trans hlimit))).1
  constructor
  · rintro rfl
    by_cases hdepth : 0 < i.settings.maxDepth
    · obtain ⟨st, own, left, hstarts, herror, rfl⟩ := BlockRun.exists_starts_of_error hdepth h
      exact .inl ⟨st, .direct hstarts, own, left, herror, rfl⟩
    · have hzero : i.settings.maxDepth = 0 := by omega
      exact .inr ⟨hzero, Except.error.inj (hrefused hzero)⟩
  · rintro (⟨st, hcontains, own, left', herror, rfl⟩ | ⟨hzero, rfl⟩)
    · obtain ⟨_, hfailed, _⟩ := (hcontains.goesOn hregistry false).fails herror
      exact (Prod.mk.inj (Option.some.inj (h.symm.trans hfailed))).1
    · exact hrefused hzero

end Interpreter

/-- **The life of a session.** In a session with the commands of the language that comes to its end,
the hooks are called in this order: the one at the start; one before each statement that is run, and
none if the one at the start fails; one for a failure, if there is one; the one at the end. There is
a failure if the hook at the start fails, or a statement does, or no block may be run at all; the
hook is told this failure. When it is called, and when the one at the end is, no message waits, and
all are published that were sent when the statement failed. If hooks take no message back, then all
are that any statement of the session had sent. The session fails with the failure, or else gives
the answer of the hook at its end. -/
theorem sessions_call_hooks_in_order (settings : Settings) (hooks : Hooks σ) {effort : ℕ}
    {program : List Statement} {frame : FrameId} {m ended : Machine σ}
    {result : Except Failure Unit} :
    let i : Interpreter σ := ⟨settings, .standard, hooks⟩
    let opened := settings.openOutbox m.outbox
    let answer := (hooks.start opened m.host).1
    let started := i.sessionTrace effort program frame m
    i.runSession effort program frame m = some (result, ended) →
    ∃ (failed : Option Failure) (finished : Except Failure Unit),
      (∀ calls, i.noting.runSession effort program frame (m.noting calls) =
        some (result, ended.noting (calls ++ [.start opened answer] ++
          started.map (StatementRun.call hooks) ++
          failed.toList.map (HookCall.error · ended.outbox) ++
          [.finish ended.outbox finished]))) ∧
      (∀ f, answer = .error f → started = [] ∧ failed = some f) ∧
      (answer = .ok () → ∀ f, failed = some f ↔
        (∃ st ∈ started, ∃ own left, st.outcome i = some (.error own, left) ∧
          f = own.atLine st.statement.pos.line) ∨
        settings.maxDepth = 0 ∧ f = { fault := .depthLimit 0 }) ∧
      ended.outbox.pending = [] ∧
      (∀ st ∈ started, ∀ own left, st.outcome i = some (.error own, left) →
        ended.outbox.published = left.outbox.sent) ∧
      (hooks.TakesNothingBack → ∀ st ∈ started, ∃ r left, st.outcome i = some (r, left) ∧
        left.outbox.sent <+: ended.outbox.published) ∧
      result = failed.elim finished .error := by
  intro i opened answer started hended
  rw [Interpreter.runSession_eq] at hended
  obtain ⟨⟨r, left⟩, houtcome, hconclude⟩ := Option.map_eq_some_iff.mp hended
  obtain ⟨finished, hresult, hnoting⟩ := i.exists_conclude_noting r left
  have houtbox : ended.outbox = left.outbox.flush := by
    rw [← i.outbox_conclude r left, hconclude]
  have hpublished : ended.outbox.published = left.outbox.sent := by rw [houtbox]; rfl
  have hnone (f : Failure) (hanswer : answer = .error f) :=
    Interpreter.session_of_start_error (i := i) (m := m) effort program frame hanswer
  have hsome (hanswer : answer = .ok ()) :=
    Interpreter.session_of_start_ok (i := i) (m := m) effort program frame hanswer
  refine ⟨failure? r, finished, fun calls => ?_, fun f hanswer => ?_, fun hanswer f => ?_,
    by rw [houtbox]; rfl, fun st hst own left' herror => ?_, fun hhooks st hst => ?_,
    by rw [← hresult, hconclude]⟩
  · rw [Interpreter.runSession_eq, Interpreter.sessionOutcome_noting _ _ _ rfl, houtcome,
      Option.map_some, Option.map_some]
    refine congrArg some ((hnoting _).trans ?_)
    rw [hconclude, houtbox]
    rfl
  · obtain ⟨hfailed, htrace⟩ := hnone f hanswer
    rw [houtcome] at hfailed
    cases hfailed
    exact ⟨htrace, rfl⟩
  · obtain ⟨hrun, htrace⟩ := hsome hanswer
    have hmem (st : StatementRun σ) :
        st ∈ started ↔ (i.sessionBlock effort program frame m).Contains i st := by
      change st ∈ i.sessionTrace effort program frame m ↔ _
      rw [htrace]
      exact mem_trace_iff rfl
    rw [failure?_eq_some_iff,
      Interpreter.error_iff_of_sessionBlock rfl (hrun.symm.trans houtcome)]
    simp only [hmem]
    rfl
  · obtain ⟨hcontains, hrun⟩ := Interpreter.block_of_mem_sessionTrace rfl houtcome hst
    obtain ⟨_, hfailed, houtbox'⟩ := (hcontains.goesOn rfl false).fails herror
    obtain ⟨_, rfl⟩ := Prod.mk.inj (Option.some.inj (hrun.symm.trans hfailed))
    rw [hpublished, houtbox']
  · obtain ⟨hcontains, hrun⟩ := Interpreter.block_of_mem_sessionTrace rfl houtcome hst
    obtain ⟨r', left', hst', hretains⟩ := (hcontains.goesOn rfl false).retains hrun
    exact ⟨r', left', hst', hpublished ▸ hretains hhooks⟩

/-- A recorder publishes messages at most. -/
theorem Recorder.takesNothingBack_hooks (plan : Plan) : (hooks plan).TakesNothingBack := by
  intro s outbox host
  by_cases hflush : plan.flush = true
  · simp [hooks, hflush]
  · simp [hooks, hflush]

/-- A session that is stopped inside of a loop, with a hook at the end that fails as well. -/
theorem sessions_call_hooks_in_order_stopped :
    let hooks := Recorder.hooks { stopLabel := some "home", failFinish := some "late" }
    let i : Interpreter Recorder := { registry := .standard, hooks }
    let m : Machine Recorder :=
      { store := ({} : Store).push none none, outbox := { capacity := 64 }, host := {} }
    let condition : List Statement := [⟨"pu", [], none, ⟨2, 3⟩⟩, ⟨"home", [], none, ⟨3, 3⟩⟩]
    let program : List Statement :=
      [⟨"while", [.block ⟨0, ⟨1, 7⟩⟩ condition, .block ⟨1, ⟨4, 3⟩⟩ []], none, ⟨1, 1⟩⟩]
    let opened := i.settings.openOutbox m.outbox
    let f : Failure := { fault := .host "stopped", line := some 3 }
    ∃ ended finished, i.runSession 3 program 0 m = some (.error f, ended) ∧
      i.noting.runSession 3 program 0 (m.noting []) =
        some (.error f, ended.noting ([.start opened (.ok ())] ++
          (i.sessionTrace 3 program 0 m).map (StatementRun.call hooks) ++
          [.error f ended.outbox] ++ [.finish ended.outbox finished])) ∧
      (i.sessionTrace 3 program 0 m).map (·.statement.label) = ["while", "pu", "home"] ∧
      ended.outbox.pending = [] ∧ ended.outbox.published.map Message.topic = ["turtle.pen"] ∧
      ∀ st ∈ i.sessionTrace 3 program 0 m, ∃ r left, st.outcome i = some (r, left) ∧
        left.outbox.sent <+: ended.outbox.published := by
  intro hooks i m condition program opened f
  obtain ⟨ended, hended⟩ : ∃ ended, i.runSession 3 program 0 m = some (.error f, ended) := ⟨_, rfl⟩
  obtain ⟨failed, finished, hcalls, _, hfailed, hpending, hpublished, hretained, _⟩ :=
    sessions_call_hooks_in_order i.settings hooks hended
  have hthird : (i.sessionTrace 3 program 0 m)[2]?.map (fun st => (st.statement.pos.line,
      (st.outcome i).map fun r => (failure? r.1, r.2.outbox.sent.map Message.topic))) =
        some (3, some (some { fault := .host "stopped" }, ["turtle.pen"])) := by
    decide +kernel
  obtain ⟨st, hst, hfields⟩ := Option.map_eq_some_iff.mp hthird
  obtain ⟨hline, houtcome⟩ := Prod.mk.inj hfields
  obtain ⟨⟨r, left⟩, hleft, hfields⟩ := Option.map_eq_some_iff.mp houtcome
  obtain ⟨hr, htopics⟩ := Prod.mk.inj hfields
  obtain rfl := failure?_eq_some_iff.mp hr
  have hmem := List.mem_of_getElem? hst
  obtain rfl : failed = some f :=
    (hfailed rfl f).mpr (.inl ⟨st, hmem, _, left, hleft, by rw [hline]; rfl⟩)
  refine ⟨ended, finished, hended, hcalls [], by decide +kernel, hpending, ?_,
    hretained (Recorder.takesNothingBack_hooks _)⟩
  rw [hpublished st hmem _ left hleft, htopics]

/-- A program that may run no block fails after the start, with no statement run, and the host is
told of the failure: a failure need not come from a hook or a statement. -/
theorem refused_program_is_told :
    let i : Interpreter Recorder :=
      { settings := { maxDepth := 0 }, registry := .standard, hooks := Recorder.hooks {} }
    let m : Machine Recorder :=
      { store := ({} : Store).push none none, outbox := { capacity := 64 }, host := {} }
    let f : Failure := { fault := .depthLimit 0 }
    (i.hooks.start (i.settings.openOutbox m.outbox) m.host).1 = .ok () ∧
      i.sessionTrace 1 [] 0 m = [] ∧
      ∃ ended, i.runSession 1 [] 0 m = some (.error f, ended) ∧
        ended.host.events.reverse = [.start, .error f, .finish] :=
  ⟨rfl, rfl, _, rfl, rfl⟩

end Logo
