import Logo.Proofs.Interpreter.Batching
import Logo.Proofs.Interpreter.Depth

/-!
# One program after the other

Nothing but the store, and what the host was given, is left of a statement when the next one starts.
So a program can be cut in two: its parts, run as two sessions on the same store, come to the same
as the whole program in one session.
-/

namespace Logo

variable {σ : Type}

/-- What follows is not run if statements do not come to their end. -/
theorem apply_runStatements_append_of_stop {step : Statement → Action σ Flow} {last : Option Value}
    {before rest : List Statement} {m : Machine σ}
    (h : ∀ v m', (runStatements step last before).apply m ≠ some (.ok (.next v), m')) :
    (runStatements step last (before ++ rest)).apply m =
      (runStatements step last before).apply m := by
  induction before generalizing last m with
  | nil => exact absurd rfl (h last m)
  | cons s before ih =>
    simp only [List.cons_append, runStatements, Action.apply_bind] at h ⊢
    rcases hs : ((step s).atLine s.pos.line).apply m with _ | ⟨failure | v | v, m₁⟩
    · rfl
    · rfl
    · rw [hs] at h
      exact ih h
    · rfl

/-- A block that comes to its end had effort for it, and was not too deep. -/
theorem Interpreter.exists_succ_of_outcome {i : Interpreter σ} {b : BlockRun σ} {flow : Flow}
    {ended : Machine σ} (h : b.outcome i false = some (.ok flow, ended)) :
    ∃ effort, b.effort = effort + 1 ∧ b.start.depth < i.settings.maxDepth := by
  obtain ⟨_ | effort, body, frame, start⟩ := b
  · cases h
  · refine ⟨effort, rfl, ?_⟩
    by_contra hdepth
    rw [BlockRun.outcome, runBlock_succ, Action.apply_bind, Action.nested, Action.apply_ofFun,
      if_pos (Nat.not_lt.mp hdepth)] at h
    cases h

/-- What is added to a block makes no difference if the block does not come to its end. -/
theorem Interpreter.runBlock_append_of_stop {i : Interpreter σ} {effort : ℕ}
    {before rest : List Statement} {frame : FrameId} {m : Machine σ}
    (h : ∀ v m', (i.runBlock effort before frame false).apply m ≠ some (.ok (.next v), m')) :
    (i.runBlock effort (before ++ rest) frame false).apply m =
      (i.runBlock effort before frame false).apply m := by
  cases effort with
  | zero => rfl
  | succ effort =>
    by_cases hdepth : m.depth < i.settings.maxDepth
    · rw [apply_runBlock hdepth] at h
      rw [apply_runBlock hdepth, apply_runBlock hdepth, apply_runStatements_append_of_stop]
      intro v m' hrun
      exact h v m'.rise (by rw [hrun]; rfl)
    · rw [runBlock_succ, runBlock_succ, Action.apply_bind, Action.apply_bind, Action.nested,
        Action.nested, Action.apply_ofFun, Action.apply_ofFun, if_pos (Nat.not_lt.mp hdepth),
        if_pos (Nat.not_lt.mp hdepth)]

/-- Without hooks, two hosts that are the same stay the same. -/
theorem Hooks.agree_none : (Hooks.none : Hooks σ).Agree Eq Hooks.none where
  start _ _ _ _ h := ⟨rfl, h⟩
  beforeStatement _ _ _ _ _ h := ⟨rfl, h, [], by simp [Hooks.none]⟩
  afterError _ _ _ _ _ h := h
  finish _ _ _ _ h := ⟨rfl, h⟩

/-- Whether two runs of statements end alike. The values that come out may differ. -/
def EndAlike (e₁ e₂ : Except Failure Flow × Machine σ) : Prop :=
  (Except.map (fun _ => ()) e₁.1 : Except Failure Unit) = Except.map (fun _ => ()) e₂.1 ∧
    e₁.2.store = e₂.2.store ∧ e₁.2.host = e₂.2.host ∧ e₁.2.outbox.sent = e₂.2.outbox.sent

namespace Interpreter

variable {i : Interpreter σ}

/-- Without hooks, a session runs its block and publishes the messages that wait. -/
theorem runSession_of_hooks (hhooks : i.hooks = Hooks.none) (effort : ℕ)
    (program : List Statement) (frame : FrameId) (m : Machine σ) :
    i.runSession effort program frame m =
      ((i.sessionBlock effort program frame m).outcome i false).map fun e =>
        (Except.map (fun _ => ()) e.1, { e.2 with outbox := e.2.outbox.flush }) := by
  have hconclude e : i.conclude e =
      (Except.map (fun _ => ()) e.1, { e.2 with outbox := e.2.outbox.flush }) := by
    rcases e with ⟨_ | _, m⟩
    · simp only [conclude, hhooks]
      rfl
    · simp only [conclude, hhooks]
      rfl
  rw [runSession_eq, funext hconclude, sessionOutcome, hhooks]
  rfl

/-- Statements go alike on machines that agree, whatever value came before them. -/
theorem endAlike_runStatements (hi : i.Agree Eq i) (effort : ℕ) (frame : FrameId)
    (last : Option Value) (body : List Statement) {m₁ m₂ : Machine σ} (hm : m₁.Agree Eq m₂)
    (hsent : m₁.outbox.sent = m₂.outbox.sent) :
    Option.Rel EndAlike
      ((runStatements (i.runStatement (i.runner effort) frame) none body).apply m₁)
      ((runStatements (i.runStatement (i.runner effort) frame) last body).apply m₂) := by
  cases body with
  | nil => exact .some ⟨rfl, hm.store, hm.host, hsent⟩
  | cons s rest =>
    have hrunner : (i.runner effort).Agree Eq (i.runner effort) :=
      { effort := rfl
        settings := rfl
        invoke := fun code bindings procedure =>
          .inFrame (fun id => hi.runBlock effort code.body id procedure) code bindings }
    have hrel := agree_runStatements (hi.runStatement hrunner frame) none (s :: rest) m₁ m₂ hm
    have hlast : runStatements (i.runStatement (i.runner effort) frame) last (s :: rest) =
        runStatements (i.runStatement (i.runner effort) frame) none (s :: rest) := rfl
    rw [hlast]
    generalize (runStatements (i.runStatement (i.runner effort) frame) none (s :: rest)).apply m₁ =
      e₁ at hrel ⊢
    generalize (runStatements (i.runStatement (i.runner effort) frame) none (s :: rest)).apply m₂ =
      e₂ at hrel ⊢
    rcases hrel with ⟨hresult, hagree, new, hnew₁, hnew₂⟩ | _
    · refine .some ⟨congrArg _ hresult, hagree.store, hagree.host, ?_⟩
      rw [hnew₁, hnew₂, hsent]
    · exact .none

/-- A block goes on after statements that came to their end as a block of its own would, in a second
session. -/
theorem endAlike_sessionBlock_append (hi : i.Agree Eq i) (hregistry : i.registry.KeepsDepth)
    (hhooks : i.hooks = Hooks.none) {effort : ℕ} {first second : List Statement} {frame : FrameId}
    {m ended : Machine σ} {v : Option Value}
    (h : (i.sessionBlock effort first frame m).outcome i false = some (.ok (.next v), ended)) :
    Option.Rel EndAlike
      ((i.sessionBlock effort second frame { ended with outbox := ended.outbox.flush }).outcome i
        false)
      ((i.sessionBlock effort (first ++ second) frame m).outcome i false) := by
  obtain ⟨effort, rfl, hdepth⟩ := exists_succ_of_outcome h
  -- the machine that a session starts from has nothing to do with its program
  have houtcome (program : List Statement) (m : Machine σ) :
      (i.sessionBlock (effort + 1) program frame m).outcome i false =
        ((runStatements (i.runStatement (i.runner effort) frame) none program).apply
          { (i.sessionBlock (effort + 1) [] frame m).start with depth := 1 }).map
            (Prod.map id Machine.rise) :=
    apply_runBlock hdepth
  rw [houtcome] at h
  obtain ⟨⟨r, reached⟩, hreached, heq⟩ := Option.map_eq_some_iff.mp h
  obtain ⟨rfl, rfl⟩ := Prod.mk.inj heq
  have hstep s : (i.runStatement (i.runner effort) frame s).Keeps Machine.SameDepth :=
    sameDepth_runStatement hregistry (sameDepth_invoke hregistry effort) frame s
  have hlevel : reached.depth = 1 := keeps_runStatements (fun s _ => hstep s) none _ _ _ hreached
  have hhost : (i.hooks.start { reached.outbox.flush with
      pending := [], capacity := i.settings.queueCapacity } reached.host).2 = reached.host := by
    rw [hhooks]
    rfl
  rw [houtcome, houtcome, apply_runStatements_append hreached]
  exact rel_map (i.endAlike_runStatements hi effort frame v second ⟨rfl, hlevel.symm, hhost⟩
    (List.append_nil _)) fun e₁ e₂ he => he

end Interpreter

/-- **Sessions compose.** Without hooks, a program that succeeds, and does not leave by a return of
its own, can be followed by another one in a second session: it comes to the same as both programs
in one session. Both run out of effort, or both end, with the same result, the same store and the
same messages. If the first program fails, then so does the program with the other one added to it,
with the same failure, store and messages. The commands are those of the language and further ones
that pay no attention to the outbox and do not change the depth. -/
theorem sessions_compose (settings : Settings) (extra : List (Command σ)) :
    let i : Interpreter σ := { settings, registry := extra.foldl Registry.register .standard }
    (∀ c ∈ extra, c.Oblivious Eq ∧ c.KeepsDepth) →
    ∀ (effort : ℕ) (first second : List Statement) (frame : FrameId) (m between : Machine σ),
      (i.runSession effort first frame m = some (.ok (), between) →
        (∀ v left, (i.sessionBlock effort first frame m).outcome i false ≠
          some (.ok (.leave v), left)) →
        Option.Rel (fun e₁ e₂ => e₁.1 = e₂.1 ∧ e₁.2.store = e₂.2.store ∧
            e₁.2.outbox.published = e₂.2.outbox.published ∧ e₁.2.host = e₂.2.host)
          (i.runSession effort second frame between)
          (i.runSession effort (first ++ second) frame m)) ∧
      ∀ failure, i.runSession effort first frame m = some (.error failure, between) →
        i.runSession effort (first ++ second) frame m = some (.error failure, between) := by
  intro i hextra effort first second frame m between
  have hregistry : i.registry.KeepsDepth := Registry.keepsDepth_foldl fun c hc => (hextra c hc).2
  have hi : i.Agree Eq i :=
    { settings := rfl
      registry := rfl
      hooks := Hooks.agree_none
      oblivious := fun label c hfind => by
        rcases Registry.mem_of_find?_foldl hfind with ⟨hmem, _⟩ | hstandard
        · exact (hextra c hmem).1
        · exact Command.oblivious_of_mem_standard (Registry.mem_of_find?_standard hstandard).1 }
  rw [i.runSession_of_hooks rfl, i.runSession_of_hooks rfl, i.runSession_of_hooks rfl]
  refine ⟨fun hfirst hleave => ?_, fun failure hfirst => ?_⟩
  · obtain ⟨⟨r, ended⟩, hended, heq⟩ := Option.map_eq_some_iff.mp hfirst
    obtain ⟨hresult, rfl⟩ := Prod.mk.inj heq
    rcases r with f | v | v
    · cases hresult
    · refine rel_map (i.endAlike_sessionBlock_append hi hregistry rfl hended) fun e₁ e₂ he => ?_
      obtain ⟨hresult, hstore, hhost, hsent⟩ := he
      exact ⟨hresult, hstore, hsent, hhost⟩
    · exact absurd hended (hleave v ended)
  · obtain ⟨⟨r, ended⟩, hended, heq⟩ := Option.map_eq_some_iff.mp hfirst
    have happend : (i.sessionBlock effort (first ++ second) frame m).outcome i false =
        (i.sessionBlock effort first frame m).outcome i false := by
      refine i.runBlock_append_of_stop fun v m' hrun => ?_
      cases hended.symm.trans hrun
      cases heq
    rw [happend, hended]
    exact congrArg some heq

/-- A pen that goes up in one session, and down in the next one before this fails, sends what it
sends in one session; what is added to a program that fails is left out. -/
theorem sessions_compose_pen :
    let i : Interpreter Unit :=
      { settings := { queueCapacity := 1 }
        registry := [.stamp, .twice].foldl Registry.register .standard }
    let m : Machine Unit :=
      { store := ({} : Store).push none none, outbox := { capacity := 64 }, host := () }
    let up : List Statement := [⟨"penup", [], none, ⟨1, 1⟩⟩]
    let down : List Statement := [⟨"pd", [], none, ⟨2, 1⟩⟩, ⟨"else", [], none, ⟨3, 1⟩⟩]
    ∃ between ended₁ ended₂ failure, i.runSession 2 up 0 m = some (.ok (), between) ∧
      i.runSession 2 down 0 between = some (.error failure, ended₁) ∧
      i.runSession 2 (up ++ down) 0 m = some (.error failure, ended₂) ∧
      ended₁.store = ended₂.store ∧
      ended₁.outbox.published = [⟨"turtle.pen", .record [("down", .bool false)]⟩,
        ⟨"turtle.pen", .record [("down", .bool true)]⟩] ∧
      ended₂.outbox.published = ended₁.outbox.published ∧
      i.runSession 2 ((up ++ down) ++ up) 0 m = some (.error failure, ended₂) := by
  intro i m up down
  have hextra : ∀ c ∈ [Command.stamp, Command.twice],
      (c : Command Unit).Oblivious Eq ∧ c.KeepsDepth := by
    simp [Command.stamp, Command.oblivious_stampAs, Command.oblivious_twice,
      Command.keepsDepth_stampAs, Command.keepsDepth_twice]
  have hsessions := sessions_compose i.settings [.stamp, .twice] hextra 2
  obtain ⟨between, hbetween⟩ : ∃ between, i.runSession 2 up 0 m = some (.ok (), between) := ⟨_, rfl⟩
  obtain ⟨failure, ended₁, hended₁, hpublished⟩ :
      ∃ failure ended₁, i.runSession 2 down 0 between = some (.error failure, ended₁) ∧
        ended₁.outbox.published = [⟨"turtle.pen", .record [("down", .bool false)]⟩,
          ⟨"turtle.pen", .record [("down", .bool true)]⟩] := by
    cases hbetween
    exact ⟨_, _, rfl, rfl⟩
  have hleave v left : (i.sessionBlock 2 up 0 m).outcome i false ≠ some (.ok (.leave v), left) := by
    rintro ⟨⟩
  have hrel := (hsessions up down 0 m between).1 hbetween hleave
  rw [hended₁] at hrel
  generalize hended₂ : i.runSession 2 (up ++ down) 0 m = e₂ at hrel
  rcases hrel with @⟨_, ⟨r, ended₂⟩, hresult, hstore, hsame, _⟩
  obtain rfl : .error failure = r := hresult
  exact ⟨between, ended₁, ended₂, failure, hbetween, hended₁, rfl, hstore, hpublished,
    hsame.symm, (hsessions (up ++ down) up 0 m ended₂).2 failure hended₂⟩

end Logo
