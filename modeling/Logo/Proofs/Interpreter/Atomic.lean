import Logo.Proofs.Interpreter.Agree
import Logo.Proofs.Interpreter.Dispatch
import Logo.Proofs.Interpreter.Occurrence
import Logo.Proofs.Store.Writes

/-!
# Statements that fail change nothing

A simple command checks its arguments against the store, makes up its mind what to do, and does it
last of all. So a statement with such a command and no return binding changes nothing if it fails,
even if variables are written in place, cell by cell. If it succeeds, it has sent one message, or it
has changed one variable of one frame at most.
-/

namespace Logo

variable {σ : Type}

/-! ## One variable -/

/-- Whether a frame is as before, apart from one variable of the frame of a number. -/
structure Frame.AgreesExcept (id : FrameId) (name : String) (f f' : Frame) : Prop where
  eq_of_ne : f.id ≠ id → f' = f
  id_eq : f'.id = f.id
  parent_eq : f'.parent = f.parent
  bindings_eq : f'.bindings = f.bindings
  lookup_eq : ∀ other, other ≠ name → f'.cells.lookup other = f.cells.lookup other

/-- Whether a store is as before, apart from one variable of the frame of a number. -/
structure Store.AgreesExcept (id : FrameId) (name : String) (s s' : Store) : Prop where
  next_eq : s'.next = s.next
  frames : List.Forall₂ (Frame.AgreesExcept id name) s.frames s'.frames

/-- A frame is as it is, apart from any one variable. -/
theorem Frame.AgreesExcept.refl (id : FrameId) (name : String) (f : Frame) :
    f.AgreesExcept id name f where
  eq_of_ne _ := rfl
  id_eq := rfl
  parent_eq := rfl
  bindings_eq := rfl
  lookup_eq _ _ := rfl

namespace Store.AgreesExcept

/-- A store is as it is, apart from any one variable. -/
theorem refl (id : FrameId) (name : String) (s : Store) : s.AgreesExcept id name s where
  next_eq := rfl
  frames := List.forall₂_same.mpr fun f _ => .refl id name f

/-- A write changes one variable. -/
theorem write (s : Store) (id : FrameId) (name : String) (v : Value) :
    s.AgreesExcept id name (s.write id name v) where
  next_eq := rfl
  frames := by
    refine List.forall₂_map_right_iff.mpr (List.forall₂_same.mpr fun f _ => ?_)
    split
    · next hid =>
      refine ⟨fun hne => absurd hid hne, rfl, rfl, rfl, fun other hother => ?_⟩
      rw [lookup_putField, if_neg hother]
    · exact .refl id name f

end Store.AgreesExcept

/-! ## Effects in place -/

namespace Action

/-- Changes the store in place, where a fault may leave it changed in part. -/
def changeStore (change : Store → Option (Except Fault Unit × Store)) : Action σ Unit :=
  ofFun fun m => (change m.store).map
    (Prod.map (Except.mapError fun fault => { fault }) fun store => { m with store })

/-- A change that is all or nothing is the same as a new store. -/
theorem apply_changeStore {change : Store → Option (Except Fault Unit × Store)} {m : Machine σ}
    (make : Store → Eval Store)
    (h : change m.store = (make m.store).run.map (allOrNothing m.store)) :
    (changeStore change : Action σ Unit).apply m = (updateStore make : Action σ Unit).apply m := by
  rw [changeStore, apply_ofFun, h, apply_updateStore]
  rcases (make m.store).run with _ | fault | s
  · rfl
  · rfl
  · rfl

end Action

namespace Effect

variable {effort : ℕ} {frame : FrameId} {m left : Machine σ} {r : Except Failure Flow}

/-- The action of an effect that writes variables in place. -/
def runInPlace (effort : ℕ) (frame : FrameId) : Effect → Action σ Flow
  | create path v => do
    Action.changeStore fun store => store.createInPlace effort frame path v
    proceed
  | set path v => do
    Action.changeStore fun store => store.setInPlace effort frame path v
    proceed
  | effect => effect.run effort frame

/-- On a store whose frames are in order, an effect that writes in place does what the effect does.
-/
theorem apply_runInPlace (hm : m.store.Ordered) (effect : Effect) :
    (effect.runInPlace effort frame).apply m = (effect.run effort frame).apply m := by
  cases effect with
  | finish flow => rfl
  | fail f => rfl
  | send message => rfl
  | create path v =>
    rw [runInPlace, run, Action.apply_bind, Action.apply_bind,
      Action.apply_changeStore (·.create effort frame path v)
        (Store.createInPlace_eq m.store effort frame path v)]
  | set path v =>
    rw [runInPlace, run, Action.apply_bind, Action.apply_bind,
      Action.apply_changeStore (·.set effort frame path v)
        (Store.setInPlace_eq hm effort frame path v)]

/-- An effect that fails changes nothing. -/
theorem machine_of_error {effect : Effect} {failure : Failure}
    (h : (effect.run effort frame).apply m = some (.error failure, left)) : left = m := by
  have hupdate {f : Store → Eval Store}
      (h : (Action.updateStore f >>= fun _ => proceed).apply m = some (.error failure, left)) :
      left = m := by
    rw [Action.apply_bind] at h
    rcases Action.cases_of_continueWith h with ⟨_, hfailed, _⟩ | ⟨_, _, _, hdone⟩
    · exact Store.machine_of_updateStore hfailed
    · cases hdone
  cases effect with
  | finish flow => cases h
  | fail f =>
    cases h
    rfl
  | send message => cases h
  | create path v => exact hupdate h
  | set path v => exact hupdate h

/-- An effect that succeeds sends one message or changes one variable at most. -/
theorem cases_of_ok {effect : Effect} {flow : Flow}
    (h : (effect.run effort frame).apply m = some (.ok flow, left)) :
    (∃ message, left = { m with outbox := m.outbox.push message }) ∨
      ∃ id name store, m.store.AgreesExcept id name store ∧ left = { m with store } := by
  have hupdate {f : Store → Eval Store}
      (h : (Action.updateStore f >>= fun _ => proceed).apply m = some (.ok flow, left)) :
      ∃ store, f m.store = pure store ∧ left = { m with store } := by
    rw [Action.apply_bind, Action.apply_updateStore] at h
    rcases hmade : (f m.store).run with _ | fault | store
    · rw [hmade] at h
      cases h
    · rw [hmade] at h
      cases h
    · rw [hmade] at h
      cases h
      exact ⟨store, hmade, rfl⟩
  cases effect with
  | finish =>
    cases h
    -- Any variable will do, since none has changed.
    exact .inr ⟨frame, "", m.store, .refl _ _ _, rfl⟩
  | fail f => cases h
  | send message =>
    cases h
    exact .inl ⟨message, rfl⟩
  | create path v =>
    obtain ⟨_, hcreate, rfl⟩ := hupdate h
    obtain ⟨resolved, cell, _, _, rfl⟩ := Store.exists_of_create hcreate
    exact .inr ⟨frame, resolved.base, _, .write _ _ _ cell, rfl⟩
  | set path v =>
    obtain ⟨_, hset, rfl⟩ := hupdate h
    obtain ⟨resolved, f, _, cell, _, _, _, _, rfl⟩ := Store.exists_of_set hset
    exact .inr ⟨f.id, resolved.base, _, .write _ _ _ cell, rfl⟩

end Effect

/-! ## Statements -/

/-- A simple command of the language has an effect for all arguments. -/
theorem Command.exists_does {c : Command σ} (h : c ∈ standard)
    (hsimple : c.handler.isControl = false) : ∃ effect, c.Does effect := by
  rcases standard_cases h with ⟨control, rfl⟩ | hdoes
  · cases control with
    | ifElse | whileTrue | repeatTimes | eachItem => cases hsimple
  · exact hdoes

/-- Without a return binding, a statement with the label of a command checks its arguments and runs
the command. -/
theorem StatementRun.outcome_of_command {i : Interpreter σ} {st : StatementRun σ} {c : Command σ}
    {m : Machine σ} (hcommand : i.registry.find? st.statement.label = some c)
    (htarget : st.statement.target = none)
    (hannounce : (i.hooks.announce st.statement).apply st.start = some (.ok (), m)) :
    st.outcome i = (Action.ofEval (validate st.effort m.store st.frame st.statement.label
        c.signature st.statement.arguments) >>= fun arguments =>
      c.handler.run (i.runner st.effort) st.frame arguments).apply m := by
  rw [outcome_eq, hannounce, Action.continueWith_ok, ← Interpreter.apply_dispatch_command hcommand]
  rcases (i.dispatch (i.runner st.effort) st.frame st.statement).apply m with
    _ | ⟨failure | flow, m'⟩
  · rfl
  · rfl
  · rw [Action.continueWith_ok, Interpreter.bindTarget, htarget]
    rfl

/-- **Simple statements are atomic.** Let a statement have no return binding and the label of a
simple command of the language, and let its hook succeed. If it fails for whatever reason, then the
machine is as the hook has left it. If it succeeds, then it has sent one message and done nothing
else, or it has changed one variable of one frame at most and nothing else. The same comes out if
the command writes variables in place, cell by cell. -/
theorem simple_statements_are_atomic {i : Interpreter σ} {st : StatementRun σ} {c : Command σ}
    {m left : Machine σ} {r : Except Failure Flow} (hstandard : c ∈ Command.standard)
    (hsimple : c.handler.isControl = false)
    (hcommand : i.registry.find? st.statement.label = some c)
    (htarget : st.statement.target = none) (hordered : m.store.Ordered)
    (hannounce : (i.hooks.announce st.statement).apply st.start = some (.ok (), m))
    (houtcome : st.outcome i = some (r, left)) :
    (∀ failure, r = .error failure → left = m) ∧
    (∀ flow, r = .ok flow →
      (∃ message, left = { m with outbox := m.outbox.push message } ∧
        left.outbox.sent = m.outbox.sent ++ [message]) ∨
      ∃ id name store, m.store.AgreesExcept id name store ∧ left = { m with store }) ∧
    ∃ effect, c.Does effect ∧
      (Action.ofEval (validate st.effort m.store st.frame st.statement.label c.signature
          st.statement.arguments) >>= fun arguments =>
        (effect arguments).runInPlace st.effort st.frame).apply m = some (r, left) := by
  obtain ⟨effect, hdoes⟩ := Command.exists_does hstandard hsimple
  rw [StatementRun.outcome_of_command hcommand htarget hannounce, Action.apply_bind] at houtcome
  refine ⟨?_, ?_, effect, hdoes, ?_⟩
  · rintro failure rfl
    rcases Action.cases_of_ofEval houtcome with ⟨_, _, _, rfl⟩ | ⟨arguments, _, hrun⟩
    · rfl
    · rw [hdoes.handler_run] at hrun
      exact Effect.machine_of_error hrun
  · rintro flow rfl
    rcases Action.cases_of_ofEval houtcome with ⟨_, _, hfailed, _⟩ | ⟨arguments, _, hrun⟩
    · cases hfailed
    · rw [hdoes.handler_run] at hrun
      rcases Effect.cases_of_ok hrun with ⟨message, rfl⟩ | hcell
      · exact .inl ⟨message, rfl, Outbox.sent_push _ _⟩
      · exact .inr hcell
  · rw [Action.apply_bind]
    rcases Action.cases_of_ofEval houtcome with
      ⟨fault, hfault, rfl, rfl⟩ | ⟨arguments, hchecked, hrun⟩
    · rw [hfault]
      rfl
    · rw [hchecked, Action.apply_ofEval_pure, Action.continueWith_ok,
        Effect.apply_runInPlace hordered, ← hrun, hdoes.handler_run]
      rfl

/-- A member of a member that is not there cannot be set, and nothing changes; a member can be set,
and no message is sent. -/
theorem simple_statements_are_atomic_set :
    let i : Interpreter Unit := { registry := .standard }
    let m : Machine Unit :=
      { store := { frames := [⟨0, none, none, [("x", .object [])]⟩], next := 1 },
        outbox := { capacity := 64 }, host := () }
    let st (path : String) : StatementRun Unit :=
      ⟨2, 0, ⟨"set", [.text path, .text "x"], none, .start⟩, m⟩
    (∃ failure, (st "x.a.b").outcome i = some (.error failure, m)) ∧
      ∃ flow id name store, (st "x.a").outcome i = some (.ok flow, { m with store }) ∧
        m.store.AgreesExcept id name store := by
  intro i m st
  have hordered : m.store.Ordered := ⟨by decide, by decide⟩
  have hset : (Command.set : Command Unit) ∈ Command.standard := by simp [Command.standard]
  have hatomic {path : String} {r : Except Failure Flow} {left : Machine Unit}
      (houtcome : (st path).outcome i = some (r, left)) :=
    simple_statements_are_atomic hset rfl rfl rfl hordered rfl houtcome
  constructor
  · have hfails : ((st "x.a.b").outcome i).map (·.1.toBool) = some false := by decide +kernel
    obtain ⟨⟨r, left⟩, houtcome, hr⟩ := Option.map_eq_some_iff.mp hfails
    cases r with
    | ok flow => cases hr
    | error failure =>
      obtain rfl := (hatomic houtcome).1 failure rfl
      exact ⟨failure, houtcome⟩
  · have hsucceeds : ((st "x.a").outcome i).map (fun r => (r.1.toBool, r.2.outbox.sent.length)) =
        some (true, 0) := by decide +kernel
    obtain ⟨⟨r, left⟩, houtcome, hr⟩ := Option.map_eq_some_iff.mp hsucceeds
    cases r with
    | error failure => cases hr
    | ok flow =>
      rcases (hatomic houtcome).2.1 flow rfl with
        ⟨message, _, hsent⟩ | ⟨id, name, store, hcell, rfl⟩
      · simp [hsent] at hr
      · exact ⟨flow, id, name, store, houtcome, hcell⟩

end Logo
