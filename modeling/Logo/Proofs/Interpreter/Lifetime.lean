import Logo.Proofs.Interpreter.Held
import Logo.Proofs.Interpreter.Names
import Logo.Proofs.Store.Region

/-!
# Code and the lifetime of its frame

Code travels from a frame to the frames inside it: as an argument, as the item of a loop, in a copy
of a variable. As long as no code is written into an older frame, by `set` or by a return binding,
all code in reach belongs to frames that are in use, and no block fails because its frame is gone.
-/

namespace Logo

variable {σ : Type}

/-- Whether a statement writes a value by `set` or by its return binding. -/
inductive StatementRun.Writes (i : Interpreter σ) : StatementRun σ → Value → Prop
  | set {effort : ℕ} {frame : FrameId} {s : Statement} {start announced : Machine σ} {path : String}
      {a : Actual} {rest : List Actual} {store : Store}
      (hannounce : (i.hooks.announce s).apply start = some (.ok (), announced))
      (hcommand : i.registry.find? s.label = some Command.set)
      (harguments : validate effort announced.store frame s.label
        (Command.set : Command σ).signature s.arguments = pure (.word path :: a :: rest))
      (hset : announced.store.set effort frame path a.toValue = pure store) :
      Writes i ⟨effort, frame, s, start⟩ a.toValue
  | binding {effort : ℕ} {frame : FrameId} {s : Statement}
      {start announced reached bound : Machine σ} {flow : Flow} {v : Value}
      (hannounce : (i.hooks.announce s).apply start = some (.ok (), announced))
      (hdispatch : (i.dispatch (i.runner effort) frame s).apply announced =
        some (.ok flow, reached))
      (htarget : s.target.isSome = true) (hvalue : flow.value? = some v)
      (hbind : (Interpreter.bindTarget effort frame s flow).apply reached = some (.ok (), bound)) :
      Writes i ⟨effort, frame, s, start⟩ v

/-! ## Runs in a region -/

/-- Whether a run can go on in a frame: the frame is in use and in reach, and the store is sound. -/
structure Region.Safe (R : Region) (s : Store) (frame : FrameId) : Prop where
  sound : R.Sound s
  has : R.Has frame
  live : s.isLive frame = true

namespace Region.Safe

variable {R : Region} {s s' : Store} {frame : FrameId}

/-- A frame in which a run can go on is older than those to come. -/
theorem lt_next (h : R.Safe s frame) : frame < s.next := by
  obtain ⟨f, hf, rfl⟩ := Store.isLive_iff.mp h.live
  exact h.sound.ordered.fresh f hf

/-- A run can go on in a frame in any sound store with the same frames in use. -/
theorem of_isLive (h : R.Safe s frame) (hs : R.Sound s')
    (hlive : ∀ id, s'.isLive id = s.isLive id) :
    R.Safe s' frame :=
  ⟨hs, h.has, (hlive frame).trans h.live⟩

/-- Checked arguments hold code that lasts as long as the frame. -/
theorem arguments (h : R.Safe s frame) {effort : ℕ} {label : String} {signature : Signature}
    {arguments : List Argument} {actuals : List Actual}
    (hvalidate : validate effort s frame label signature arguments = pure actuals) :
    ∀ a ∈ actuals, a.toValue.AllCode (R.Lasts s frame) :=
  allCode_of_validate (fun _ _ hv => h.sound.find? h.has hv)
    (fun _ _ _ => Region.Sound.lasts_self h.has h.live rfl) hvalidate

/-- A procedure lasts as long as the frame that it is called from, and so do its arguments. -/
theorem procedure (h : R.Safe s frame) {effort : ℕ} {label : String} {signature : Signature}
    {arguments : List Argument} {actuals : List Actual} {code : Code}
    (hprocedure : s.procedure? frame label = some code)
    (hvalidate : validate effort s frame label signature arguments = pure actuals) :
    Held (R.Lasts s frame) code (some (bindParams code.params actuals)) :=
  ⟨Store.of_procedure? (fun _ _ hv => h.sound.find? h.has hv) hprocedure,
    forall_bindParams (h.arguments hvalidate) code.params⟩

/-- A block that lasts as long as the frame can run in a new frame, with bindings that last as
long. -/
theorem blockRun {inv : Invocation σ} (h : R.Safe inv.start.store frame)
    (hheld : Held (R.Lasts inv.start.store frame) inv.code inv.bindings) (effort : ℕ) :
    R.Safe (inv.blockRun effort).start.store (inv.blockRun effort).frame where
  sound := h.sound.push h.lt_next hheld.1 hheld.2
  has := .inr h.sound.first_le
  live := Store.isLive_iff.mpr ⟨_, List.mem_cons_self, rfl⟩

end Region.Safe

section Runs

variable {i : Interpreter σ} {R : Region} {m : Machine σ} {effort : ℕ} {frame : FrameId}

open Logo.Action

/-- Frames stay in use while an action runs. -/
theorem Action.Ends.isLive {α : Type} {a : Action σ α} {P : Fault → Prop} {grows : FrameId → Prop}
    (h : a.Ends R.Sound P m) (hkeeps : a.Keeps (Machine.Becomes grows)) (hm : m.store.Ordered) :
    a.Ends (fun s => R.Sound s ∧ ∀ id, s.isLive id = m.store.isLive id) P m := by
  intro r m' hr
  obtain ⟨hsound, hfault⟩ := h r m' hr
  exact ⟨⟨hsound, (hkeeps m r m' hr hm).isLive⟩, hfault⟩

/-- A block that ends well in its new frame ends well when the frame is dropped. -/
theorem Invocation.ends (inv : Invocation σ) (hregistry : i.registry = .standard)
    {P : Fault → Prop} (hsafe : R.Safe inv.start.store frame)
    (hcode : R.Lasts inv.start.store frame inv.code)
    (hblock : (i.runBlock effort inv.code.body inv.start.store.next inv.procedure).Ends R.Sound P
      (inv.blockRun effort).start) :
    ((i.runner effort).invoke inv.code inv.bindings inv.procedure).Ends R.Sound P inv.start := by
  intro r m' hr
  rw [Interpreter.apply_invoke (hsafe.sound.isLive hcode)] at hr
  obtain ⟨⟨r₁, m₁⟩, hrun, heq⟩ := Option.map_eq_some_iff.mp hr
  cases heq
  obtain ⟨hsound, hfault⟩ := hblock _ _ hrun
  have hbecomes := i.keeps_names_runBlock hregistry _ _ _ _ _ _ _ hrun
    (hsafe.sound.ordered.push _ _)
  exact ⟨hsafe.sound.drop hbecomes hsound, hfault⟩

/-- Checking arguments leaves the store sound and is not at fault for code that has outlived its
frame. -/
theorem ends_validate (hsound : R.Sound m.store) (label : String) (signature : Signature)
    (arguments : List Argument) :
    (ofEval (validate effort m.store frame label signature arguments) : Action σ _).Ends R.Sound
      (· ≠ .expiredScope) m :=
  .ofEval hsound ((raises_validate _ _ _).mono fun _ hf => hf.ne_expiredScope)

/-- Evaluating a statement is not at fault for code that has outlived its frame. -/
theorem raises_evaluateStatement {store : Store} (s : Statement) :
    (evaluateStatement effort store frame s).Raises (· ≠ .expiredScope) := by
  unfold evaluateStatement
  split
  · exact .throw (by simp)
  · split
    · exact .throw (by simp)
    · exact (raises_evaluate _ _ _).mono fun _ hf => hf.ne_expiredScope

/-- All blocks of a control command start in a safe state, and the command ends in one. -/
theorem Control.ends (c : Control) (hregistry : i.registry = .standard) {arguments : List Actual}
    (hsafe : R.Safe m.store frame)
    (harguments : ∀ a ∈ arguments, a.toValue.AllCode (R.Lasts m.store frame))
    (hblocks : ∀ call ∈
        (c.script effort i.settings frame arguments).calls (i.runner effort).invoke m,
      call.start.store.isLive call.code.frame = true →
      R.Safe (call.invocation.blockRun effort).start.store call.start.store.next →
        (i.runBlock effort call.code.body call.start.store.next false).Ends R.Sound
          (· ≠ .expiredScope) (call.invocation.blockRun effort).start) :
    (∀ call ∈ (c.script effort i.settings frame arguments).calls (i.runner effort).invoke m,
      call.start.store.isLive call.code.frame = true ∧
        R.Safe (call.invocation.blockRun effort).start.store call.start.store.next) ∧
    ((c.script effort i.settings frame arguments).run (i.runner effort).invoke).Ends R.Sound
      (· ≠ .expiredScope) m := by
  -- The frames in use are the same wherever a block of the command starts, so that the code of the
  -- arguments still lasts there.
  let Q : Store → Prop := fun s => R.Sound s ∧ ∀ id, s.isLive id = m.store.isLive id
  have hstart (call : Call σ) (hQ : Q call.start.store)
      (hheld : Held (R.Lasts m.store frame) call.code call.bindings) :
      R.Safe call.start.store frame ∧
        Held (R.Lasts call.start.store frame) call.code call.bindings := by
    have hlasts c (hc : R.Lasts m.store frame c) : R.Lasts call.start.store frame c :=
      hc.mono (Nat.le_refl _) fun h => (hQ.2 _).trans h
    exact ⟨hsafe.of_isLive hQ.1 hQ.2, hlasts _ hheld.1, fun b hb => (hheld.2 b hb).mono hlasts⟩
  have hcalls : ∀ call ∈
        (c.script effort i.settings frame arguments).calls (i.runner effort).invoke m,
      Q call.start.store → Held (R.Lasts m.store frame) call.code call.bindings →
        ((i.runner effort).invoke call.code call.bindings false).Ends Q (· ≠ .expiredScope)
          call.start := by
    intro call hcall hQ hheld
    obtain ⟨hsafe', hheld'⟩ := hstart call hQ hheld
    have hblock := hblocks call hcall (hsafe'.sound.isLive hheld'.1) (hsafe'.blockRun hheld' effort)
    have hinvoke := call.invocation.ends hregistry hsafe' hheld'.1 hblock
    have hkeeps := i.keeps_names_invoke hregistry effort call.code call.bindings false
    intro r m' hr
    obtain ⟨⟨hsound, hlive⟩, hfault⟩ := hinvoke.isLive hkeeps hsafe'.sound.ordered r m' hr
    exact ⟨⟨hsound, fun id => (hlive id).trans (hQ.2 id)⟩, hfault⟩
  obtain ⟨hstarts, hends⟩ := (c.script_admits effort i.settings frame harguments).ends
    (Q := Q) ⟨hsafe.sound, fun _ => rfl⟩ hcalls
  refine ⟨fun call hcall => ?_, fun r m' hr => ?_⟩
  · obtain ⟨hQ, hheld⟩ := hstarts call hcall
    obtain ⟨hsafe', hheld'⟩ := hstart call hQ hheld
    exact ⟨hsafe'.sound.isLive hheld'.1, hsafe'.blockRun hheld' effort⟩
  · obtain ⟨hQ, hfault⟩ := hends r m' hr
    exact ⟨hQ.1, hfault⟩

/-- An effect in a frame ends well if what it makes holds code that lasts as long as the frame, and
what it sets holds none. -/
theorem Effect.ends {effect : Effect} (hsafe : R.Safe m.store frame)
    (hfail : ∀ f, effect = .fail f → f ≠ .expiredScope)
    (hcreate : ∀ path v, effect = .create path v → v.AllCode (R.Lasts m.store frame))
    (hset : ∀ path v s, effect = .set path v → m.store.set effort frame path v = pure s →
      v.codes = []) :
    (effect.run effort frame : Action σ Flow).Ends R.Sound (· ≠ .expiredScope) m := by
  cases effect with
  | finish flow => exact .pure hsafe.sound
  | fail f => exact .fail hsafe.sound (hfail f rfl)
  | send message => exact (Ends.publish hsafe.sound message).bind fun _ _ _ h => .pure h
  | create path v =>
    refine Ends.bind (.updateStore hsafe.sound ?_ fun s hs => ?_) fun _ _ _ h => .pure h
    · exact (Store.raises_create path v).mono fun f hf => hf.ne_expiredScope
    · exact hsafe.sound.create hsafe.has (hcreate path v rfl) hs
  | set path v =>
    refine Ends.bind (.updateStore hsafe.sound ?_ fun s hs => ?_) fun _ _ _ h => .pure h
    · exact (Store.raises_set path v).mono fun f hf => hf.ne_expiredScope
    · exact hsafe.sound.set hsafe.has (hset path v s rfl hs) hs

/-- What a statement of a safe run may rely on: the hook before it is not at fault, no code is
written into older frames, and the blocks that it runs end well. -/
structure StatementRun.Fair (i : Interpreter σ) (R : Region) (st : StatementRun σ) : Prop where
  standard : i.registry = .standard
  hooks : ∀ s outbox host failure, (i.hooks.beforeStatement s outbox host).1 = .error failure →
    failure.fault ≠ .expiredScope
  safe : R.Safe st.start.store st.frame
  writes : ∀ v, st.Writes i v → v.codes = []
  blocks : ∀ inv, st.Invokes i inv → inv.start.store.isLive inv.code.frame = true →
    R.Safe (inv.blockRun st.effort).start.store inv.start.store.next →
      (i.runBlock st.effort inv.code.body inv.start.store.next inv.procedure).Ends R.Sound
        (· ≠ .expiredScope) (inv.blockRun st.effort).start

namespace StatementRun.Fair

variable {s : Statement} {start announced : Machine σ}

/-- After a fair hook, a run can go on in the same frame. -/
theorem safe_announced (h : Fair i R ⟨effort, frame, s, start⟩)
    (hannounce : (i.hooks.announce s).apply start = some (.ok (), announced)) :
    R.Safe announced.store frame := by
  rw [Hooks.store_of_announce hannounce]
  exact h.safe

/-- The blocks that a statement runs belong to frames in use, and start in a safe state. -/
theorem of_invokes {st : StatementRun σ} (h : st.Fair i R) {inv : Invocation σ}
    (hinvokes : st.Invokes i inv) : inv.start.store.isLive inv.code.frame = true ∧
      R.Safe (inv.blockRun st.effort).start.store inv.start.store.next := by
  cases hinvokes with
  | control hannounce hcommand harguments hcall =>
    have hsafe := h.safe_announced hannounce
    refine (Control.ends _ h.standard hsafe (hsafe.arguments harguments) ?_).1 _ hcall
    exact fun call hcall => h.blocks call.invocation (.control hannounce hcommand harguments hcall)
  | procedure hannounce hcommand hprocedure harguments =>
    have hsafe := h.safe_announced hannounce
    have hheld := hsafe.procedure hprocedure harguments
    exact ⟨hsafe.sound.isLive hheld.1, hsafe.blockRun hheld _⟩

/-- What a statement says ends well. -/
theorem ends_dispatch (h : Fair i R ⟨effort, frame, s, start⟩)
    (hannounce : (i.hooks.announce s).apply start = some (.ok (), announced)) :
    (i.dispatch (i.runner effort) frame s).Ends R.Sound (· ≠ .expiredScope) announced := by
  have hsafe := h.safe_announced hannounce
  refine (Ends.store hsafe.sound).bind fun store m hstore _ => ?_
  cases hstore
  cases hfind : i.registry.find? s.label with
  | some command =>
    dsimp only
    refine (ends_validate hsafe.sound _ _ _).bind fun arguments m harguments _ => ?_
    obtain ⟨harguments, rfl⟩ := of_apply_ofEval harguments
    have hcodes := hsafe.arguments harguments
    obtain ⟨hmem, hlabel⟩ := Registry.mem_of_find?_standard (h.standard ▸ hfind)
    rcases Command.standard_cases hmem with ⟨c, rfl⟩ | ⟨effect, hdoes⟩
    · rw [c.handler_run]
      refine (c.ends h.standard hsafe hcodes fun call hcall => ?_).2
      exact h.blocks call.invocation (.control hannounce hfind harguments hcall)
    · rw [hdoes.handler_run]
      have hof := hdoes.isOf arguments
      refine Effect.ends hsafe (fun f hf => ?_) (fun path v hv => ?_) fun path v s' hv hset => ?_
      · rw [hf] at hof
        rcases hof with ⟨flaw, rfl⟩ | hexpression
        · simp
        · exact Fault.IsEvaluation.ne_expiredScope (.inl hexpression)
      · rw [hv] at hof
        obtain ⟨_, a, ha, rfl | ⟨code, params, rfl, rfl⟩⟩ := hof
        · exact hcodes a ha
        · have hcode : R.Lasts m.store frame code := Value.allCode_code.mp (hcodes _ ha)
          exact Value.allCode_code.mpr hcode
      · rw [hv] at hof
        obtain ⟨rfl, a, rest, rfl, rfl⟩ := hof
        exact h.writes _ (.set hannounce hfind harguments hset)
  | none =>
    dsimp only
    cases hprocedure : announced.store.procedure? frame s.label with
    | some code =>
      refine (Ends.store hsafe.sound).bind fun store m hstore _ => ?_
      cases hstore
      refine (ends_validate hsafe.sound _ _ _).bind fun arguments m harguments _ => ?_
      obtain ⟨harguments, rfl⟩ := of_apply_ofEval harguments
      have hheld := hsafe.procedure hprocedure harguments
      have hinvokes := Invokes.procedure hannounce hfind hprocedure harguments
      exact Invocation.ends _ h.standard hsafe hheld.1
        (h.blocks _ hinvokes (hsafe.sound.isLive hheld.1) (hsafe.blockRun hheld effort))
    | none =>
      refine (Ends.ofEval hsafe.sound ?_).bind fun _ _ _ hsound => .pure hsound
      exact raises_evaluateStatement _

/-- A return binding ends well. -/
theorem ends_bindTarget (h : Fair i R ⟨effort, frame, s, start⟩)
    (hannounce : (i.hooks.announce s).apply start = some (.ok (), announced)) {flow : Flow}
    {reached : Machine σ}
    (hdispatch : (i.dispatch (i.runner effort) frame s).apply announced = some (.ok flow, reached))
    (hsound : R.Sound reached.store) :
    (Interpreter.bindTarget effort frame s flow).Ends R.Sound (· ≠ .expiredScope) reached := by
  have hwritten {v : Value} (htarget : s.target.isSome = true) (hvalue : flow.value? = some v)
      {bound : Machine σ} (hbind : (Interpreter.bindTarget effort frame s flow).apply reached =
        some (.ok (), bound)) : v.codes = [] :=
    h.writes v (.binding hannounce hdispatch htarget hvalue hbind)
  have hhas := h.safe.has
  unfold Interpreter.bindTarget at hwritten ⊢
  cases htarget : s.target with
  | none => exact .pure hsound
  | some target =>
    rw [htarget] at hwritten
    cases hvalue : flow.value? with
    | none => exact .fail hsound (by simp)
    | some v =>
      rw [hvalue] at hwritten
      dsimp only at hwritten ⊢
      refine .updateStore hsound ?_ fun store hstore => ?_
      · split
        · exact (Store.raises_create _ v).mono fun f hf => hf.ne_expiredScope
        · exact (Store.raises_set _ v).mono fun f hf => hf.ne_expiredScope
      · have hbind := apply_updateStore (fun store =>
          if target.fresh then store.create effort frame target.name v
          else store.set effort frame target.name v) reached
        rw [hstore] at hbind
        have hcodes := hwritten rfl rfl hbind
        split at hstore
        · exact hsound.create hhas (Value.allCode_of_codes_eq_nil hcodes) hstore
        · exact hsound.set hhas hcodes hstore

/-- A statement ends well. -/
theorem ends {st : StatementRun σ} (h : st.Fair i R) :
    (i.runStatement (i.runner st.effort) st.frame st.statement).Ends R.Sound (· ≠ .expiredScope)
      st.start := by
  refine Ends.bind ?_ fun _ announced hannounce _ => ?_
  · intro r m' hr
    refine ⟨Hooks.store_of_announce hr ▸ h.safe.sound, fun failure hfailure => ?_⟩
    obtain ⟨hresult, _⟩ := Prod.mk.inj (Option.some.inj hr)
    exact h.hooks _ _ _ failure (hresult.trans hfailure)
  · refine (h.ends_dispatch hannounce).bind fun flow reached hdispatch hsound => ?_
    exact (h.ends_bindTarget hannounce hdispatch hsound).bind fun _ _ _ hbound => .pure hbound

end StatementRun.Fair

/-- In a block that starts in a safe state, and in all blocks inside it, every statement starts in
one, if no code is written into older frames. -/
theorem BlockRun.safe (hregistry : i.registry = .standard)
    (hhooks : ∀ s outbox host failure, (i.hooks.beforeStatement s outbox host).1 = .error failure →
      failure.fault ≠ .expiredScope) {b : BlockRun σ} (hsafe : R.Safe b.start.store b.frame)
    (hwrites : ∀ st v, b.Contains i st → st.Writes i v → v.codes = []) :
    (∀ st, b.Contains i st → st.Fair i R) ∧ ∀ procedure,
      (i.runBlock b.effort b.body b.frame procedure).Ends R.Sound (· ≠ .expiredScope) b.start := by
  generalize heffort : b.effort = effort
  induction effort using Nat.strong_induction_on generalizing b with
  | _ effort ih =>
    subst heffort
    -- The blocks that a statement runs get less effort than the block of the statement.
    have hinner {st : StatementRun σ} (hst : b.Starts i st) {inv : Invocation σ}
        (hinv : st.Invokes i inv) (hlive : inv.start.store.isLive inv.code.frame = true)
        (hinvsafe : R.Safe (inv.blockRun st.effort).start.store (inv.blockRun st.effort).frame) :=
      ih st.effort hst.effort_lt hinvsafe
        (fun st' v hst' => hwrites st' v (.nested hst hinv hlive hst')) rfl
    have hfair {st : StatementRun σ} (hst : b.Starts i st)
        (hstsafe : R.Safe st.start.store b.frame) : st.Fair i R :=
      { standard := hregistry
        hooks := hhooks
        safe := hst.frame_eq ▸ hstsafe
        writes := fun v => hwrites st v (.direct hst)
        blocks := fun inv hinv hlive hinvsafe => (hinner hst hinv hlive hinvsafe).2 inv.procedure }
    obtain ⟨hstarts, hends⟩ := BlockRun.ends (i := i) (P := (· ≠ .expiredScope))
      (Q := (R.Safe · b.frame)) hsafe (by simp) fun st hst hstsafe => by
        have hkeeps : (i.runStatement (i.runner st.effort) st.frame st.statement).Keeps
            (Machine.Becomes fun _ => True) :=
          i.keeps_names_runStatement hregistry (i.keeps_names_invoke hregistry st.effort)
            fun _ => trivial
        intro r m' hr
        obtain ⟨⟨hsound, hlive⟩, hfault⟩ :=
          (hfair hst hstsafe).ends.isLive hkeeps hstsafe.sound.ordered r m' hr
        exact ⟨hstsafe.of_isLive hsound hlive, hfault⟩
    refine ⟨fun st hst => ?_, fun procedure r m' hr => ?_⟩
    · cases hst with
      | direct hst => exact hfair hst (hstarts st hst)
      | nested hst hinv hlive hst' =>
        have hinvsafe := ((hfair hst (hstarts _ hst)).of_invokes hinv).2
        exact (hinner hst hinv hlive hinvsafe).1 st hst'
    · obtain ⟨hend, hfault⟩ := hends procedure r m' hr
      exact ⟨hend.sound, hfault⟩

end Runs

/-- **Code runs only while its frame is in use.** A session starts in a frame whose code, as far as
the frame and those around it hold any, belongs to these frames. If no `set` and no return binding
of the session writes a value that holds code, then every block that a statement of the session
runs, at any depth, belongs to a frame that is in use when the block starts. So neither a statement
nor the session fails because the frame of a block is gone, unless a hook reports this failure on
its own account. -/
theorem code_runs_in_live_frames (settings : Settings) (hooks : Hooks σ) (effort : ℕ)
    (program : List Statement) (frame : FrameId) (m : Machine σ) :
    let i : Interpreter σ := { settings, registry := .standard, hooks }
    let b := i.sessionBlock effort program frame m
    m.store.Ordered → m.store.isLive frame = true →
    (∀ f ∈ m.store.chain frame, f.AllCode fun c => ∃ g ∈ m.store.chain frame, g.id = c.frame) →
    (∀ s outbox host failure, (hooks.beforeStatement s outbox host).1 = .error failure →
      failure.fault ≠ .expiredScope) →
    (∀ st v, b.Contains i st → st.Writes i v → v.codes = []) →
      (∀ st, b.Contains i st →
        (∀ inv, st.Invokes i inv → inv.start.store.isLive inv.code.frame = true) ∧
        ∀ failure m', st.outcome i = some (.error failure, m') → failure.fault ≠ .expiredScope) ∧
      ∀ failure m', b.outcome i false = some (.error failure, m') →
        failure.fault ≠ .expiredScope := by
  intro i b hordered hlive hcodes hhooks hwrites
  have hsound := Region.sound_start hordered hcodes
  have hhas : (Region.start m.store frame).Has frame := by
    obtain ⟨f, hf, rfl⟩ := Store.isLive_iff.mp hlive
    exact .inl (List.mem_map_of_mem (Frame.mem_chain_self hordered.newest_first hf))
  obtain ⟨hfair, hends⟩ := BlockRun.safe rfl hhooks ⟨hsound, hhas, hlive⟩ hwrites
  refine ⟨fun st hst => ⟨fun inv hinv => ((hfair st hst).of_invokes hinv).1, ?_⟩, ?_⟩
  · exact fun failure m' houtcome => ((hfair st hst).ends _ _ houtcome).2 failure rfl
  · exact fun failure m' houtcome => (hends false _ _ houtcome).2 failure rfl

/-- The condition of a `while` runs in the frame that the `while` stands in. -/
theorem code_runs_in_live_frames_while :
    let i : Interpreter Unit := { registry := .standard }
    let b : BlockRun Unit := i.sessionBlock 4
      [⟨"while", [.block ⟨0, ⟨1, 7⟩⟩ [⟨"return", [], none, ⟨1, 9⟩⟩], .block ⟨0, ⟨1, 18⟩⟩ []],
        none, .start⟩] 0
      { store := ({} : Store).push none none, outbox := { capacity := 64 }, host := () }
    (∀ st v, b.Contains i st → st.Writes i v → v.codes = []) ∧
      (∃ st inv, b.Contains i st ∧ st.Invokes i inv ∧
        inv.code.body = [⟨"return", [], none, ⟨1, 9⟩⟩] ∧
        inv.start.store.isLive inv.code.frame = true) ∧
      ∀ failure m', b.outcome i false = some (.error failure, m') →
        failure.fault ≠ .expiredScope := by
  intro i b
  let m : Machine Unit :=
    { store := ({} : Store).push none none, outbox := { capacity := 64 }, host := () }
  let leave : Statement := ⟨"return", [], none, ⟨1, 9⟩⟩
  let loop : Statement :=
    ⟨"while", [.block ⟨0, ⟨1, 7⟩⟩ [leave], .block ⟨0, ⟨1, 18⟩⟩ []], none, .start⟩
  let condition : Code := { block := ⟨0, ⟨1, 7⟩⟩, body := [leave], frame := 0 }
  let body : Code := { block := ⟨0, ⟨1, 18⟩⟩, body := [], frame := 0 }
  let call : Call Unit := {
    role := .condition
    code := condition
    bindings := none
    start := { m with depth := 1 }
    outcome := ((i.runner 3).invoke condition none false).apply { m with depth := 1 } }
  have hcalls : (Control.script .whileTrue 3 i.settings 0 [.value (.code condition),
      .value (.code body)]).calls (i.runner 3).invoke { m with depth := 1 } = [call] := by
    change (whileScript condition _ 3).calls _ _ = _
    rw [whileScript, Script.calls]
    rfl
  have hquiet (st : StatementRun Unit) (hst : st.statement = loop ∨ st.statement = leave)
      (v : Value) : ¬st.Writes i v := by
    intro hwrites
    cases hwrites with
    | set _ hcommand _ _ =>
      rcases hst with rfl | rfl
      · exact absurd (congrArg Command.name (Option.some.inj hcommand)) (by decide)
      · exact absurd (congrArg Command.name (Option.some.inj hcommand)) (by decide)
    | binding _ _ htarget _ _ =>
      rcases hst with rfl | rfl
      · cases htarget
      · cases htarget
  have hleave (st : StatementRun Unit) (hst : st.statement = leave) (inv : Invocation Unit) :
      ¬st.Invokes i inv := by
    intro hinvokes
    cases hinvokes with
    | @control _ _ _ _ _ c _ _ _ hcommand _ _ =>
      subst hst
      have hname := congrArg Command.name (Option.some.inj hcommand)
      cases c <;> exact absurd hname (by decide)
    | procedure _ hcommand _ _ =>
      subst hst
      cases hcommand
  have hloop (inv : Invocation Unit)
      (hinv : StatementRun.Invokes i ⟨3, 0, loop, { m with depth := 1 }⟩ inv) :
      inv = call.invocation := by
    cases hinv with
    | @control _ _ _ _ _ c _ _ hannounce hcommand harguments hcall =>
      have hname := congrArg Command.name (Option.some.inj hcommand)
      obtain rfl : c = .whileTrue := by
        cases c
        case whileTrue => rfl
        all_goals exact absurd hname (by decide)
      obtain ⟨_, rfl⟩ := Prod.mk.inj (Option.some.inj hannounce)
      cases harguments
      exact congrArg Call.invocation (List.mem_singleton.mp (hcalls ▸ hcall))
    | procedure _ hcommand _ _ => cases hcommand
  have hwrites (st : StatementRun Unit) (v : Value) (hst : b.Contains i st) (hv : st.Writes i v) :
      v.codes = [] := by
    refine absurd hv (hquiet st ?_ v)
    cases hst with
    | direct hst => exact .inl (List.mem_singleton.mp hst.mem_body)
    | nested hst hinv _ hst' =>
      obtain rfl := hst.eq_of_singleton
      obtain rfl := hloop _ hinv
      cases hst' with
      | direct hst' => exact .inr (List.mem_singleton.mp hst'.mem_body)
      | nested hst' hinv' _ _ =>
        exact absurd hinv' (hleave _ (List.mem_singleton.mp hst'.mem_body) _)
  have hordered : m.store.Ordered := Store.Ordered.push ⟨.nil, by simp⟩ none none
  obtain ⟨hstatements, hblock⟩ := code_runs_in_live_frames i.settings i.hooks 4 [loop] 0 m hordered
    (by decide) (fun f hf => by cases List.mem_singleton.mp hf; simp [Frame.AllCode])
    (fun _ _ _ _ hfailure => by cases hfailure) hwrites
  have hst : BlockRun.Starts i ⟨4, [] ++ loop :: [], 0, m⟩ ⟨3, 0, loop, { m with depth := 1 }⟩ :=
    .intro (by decide) rfl
  have hinv : StatementRun.Invokes i ⟨3, 0, loop, { m with depth := 1 }⟩ call.invocation :=
    .control rfl rfl rfl (hcalls ▸ List.mem_singleton_self call)
  exact ⟨hwrites, ⟨_, _, .direct hst, hinv, rfl, (hstatements _ (.direct hst)).1 _ hinv⟩, hblock⟩

end Logo
