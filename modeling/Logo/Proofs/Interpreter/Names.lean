import Logo.Proofs.Interpreter.Keeps
import Logo.Proofs.Interpreter.Occurrence
import Logo.Proofs.Path.Name
import Logo.Proofs.Store.Growth

/-!
# Blocks keep names

A block runs in a frame of its own. What it makes goes into this frame and is dropped with it, and
what it sets was there before. So the frames outside have the same names after a block as before,
and a name can come into the frame of a program only by a statement of the program itself.
-/

namespace Logo

variable {σ α : Type}

/-- Whether a statement makes a variable in its frame: by its command, or by its return binding. -/
def Statement.Declares (s : Statement) : Prop :=
  s.label = "new" ∨ s.label = "learn" ∨ ∃ target, s.target = some target ∧ target.fresh = true

/-- What can become of a machine whose frames are in order, by `Store.Becomes`. -/
def Machine.Becomes (grows : FrameId → Prop) (m m' : Machine σ) : Prop :=
  m.store.Ordered → m.store.Becomes grows m'.store

instance (grows : FrameId → Prop) : IsPreorder (Machine σ) (Machine.Becomes grows) where
  refl m _ := .refl grows m.store
  trans _ _ _ h h' hordered := (h hordered).trans (h' ((h hordered).ordered hordered))

open Logo.Action

variable {grows grows' : FrameId → Prop} {frame : FrameId}

/-- What makes no variables at all makes none outside of the frames that may grow. -/
theorem Action.Keeps.of_becomes {a : Action σ α} (h : a.Keeps (Machine.Becomes fun _ => False)) :
    a.Keeps (Machine.Becomes grows) :=
  h.mono fun _ _ hbecomes hordered => (hbecomes hordered).mono fun _ _ hfalse => hfalse.elim

/-- Announcing a statement does not touch the store. -/
theorem keeps_announce (hooks : Hooks σ) (s : Statement) :
    (hooks.announce s).Keeps (Machine.Becomes grows) := by
  intro m r m' h _
  cases h
  exact .refl grows m.store

/-- Sending a message does not touch the store. -/
theorem keeps_publish (message : Message) :
    (publish message : Action σ Unit).Keeps (Machine.Becomes grows) := by
  intro m r m' h _
  cases h
  exact .refl grows m.store

/-- An assignment makes no variable. -/
theorem keeps_set (effort : ℕ) (path : String) (v : Value) :
    (updateStore fun store => store.set effort frame path v : Action σ Unit).Keeps
      (Machine.Becomes grows) :=
  .of_becomes (.updateStore (refl_of _) fun _ _ hset hordered => Store.becomes_set hordered hset)

/-- A creation makes a variable in its own frame only. -/
theorem keeps_create (effort : ℕ) (path : String) (v : Value) (hgrows : grows frame) :
    (updateStore fun store => store.create effort frame path v : Action σ Unit).Keeps
      (Machine.Becomes grows) := by
  refine .updateStore (refl_of _) fun m s hcreate hordered => ?_
  refine (Store.becomes_create hordered hcreate).mono fun f _ hframe => ?_
  rwa [hframe]

/-- What a store can become does not depend on the depth. -/
theorem keeps_nested {a : Action σ α} (h : a.Keeps (Machine.Becomes grows)) (limit : ℕ) :
    (nested limit a).Keeps (Machine.Becomes grows) :=
  h.nested (fun _ _ hbecomes => hbecomes) limit

/-- An action in a new frame keeps the names of all other frames. -/
theorem keeps_inFrame {a : FrameId → Action σ α}
    (h : ∀ id, (a id).Keeps (Machine.Becomes (· = id))) (code : Code) (bindings : Option Bindings) :
    (inFrame code bindings a).Keeps (Machine.Becomes fun _ => False) :=
  .inFrame h code bindings fun _ _ hbecomes hordered =>
    Store.Becomes.drop hordered (hbecomes (hordered.push _ _))

/-- An effect in a frame gives this frame a name only if it makes a variable. -/
theorem Effect.keeps_run {effect : Effect} {effort : ℕ}
    (h : ∀ path v, effect = .create path v → grows frame) :
    (effect.run effort frame : Action σ Flow).Keeps (Machine.Becomes grows) := by
  cases effect with
  | finish flow => exact .pure flow
  | fail f => exact .fail f
  | send m => exact (keeps_publish m).bind fun _ => .pure _
  | create path v => exact (keeps_create effort path v (h path v rfl)).bind fun _ => .pure _
  | set path v => exact (keeps_set effort path v).bind fun _ => .pure _

namespace Interpreter

variable {i : Interpreter σ} {runner : Runner σ} {s : Statement}

/-- A return binding gives the frame a name only if it declares one. -/
theorem keeps_bindTarget {effort : ℕ} {flow : Flow} (hgrows : s.Declares → grows frame) :
    (bindTarget effort frame s flow : Action σ Unit).Keeps (Machine.Becomes grows) := by
  unfold bindTarget
  cases htarget : s.target with
  | none => exact .pure _
  | some target =>
    dsimp only
    cases flow.value? with
    | none => exact .fail _
    | some v =>
      dsimp only
      cases hfresh : target.fresh with
      | true => exact keeps_create effort _ v (hgrows (.inr (.inr ⟨target, htarget, hfresh⟩)))
      | false => exact keeps_set effort _ v

/-- A statement gives no frame a name but its own, and this only if it declares one. -/
theorem keeps_names_runStatement (hregistry : i.registry = .standard)
    (hinvoke : ∀ code bindings procedure, (runner.invoke code bindings procedure).Keeps
      (Machine.Becomes fun _ => False)) (hgrows : s.Declares → grows frame) :
    (i.runStatement runner frame s).Keeps (Machine.Becomes grows) := by
  have hinvoke' code bindings procedure : (runner.invoke code bindings procedure).Keeps
      (Machine.Becomes grows) := .of_becomes (hinvoke code bindings procedure)
  refine keeps_runStatement (keeps_announce i.hooks s) ?_ fun flow => keeps_bindTarget hgrows
  refine keeps_dispatch hinvoke' fun command hcommand arguments => ?_
  obtain ⟨hmem, hlabel⟩ := Registry.mem_of_find?_standard (hregistry ▸ hcommand)
  rcases Command.standard_cases hmem with ⟨c, rfl⟩ | ⟨effect, hdoes⟩
  · exact c.keeps_handler_run hinvoke' frame arguments
  · rw [hdoes.handler_run]
    refine Effect.keeps_run fun path v heffect => hgrows ?_
    have hof := hdoes.isOf arguments
    rw [heffect] at hof
    have hnew : s.label = "new" ∨ s.label = "learn" := by simpa using hof.1 hlabel
    exact hnew.imp_right .inl

/-- A block gives no frame a name but its own. -/
theorem keeps_names_runBlock (hregistry : i.registry = .standard) (effort : ℕ)
    (body : List Statement) (frame : FrameId) (procedure : Bool) :
    (i.runBlock effort body frame procedure).Keeps (Machine.Becomes (· = frame)) := by
  induction effort generalizing body frame procedure with
  | zero => exact .exhausted
  | succ effort ih =>
    have hinvoke code bindings procedure : ((i.runner effort).invoke code bindings procedure).Keeps
        (Machine.Becomes fun _ => False) :=
      keeps_inFrame (fun id => ih code.body id procedure) code bindings
    rw [runBlock_succ]
    refine (keeps_nested (keeps_runStatements (fun s _ => ?_) none) _).bind fun flow => .pure _
    exact keeps_names_runStatement hregistry hinvoke fun _ => rfl

/-- A block that runs in a new frame gives no other frame a name. -/
theorem keeps_names_invoke (hregistry : i.registry = .standard) (effort : ℕ) (code : Code)
    (bindings : Option Bindings) (procedure : Bool) :
    ((i.runner effort).invoke code bindings procedure).Keeps (Machine.Becomes fun _ => False) :=
  keeps_inFrame (fun id => keeps_names_runBlock hregistry effort code.body id procedure) code
    bindings

/-- The statements of a block give no frame a name but that of the block. -/
theorem becomes_of_starts (hregistry : i.registry = .standard) {b : BlockRun σ} {r : StatementRun σ}
    (h : b.Starts i r) : r.frame = b.frame ∧ b.start.Becomes (· = b.frame) r.start := by
  cases h with
  | @intro effort frame start reached before after last s hdepth hbefore =>
    refine ⟨rfl, ?_⟩
    have hstep s : (i.runStatement (i.runner effort) frame s).Keeps (Machine.Becomes (· = frame)) :=
      keeps_names_runStatement hregistry (keeps_names_invoke hregistry effort) fun _ => rfl
    have hbecomes := keeps_runStatements (fun s _ => hstep s) none _ _ _ hbefore
    exact hbecomes

end Interpreter

/-- **Blocks keep names.** However a block ends that runs in a new frame, as the body of a procedure
or not, all frames outside are the same as before, with the same names; so whatever block runs next
sees its own bindings and the names that were visible before the first block, and none that this
block has made. In a session, a frame can get a name only if it is the frame of the program, and it
gets the name from a statement of the program itself that makes a variable. -/
theorem blocks_keep_names (settings : Settings) (hooks : Hooks σ) :
    let i : Interpreter σ := { settings, registry := .standard, hooks }
    (∀ (effort : ℕ) (code : Code) (bindings : Option Bindings) (procedure : Bool) (m m' : Machine σ)
      (r : Except Failure Flow), m.store.Ordered →
      ((i.runner effort).invoke code bindings procedure).apply m = some (r, m') →
        m'.store.Ordered ∧
        m'.store.frames.map Frame.outline = m.store.frames.map Frame.outline ∧
        ∀ (next : Code) (nextBindings : Option Bindings) (name : String),
          ((m'.store.push (some next.frame) nextBindings).find? m'.store.next name).isSome = true ↔
            name ∈ (nextBindings.getD []).map Prod.fst ∨
              (m.store.find? next.frame name).isSome = true) ∧
    ∀ (effort : ℕ) (program : List Statement) (frame : FrameId) (m m' : Machine σ)
      (r : Except Failure Unit), m.store.Ordered →
      i.runSession effort program frame m = some (r, m') →
        m'.store.Ordered ∧
        ∀ (id : FrameId) (name : String), (m.store.own? id name).isSome = false →
          (m'.store.own? id name).isSome = true →
            id = frame ∧ ∃ st r' m'', (i.sessionBlock effort program frame m).Starts i st ∧
              st.statement.Declares ∧ (st.start.store.own? id name).isSome = false ∧
              st.outcome i = some (r', m'') ∧ (m''.store.own? id name).isSome = true := by
  intro i
  refine ⟨?_, ?_⟩
  · intro effort code bindings procedure m m' r hordered h
    have hbecomes := i.keeps_names_invoke rfl effort code bindings procedure m r m' h hordered
    refine ⟨hbecomes.ordered hordered, hbecomes.frames.map_outline, fun next nextBindings name => ?_⟩
    rw [Store.find?_push_isSome, hbecomes.find?_isSome]
  · intro effort program frame m m' r hordered h
    rcases Interpreter.store_of_runSession h with hstore | ⟨r₁, m₁, hran, hstore⟩
    · rw [hstore]
      refine ⟨hordered, fun id name hbefore hafter => ?_⟩
      rw [hbefore] at hafter
      cases hafter
    · have hbecomes := i.keeps_names_runBlock rfl effort program frame false _ r₁ m₁ hran hordered
      rw [hstore]
      refine ⟨hbecomes.ordered hordered, fun id name hbefore hafter => ?_⟩
      have hframe : id = frame := hbecomes.grows_of_own? hbefore hafter
      refine ⟨hframe, ?_⟩
      obtain ⟨st, r', m'', hstarts, hnot, houtcome, hhas⟩ :=
        BlockRun.exists_starts (P := fun store => (store.own? id name).isSome = true) hran
          (Bool.eq_false_iff.mp hbefore) hafter
      obtain ⟨_, hreached⟩ := i.becomes_of_starts rfl hstarts
      have hkeeps : (i.runStatement (i.runner st.effort) st.frame st.statement).Keeps
          (Machine.Becomes fun _ => st.statement.Declares) :=
        i.keeps_names_runStatement rfl (i.keeps_names_invoke rfl st.effort) fun h => h
      have hdeclares := (hkeeps _ _ _ houtcome ((hreached hordered).ordered hordered)).grows_of_own?
        (Bool.eq_false_iff.mpr hnot) hhas
      exact ⟨st, r', m'', hstarts, hdeclares, Bool.eq_false_iff.mpr hnot, houtcome, hhas⟩

/-- A procedure that a block makes is gone after the block; one that the program itself makes
stays. -/
theorem blocks_keep_names_learn :
    ∃ (i : Interpreter Unit) (m left ended : Machine Unit) (s : Statement) (st : StatementRun Unit),
      i = { registry := .standard } ∧ s.label = "learn" ∧
      ((i.runner 2).invoke { block := ⟨0, ⟨1, 1⟩⟩, body := [s], frame := 0 } none false).apply m =
        some (.ok (.next none), left) ∧
      left.store.frames.map Frame.outline = m.store.frames.map Frame.outline ∧
      (m.store.own? 0 "f").isSome = false ∧ i.runSession 2 [s] 0 m = some (.ok (), ended) ∧
      (ended.store.own? 0 "f").isSome = true ∧ (i.sessionBlock 2 [s] 0 m).Starts i st ∧
      st.statement.Declares := by
  let i : Interpreter Unit := { registry := .standard }
  let m : Machine Unit :=
    { store := ({} : Store).push none none, outbox := { capacity := 64 }, host := () }
  let s : Statement := ⟨"learn", [.text "f", .block ⟨0, ⟨1, 9⟩⟩ []], none, .start⟩
  let body (frame : FrameId) : Value := .code { block := ⟨0, ⟨1, 9⟩⟩, body := [], frame }
  let after (frame : FrameId) (m : Machine Unit) : Machine Unit :=
    { m with store := m.store.write frame "f" (body frame) }
  have hstatement (frame : FrameId) (m : Machine Unit) :
      (i.runStatement (i.runner 1) frame s).apply m = some (.ok (.next none), after frame m) := by
    have hdispatch : (i.dispatch (i.runner 1) frame s).apply m =
        ((Effect.create "f" (body frame)).run 1 frame : Action Unit Flow).apply m :=
      (apply_dispatch_of_command (i.runner 1) rfl rfl).trans
        (congrArg (Action.apply · m) (Command.learn_does.handler_run (i.runner 1) frame _))
    have hannounce : (i.hooks.announce s).apply m = some (.ok (), m) := rfl
    have hname : isIdentifier "f" = true := rfl
    rw [apply_runStatement hannounce, hdispatch, Effect.run, Action.apply_bind,
      Action.apply_updateStore, Store.create_of_isIdentifier _ _ _ hname]
    rfl
  have hblock (frame : FrameId) (m : Machine Unit) (hdepth : m.depth < 256) :
      (i.runBlock 2 [s] frame false).apply m = some (.ok (.next none), after frame m) := by
    rw [Interpreter.apply_runBlock hdepth, runStatements, Action.apply_bind, Action.atLine,
      Action.apply_ofFun, hstatement]
    rfl
  let code : Code := { block := ⟨0, ⟨1, 1⟩⟩, body := [s], frame := 0 }
  obtain ⟨left, hinvoke⟩ : ∃ left, ((i.runner 2).invoke code none false).apply m =
      some (.ok (.next none), left) := by
    refine ⟨(after 1 { m with store := m.store.push (some 0) none }).dropFrame 1, ?_⟩
    have hlive : m.store.isLive code.frame = true := by decide
    rw [Interpreter.apply_invoke hlive, hblock _ _ (by decide)]
    rfl
  have hsession : i.runSession 2 [s] 0 m = some (.ok (), after 0 m) := by
    have hran : (i.sessionBlock 2 [s] 0 m).outcome i false = some (.ok (.next none), after 0 m) :=
      hblock 0 m (by decide)
    rw [i.runSession_eq]
    exact congrArg (Option.map i.conclude) hran
  have hordered : m.store.Ordered := Store.Ordered.push ⟨.nil, by simp⟩ none none
  obtain ⟨_, houtline, _⟩ :=
    (blocks_keep_names i.settings i.hooks).1 2 code none false m _ _ hordered hinvoke
  obtain ⟨_, hnames⟩ := (blocks_keep_names i.settings i.hooks).2 2 [s] 0 m _ _ hordered hsession
  obtain ⟨_, st, _, _, hstarts, hdeclares, _⟩ := hnames 0 "f" rfl rfl
  exact ⟨i, m, left, after 0 m, s, st, rfl, rfl, hinvoke, houtline, rfl, hsession, rfl, hstarts,
    hdeclares⟩

end Logo
