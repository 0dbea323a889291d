import Logo.Proofs.Interpreter.Agree
import Logo.Proofs.Interpreter.Keeps
import Logo.Proofs.Interpreter.Origin

/-!
# Messages stay sent

If the hooks of a host take no message back, then each action only adds to the messages that were
sent. So what a statement has sent by its end is still sent when a block around it has ended. If the
statement fails, then the block around it fails as well, with the same failure and the same
messages, whatever the hooks do.
-/

namespace Logo

variable {σ α β γ : Type}

/-- Whether a host takes no message back when it is asked before statements. -/
def Hooks.TakesNothingBack (hooks : Hooks σ) : Prop :=
  ∀ s outbox host, outbox.sent <+: (hooks.beforeStatement s outbox host).2.1.sent

/-- Whether what was sent stays sent, if the host takes no message back. -/
def Hooks.Retains (hooks : Hooks σ) (m m' : Machine σ) : Prop :=
  hooks.TakesNothingBack → m.outbox.sent <+: m'.outbox.sent

instance (hooks : Hooks σ) : IsPreorder (Machine σ) hooks.Retains where
  refl _ _ := List.prefix_rfl
  trans _ _ _ h h' hhooks := (h hhooks).trans (h' hhooks)

/-- If the outbox is as it was, what was sent stays sent. -/
theorem Hooks.retains_of_outbox {hooks : Hooks σ} {m m' : Machine σ}
    (h : m'.outbox = m.outbox) : hooks.Retains m m' := by
  intro _
  exact h ▸ List.prefix_rfl

open Logo.Action

/-! ## Actions -/

section

variable {hooks : Hooks σ}

/-- What was sent stays sent when a statement is announced. -/
theorem retains_announce (s : Statement) : (hooks.announce s).Keeps hooks.Retains := by
  intro m r m' h hhooks
  cases h
  exact hhooks s m.outbox m.host

/-- What was sent stays sent when a message is added. -/
theorem retains_publish (message : Message) :
    (publish message : Action σ Unit).Keeps hooks.Retains := by
  intro m r m' h _
  cases h
  exact ⟨[message], (Outbox.sent_push ..).symm⟩

/-- What was sent stays sent when the store changes. -/
theorem retains_updateStore (f : Store → Eval Store) :
    (updateStore f : Action σ Unit).Keeps hooks.Retains :=
  .updateStore (refl_of _) fun _ _ _ => Hooks.retains_of_outbox rfl

/-- What was sent stays sent when a value is given to the target of a statement. -/
theorem retains_bindTarget (effort : ℕ) (frame : FrameId) (s : Statement) (flow : Flow) :
    (Interpreter.bindTarget effort frame s flow : Action σ Unit).Keeps hooks.Retains :=
  fun _ _ _ h => Hooks.retains_of_outbox (outbox_host_of_bindTarget h).1

/-- What was sent stays sent in a block, if it does in its content. -/
theorem retains_nested {a : Action σ α} (h : a.Keeps hooks.Retains) (limit : ℕ) :
    (nested limit a).Keeps hooks.Retains :=
  h.nested (fun _ _ hinside => hinside) limit

/-- What was sent stays sent in a new frame, if it does in any frame. -/
theorem retains_inFrame {a : FrameId → Action σ α} (h : ∀ id, (a id).Keeps hooks.Retains)
    (code : Code) (bindings : Option Bindings) :
    (inFrame code bindings a).Keeps hooks.Retains :=
  .inFrame h code bindings fun _ _ hinside => hinside

/-- What was sent stays sent when a simple command is run. -/
theorem Effect.retains_run (effort : ℕ) (frame : FrameId) (effect : Effect) :
    (effect.run effort frame : Action σ Flow).Keeps hooks.Retains := by
  cases effect with
  | finish flow => exact .pure flow
  | fail f => exact .fail f
  | send message => exact (retains_publish message).bind fun _ => .pure _
  | create path v => exact (retains_updateStore _).bind fun _ => .pure _
  | set path v => exact (retains_updateStore _).bind fun _ => .pure _

end

/-! ## Statements and blocks -/

namespace Interpreter

variable {i : Interpreter σ}

/-- What was sent stays sent when a statement is run, if it does in the blocks that it runs. -/
theorem retains_runStatement (hregistry : i.registry = .standard) {effort : ℕ}
    (hinvoke : ∀ code bindings procedure,
      ((i.runner effort).invoke code bindings procedure).Keeps i.hooks.Retains)
    (frame : FrameId) (s : Statement) :
    (i.runStatement (i.runner effort) frame s).Keeps i.hooks.Retains := by
  refine keeps_runStatement (retains_announce s) ?_ (retains_bindTarget _ frame s)
  refine keeps_dispatch hinvoke fun command hcommand arguments => ?_
  obtain ⟨hmem, _⟩ := Registry.mem_of_find?_standard (hregistry ▸ hcommand)
  rcases Command.standard_cases hmem with ⟨control, rfl⟩ | ⟨effect, hdoes⟩
  · exact control.keeps_handler_run hinvoke frame arguments
  · rw [hdoes.handler_run]
    exact Effect.retains_run _ _ _

/-- What was sent stays sent when a block is run. -/
theorem retains_runBlock (hregistry : i.registry = .standard) (effort : ℕ)
    (body : List Statement) (frame : FrameId) (procedure : Bool) :
    (i.runBlock effort body frame procedure).Keeps i.hooks.Retains := by
  induction effort generalizing body frame procedure with
  | zero => exact .exhausted
  | succ effort ih =>
    have hinvoke code bindings procedure :
        ((i.runner effort).invoke code bindings procedure).Keeps i.hooks.Retains :=
      retains_inFrame (fun id => ih code.body id procedure) code bindings
    rw [runBlock_succ]
    exact (retains_nested (keeps_runStatements
      (fun s _ => retains_runStatement hregistry hinvoke frame s) none) _).bind fun _ => .pure _

/-- What was sent stays sent when a block is run in a new frame. -/
theorem retains_invoke (hregistry : i.registry = .standard) (effort : ℕ) (code : Code)
    (bindings : Option Bindings) (procedure : Bool) :
    ((i.runner effort).invoke code bindings procedure).Keeps i.hooks.Retains :=
  retains_inFrame (fun id => retains_runBlock hregistry effort code.body id procedure) code bindings

end Interpreter

/-! ## What runs a statement -/

/-- Whether `o'` is how something ends that goes on after the end `o` of a part of it: what was sent
stays sent, and a failure goes through, changed by `e`, with nothing more sent. -/
structure GoesOn (hooks : Hooks σ) (e : Failure → Failure)
    (o : Option (Except Failure α × Machine σ)) (o' : Option (Except Failure β × Machine σ)) :
    Prop where
  retains {r' : Except Failure β} {left' : Machine σ} (h : o' = some (r', left')) :
    ∃ r left, o = some (r, left) ∧ hooks.Retains left left'
  fails {f : Failure} {left : Machine σ} (h : o = some (.error f, left)) :
    ∃ left', o' = some (.error (e f), left') ∧ left'.outbox = left.outbox

namespace GoesOn

variable {hooks : Hooks σ} {o : Option (Except Failure α × Machine σ)}

/-- Every end goes on as itself. -/
theorem refl : GoesOn hooks id o o where
  retains hended := ⟨_, _, hended, refl_of hooks.Retains _⟩
  fails hfailed := ⟨_, hfailed, rfl⟩

/-- What goes on after a part that goes on after another one goes on after that one. -/
theorem trans {e e' : Failure → Failure} {o' : Option (Except Failure β × Machine σ)}
    {o'' : Option (Except Failure γ × Machine σ)} (h : GoesOn hooks e o o')
    (h' : GoesOn hooks e' o' o'') : GoesOn hooks (e' ∘ e) o o'' where
  retains hended := by
    obtain ⟨r', left', hended', hretains'⟩ := h'.retains hended
    obtain ⟨r, left, houtcome, hretains⟩ := h.retains hended'
    exact ⟨r, left, houtcome, trans_of hooks.Retains hretains hretains'⟩
  fails hfailed := by
    obtain ⟨left', hfailed', houtbox⟩ := h.fails hfailed
    obtain ⟨left'', hfailed'', houtbox'⟩ := h'.fails hfailed'
    exact ⟨left'', hfailed'', houtbox'.trans houtbox⟩

/-- The same, where the outer part does not change failures. -/
theorem trans_id {e : Failure → Failure} {o' : Option (Except Failure β × Machine σ)}
    {o'' : Option (Except Failure γ × Machine σ)} (h : GoesOn hooks e o o')
    (h' : GoesOn hooks id o' o'') : GoesOn hooks e o o'' :=
  h.trans h'

/-- A part at the end of which only the result, the store or the depth change. -/
theorem map {e : Failure → Failure} {g : Except Failure α → Except Failure β}
    {k : Machine σ → Machine σ} (hg : ∀ f, g (.error f) = .error (e f))
    (hk : ∀ m, (k m).outbox = m.outbox) : GoesOn hooks e o (o.map (Prod.map g k)) where
  retains hended := by
    obtain ⟨⟨r, left⟩, houtcome, heq⟩ := Option.map_eq_some_iff.mp hended
    cases heq
    exact ⟨r, left, houtcome, Hooks.retains_of_outbox (hk left)⟩
  fails {f left} hfailed := ⟨k left, by rw [hfailed, ← hg]; rfl, hk left⟩

/-- A part that is followed by actions. -/
theorem continueWith {f : α → Action σ β} (hf : ∀ x, (f x).Keeps hooks.Retains) :
    GoesOn hooks id o (Action.continueWith (fun x m => (f x).apply m) o) where
  retains hended := by
    rcases cases_of_continueWith hended with ⟨failure, houtcome, _⟩ | ⟨x, m, houtcome, hrest⟩
    · exact ⟨_, _, houtcome, refl_of hooks.Retains _⟩
    · exact ⟨_, _, houtcome, hf x m _ _ hrest⟩
  fails {failure left} hfailed := ⟨left, by rw [hfailed, continueWith_error]; rfl, rfl⟩

/-- Actions in a row go on after the first of them. -/
theorem bind {a : Action σ α} {f : α → Action σ β} {m : Machine σ}
    (hf : ∀ x, (f x).Keeps hooks.Retains) : GoesOn hooks id (a.apply m) ((a >>= f).apply m) := by
  rw [apply_bind]
  exact continueWith hf

end GoesOn

section

variable {i : Interpreter σ} {st : StatementRun σ} {v : Invocation σ} {b : BlockRun σ}

/-- A block goes on after each of its statements. -/
theorem BlockRun.Starts.goesOn (hregistry : i.registry = .standard) (h : b.Starts i st)
    (procedure : Bool) : GoesOn i.hooks (Failure.atLine · st.statement.pos.line) (st.outcome i)
      (b.outcome i procedure) := by
  have hblock : GoesOn i.hooks (Failure.atLine · st.statement.pos.line) (st.outcome i)
      (b.outcome i false) := by
    cases h with
    | @intro effort frame start reached before after last s hdepth hbefore =>
      have hstep s := Interpreter.retains_runStatement hregistry
        (Interpreter.retains_invoke hregistry effort) frame s
      have hline : GoesOn i.hooks (Failure.atLine · s.pos.line)
          ((i.runStatement (i.runner effort) frame s).apply reached)
          (((i.runStatement (i.runner effort) frame s).atLine s.pos.line).apply reached) := by
        rw [apply_atLine]
        exact .map (fun _ => rfl) fun _ => rfl
      rw [outcome, Interpreter.apply_runBlock hdepth, apply_runStatements_append hbefore]
      refine (hline.trans_id (.bind fun flow => ?_)).trans_id (.map (fun _ => rfl) fun _ => rfl)
      cases flow with
      | leave v => exact .pure _
      | next v => exact keeps_runStatements (fun s _ => hstep s) v
  cases procedure with
  | false => exact hblock
  | true =>
    rw [outcome, Interpreter.apply_runBlock_procedure]
    exact hblock.trans_id (.map (fun _ => rfl) fun _ => rfl)

/-- A statement goes on after each block that it runs. -/
theorem StatementRun.Invokes.goesOn (hregistry : i.registry = .standard) (h : st.Invokes i v)
    (hlive : v.start.store.isLive v.code.frame = true) :
    GoesOn i.hooks id ((v.blockRun st.effort).outcome i v.procedure) (st.outcome i) := by
  have hblock : GoesOn i.hooks id ((v.blockRun st.effort).outcome i v.procedure)
      (v.outcome i st.effort) := by
    rw [Invocation.outcome, Interpreter.apply_invoke hlive]
    exact .map (fun _ => rfl) fun _ => rfl
  refine hblock.trans_id ?_
  have hbinding {announced : Machine σ}
      (hannounce : (i.hooks.announce st.statement).apply st.start = some (.ok (), announced))
      (hdispatch : GoesOn i.hooks id (v.outcome i st.effort)
        ((i.dispatch (i.runner st.effort) st.frame st.statement).apply announced)) :
      GoesOn i.hooks id (v.outcome i st.effort) (st.outcome i) := by
    rw [outcome, Interpreter.runStatement, apply_bind, hannounce, continueWith_ok]
    exact hdispatch.trans_id (.bind fun flow =>
      (retains_bindTarget _ _ _ flow).bind fun _ => .pure flow)
  cases h with
  | control hannounce hcommand harguments hcall =>
    obtain ⟨before, after, hcalls⟩ := List.append_of_mem hcall
    obtain ⟨next, _, _, houtcome, hrun, _⟩ := Script.exists_next_of_calls hcalls
    refine hbinding hannounce ?_
    rw [Interpreter.apply_dispatch_command hcommand, apply_bind, harguments, apply_ofEval_pure,
      continueWith_ok, Control.handler_run]
    rw [houtcome] at hrun
    exact hrun ▸ .continueWith fun flow =>
      Script.keeps_run (Interpreter.retains_invoke hregistry _) (next flow)
  | procedure hannounce hcommand hprocedure harguments =>
    refine hbinding hannounce ?_
    rw [Interpreter.apply_dispatch_procedure hcommand hprocedure, apply_bind, harguments,
      apply_ofEval_pure, continueWith_ok]
    exact .refl

/-- What contains a statement goes on after it. -/
theorem BlockRun.Contains.goesOn (hregistry : i.registry = .standard) (h : b.Contains i st)
    (procedure : Bool) : GoesOn i.hooks (Failure.atLine · st.statement.pos.line) (st.outcome i)
      (b.outcome i procedure) := by
  induction h generalizing procedure with
  | direct hstarts => exact hstarts.goesOn hregistry procedure
  | @nested b outer st v hstarts hinvokes hlive _ ih =>
    have hinner := ((ih v.procedure).trans_id (hinvokes.goesOn hregistry hlive)).trans
      (hstarts.goesOn hregistry procedure)
    have hline : (Failure.atLine · outer.statement.pos.line) ∘
        (Failure.atLine · st.statement.pos.line) = (Failure.atLine · st.statement.pos.line) :=
      funext fun f => Failure.atLine_atLine ..
    rwa [hline] at hinner

end

end Logo
