import Logo.Host.Commands
import Logo.Proofs.Interpreter.Keeps
import Logo.Proofs.Interpreter.Occurrence

/-!
# The depth of nested blocks

A block runs one level deeper than what runs it, and however it ends, the depth is then as before.
So all statements of a block run at the same depth, which is at least one and does not exceed the
limit. A block that would exceed the limit fails before anything of it is run.
-/

namespace Logo

variable {σ α : Type}

/-- Whether a machine is as deep inside blocks as it was before. -/
def Machine.SameDepth (m m' : Machine σ) : Prop := m'.depth = m.depth

instance : IsPreorder (Machine σ) Machine.SameDepth where
  refl _ := rfl
  trans _ _ _ h h' := Eq.trans h' h

open Logo.Action

/-! ## Actions -/

/-- A change of the store leaves the depth as it was. -/
theorem sameDepth_updateStore (f : Store → Eval Store) :
    (updateStore f : Action σ Unit).Keeps Machine.SameDepth :=
  .updateStore (refl_of _) fun _ _ _ => rfl

/-- Sending a message leaves the depth as it was. -/
theorem sameDepth_publish (message : Message) :
    (publish message : Action σ Unit).Keeps Machine.SameDepth := by
  intro m r m' h
  cases h
  rfl

/-- The host has no access to the depth. -/
theorem sameDepth_announce (hooks : Hooks σ) (s : Statement) :
    (hooks.announce s).Keeps Machine.SameDepth := by
  intro m r m' h
  cases h
  rfl

/-- The level that a block enters is left again. -/
theorem sameDepth_nested {a : Action σ α} (h : a.Keeps Machine.SameDepth) (limit : ℕ) :
    (nested limit a).Keeps Machine.SameDepth := by
  refine h.nested (fun m m' hm' => ?_) limit
  have hinside : m'.depth = m.depth + 1 := hm'
  have hrise : m'.rise.depth = m'.depth - 1 := rfl
  change m'.rise.depth = m.depth
  omega

/-- What runs in a new frame leaves the depth as it was, if it does so in any frame. -/
theorem sameDepth_inFrame {a : FrameId → Action σ α}
    (h : ∀ id, (a id).Keeps Machine.SameDepth) (code : Code) (bindings : Option Bindings) :
    (inFrame code bindings a).Keeps Machine.SameDepth :=
  .inFrame h code bindings fun _ _ hinside => hinside

/-! ## Commands -/

namespace Command

/-- Whether a command leaves the depth as it was, if the blocks that it runs do. -/
def KeepsDepth (c : Command σ) : Prop :=
  ∀ runner : Runner σ,
    (∀ code bindings procedure,
      (runner.invoke code bindings procedure).Keeps Machine.SameDepth) →
    ∀ frame arguments, (c.handler.run runner frame arguments).Keeps Machine.SameDepth

/-- Each command of the language leaves the depth as it was. -/
theorem keepsDepth_of_mem_standard {c : Command σ} (h : c ∈ standard) : c.KeepsDepth := by
  intro runner hinvoke frame arguments
  rcases standard_cases h with ⟨control, rfl⟩ | ⟨effect, hdoes⟩
  · exact control.keeps_handler_run hinvoke frame arguments
  · rw [hdoes.handler_run]
    cases effect arguments with
    | finish flow => exact .pure flow
    | fail f => exact .fail f
    | send message => exact (sameDepth_publish message).bind fun _ => .pure _
    | create path v => exact (sameDepth_updateStore _).bind fun _ => .pure _
    | set path v => exact (sameDepth_updateStore _).bind fun _ => .pure _

/-- The stamp command tells the depth and does not change it. -/
theorem keepsDepth_stampAs (name : String) (aliases : List String) :
    (stampAs name aliases : Command σ).KeepsDepth := by
  intro runner _ frame arguments m r m' h
  cases h
  rfl

/-- The command that runs a block twice leaves the depth as it was. -/
theorem keepsDepth_twice : (twice : Command σ).KeepsDepth := by
  intro runner hinvoke frame arguments
  simp only [twice, Handler.run]
  cases Actual.codeAt arguments 0 with
  | error f => exact .fail f
  | ok body =>
    refine (hinvoke body _ false).bind fun flow => ?_
    cases flow.isLeave with
    | true => exact .pure flow
    | false => exact hinvoke body _ false

end Command

/-- Whether all commands under some names leave the depth as it was. -/
def Registry.KeepsDepth (r : Registry σ) : Prop := ∀ label c, r.find? label = some c → c.KeepsDepth

/-- The depth is kept by the commands of the language, also if others that keep it are added. -/
theorem Registry.keepsDepth_foldl {extra : List (Command σ)} (h : ∀ c ∈ extra, c.KeepsDepth) :
    Registry.KeepsDepth (extra.foldl Registry.register .standard) := by
  intro label c hfind
  rcases mem_of_find?_foldl hfind with ⟨hmem, _⟩ | hstandard
  · exact h c hmem
  · exact Command.keepsDepth_of_mem_standard (mem_of_find?_standard hstandard).1

/-! ## Statements and blocks -/

namespace Interpreter

variable {i : Interpreter σ}

/-- Running the command of a statement leaves the depth as it was, if the blocks that it runs do. -/
theorem sameDepth_dispatch (hregistry : i.registry.KeepsDepth) {runner : Runner σ}
    (hinvoke : ∀ code bindings procedure,
      (runner.invoke code bindings procedure).Keeps Machine.SameDepth)
    (frame : FrameId) (s : Statement) : (i.dispatch runner frame s).Keeps Machine.SameDepth :=
  keeps_dispatch hinvoke fun command hcommand arguments =>
    hregistry s.label command hcommand runner hinvoke frame arguments

/-- Giving a value to the target of a statement leaves the depth as it was. -/
theorem sameDepth_bindTarget (effort : ℕ) (frame : FrameId) (s : Statement) (flow : Flow) :
    (bindTarget effort frame s flow : Action σ Unit).Keeps Machine.SameDepth := by
  unfold bindTarget
  cases s.target with
  | none => exact .pure _
  | some target =>
    dsimp only
    cases flow.value? with
    | none => exact .fail _
    | some v => exact sameDepth_updateStore _

/-- A statement leaves the depth as it was, if the blocks that it runs do. -/
theorem sameDepth_runStatement (hregistry : i.registry.KeepsDepth) {runner : Runner σ}
    (hinvoke : ∀ code bindings procedure,
      (runner.invoke code bindings procedure).Keeps Machine.SameDepth)
    (frame : FrameId) (s : Statement) : (i.runStatement runner frame s).Keeps Machine.SameDepth :=
  keeps_runStatement (sameDepth_announce i.hooks s) (sameDepth_dispatch hregistry hinvoke frame s)
    (sameDepth_bindTarget runner.effort frame s)

/-- A block leaves the depth as it was: its statements do, given that the blocks that they run with
less effort do. -/
theorem sameDepth_runBlock (hregistry : i.registry.KeepsDepth) (effort : ℕ)
    (body : List Statement) (frame : FrameId) (procedure : Bool) :
    (i.runBlock effort body frame procedure).Keeps Machine.SameDepth := by
  induction effort generalizing body frame procedure with
  | zero => exact .exhausted
  | succ effort ih =>
    have hinvoke code bindings procedure :
        ((i.runner effort).invoke code bindings procedure).Keeps Machine.SameDepth :=
      sameDepth_inFrame (fun id => ih code.body id procedure) code bindings
    have hstep s : (i.runStatement (i.runner effort) frame s).Keeps Machine.SameDepth :=
      sameDepth_runStatement hregistry hinvoke frame s
    rw [runBlock_succ]
    exact (sameDepth_nested (keeps_runStatements (fun s _ => hstep s) none) _).bind
      fun flow => .pure _

/-- Each block that a command runs leaves the depth as it was. -/
theorem sameDepth_invoke (hregistry : i.registry.KeepsDepth) (effort : ℕ) (code : Code)
    (bindings : Option Bindings) (procedure : Bool) :
    ((i.runner effort).invoke code bindings procedure).Keeps Machine.SameDepth :=
  sameDepth_inFrame (fun id => sameDepth_runBlock hregistry effort code.body id procedure) code
    bindings

/-- A statement starts one level deeper than its block, within the limit. -/
theorem depth_of_starts (hregistry : i.registry.KeepsDepth) {b : BlockRun σ} {st : StatementRun σ}
    (h : b.Starts i st) :
    st.start.depth = b.start.depth + 1 ∧ st.start.depth ≤ i.settings.maxDepth := by
  cases h with
  | @intro effort frame start reached before after last s hdepth hbefore =>
    have hstep s : (i.runStatement (i.runner effort) frame s).Keeps Machine.SameDepth :=
      sameDepth_runStatement hregistry (sameDepth_invoke hregistry effort) frame s
    have hreached : reached.depth = start.depth + 1 :=
      keeps_runStatements (fun s _ => hstep s) none _ _ _ hbefore
    exact ⟨hreached, by change reached.depth ≤ _; omega⟩

end Interpreter

/-- A statement that runs in the run of a block is one of this block or of a block inside it. -/
theorem BlockRun.Contains.exists_starts {i : Interpreter σ} {b : BlockRun σ} {st : StatementRun σ}
    (h : b.Contains i st) : ∃ inner : BlockRun σ, inner.Starts i st := by
  induction h with
  | direct hstarts => exact ⟨_, hstarts⟩
  | nested _ _ _ _ ih => exact ih

/-- **The depth is bounded, and every block brings it back.** The commands are those of the language
and further ones that do not change the depth by themselves. However a block ends, by its last
statement, by leaving or by a failure, the machine is then as deep as before. The statements of a
block start one level deeper than the block, at a depth of at least one that does not exceed the
limit, and stay there through their hook, what they say and their return binding; so do all
statements of a session. A block that is started at the limit fails, before any statement or hook of
it has run, and leaves the machine as it was. -/
theorem depth_is_bounded_and_restored (settings : Settings) (hooks : Hooks σ)
    (extra : List (Command σ)) (hextra : ∀ c ∈ extra, c.KeepsDepth) :
    let i : Interpreter σ :=
      { settings, registry := extra.foldl Registry.register .standard, hooks }
    (∀ (effort : ℕ) (body : List Statement) (frame : FrameId) (procedure : Bool)
      (m m' : Machine σ) (r : Except Failure Flow),
      (i.runBlock effort body frame procedure).apply m = some (r, m') → m'.depth = m.depth) ∧
    (∀ (b : BlockRun σ) (st : StatementRun σ), b.Starts i st →
      st.start.depth = b.start.depth + 1 ∧ st.start.depth ≤ settings.maxDepth ∧
      (hooks.announce st.statement).Keeps Machine.SameDepth ∧
      (i.dispatch (i.runner st.effort) st.frame st.statement).Keeps Machine.SameDepth ∧
      ∀ flow, (Interpreter.bindTarget st.effort st.frame st.statement flow : Action σ Unit).Keeps
        Machine.SameDepth) ∧
    (∀ (effort : ℕ) (program : List Statement) (frame : FrameId) (m : Machine σ)
      (st : StatementRun σ), (i.sessionBlock effort program frame m).Contains i st →
      1 ≤ st.start.depth ∧ st.start.depth ≤ settings.maxDepth) ∧
    ∀ (effort : ℕ) (body : List Statement) (frame : FrameId) (procedure : Bool) (m : Machine σ),
      settings.maxDepth ≤ m.depth →
      (i.runBlock (effort + 1) body frame procedure).apply m =
        some (.error { fault := .depthLimit settings.maxDepth }, m) ∧
      ∀ st, ¬BlockRun.Starts i ⟨effort + 1, body, frame, m⟩ st := by
  intro i
  have hregistry : i.registry.KeepsDepth := Registry.keepsDepth_foldl hextra
  refine ⟨fun effort body frame procedure m m' r h => ?_, fun b st hst => ?_,
    fun effort program frame m st hst => ?_, fun effort body frame procedure m hdepth => ?_⟩
  · exact i.sameDepth_runBlock hregistry effort body frame procedure m r m' h
  · obtain ⟨hlevel, hlimit⟩ := i.depth_of_starts hregistry hst
    exact ⟨hlevel, hlimit, sameDepth_announce hooks st.statement,
      i.sameDepth_dispatch hregistry (i.sameDepth_invoke hregistry st.effort) _ _,
      Interpreter.sameDepth_bindTarget _ _ _⟩
  · obtain ⟨inner, hstarts⟩ := hst.exists_starts
    obtain ⟨hlevel, hlimit⟩ := i.depth_of_starts hregistry hstarts
    exact ⟨by omega, hlimit⟩
  · constructor
    · rw [i.runBlock_succ, apply_bind, nested, apply_ofFun, if_pos hdepth, continueWith_error]
    · intro st hst
      cases hst with
      | intro hbelow _ => exact absurd hdepth (Nat.not_le.mpr hbelow)

/-- Under a limit of two levels, a statement runs at depth two, the inner block of a statement at
depth two is too deep, and so is a block at depth two itself. -/
theorem depth_is_bounded_and_restored_twice :
    let i : Interpreter Unit :=
      { settings := { maxDepth := 2 }
        registry := [.stamp, .twice].foldl Registry.register .standard }
    let m : Machine Unit :=
      { store := ({} : Store).push none none, outbox := { capacity := 64 }, depth := 1, host := () }
    let home : Statement := ⟨"home", [], none, ⟨1, 9⟩⟩
    let twice : Statement := ⟨"twice", [.block ⟨0, ⟨1, 7⟩⟩ [home]], none, ⟨1, 1⟩⟩
    (∃ left, (i.runBlock 3 [home] 0 false).apply m = some (.ok (.next none), left) ∧
      left.depth = 1) ∧
    (∃ left, (i.runBlock 3 [home, twice] 0 false).apply m =
      some (.error { fault := .depthLimit 2, line := some 1 }, left) ∧ left.depth = 1) ∧
    (i.runBlock 3 [home] 0 false).apply { m with depth := 2 } =
      some (.error { fault := .depthLimit 2 }, { m with depth := 2 }) := by
  intro i m home twice
  have hextra : ∀ c ∈ [Command.stamp, Command.twice], (c : Command Unit).KeepsDepth := by
    simp [Command.stamp, Command.keepsDepth_stampAs, Command.keepsDepth_twice]
  obtain ⟨hrestored, _, _, hlimit⟩ :=
    depth_is_bounded_and_restored i.settings i.hooks [.stamp, .twice] hextra
  obtain ⟨left, hleft⟩ : ∃ left, (i.runBlock 3 [home] 0 false).apply m =
      some (.ok (.next none), left) := ⟨_, rfl⟩
  obtain ⟨left', hleft'⟩ : ∃ left, (i.runBlock 3 [home, twice] 0 false).apply m =
      some (.error { fault := .depthLimit 2, line := some 1 }, left) := ⟨_, rfl⟩
  exact ⟨⟨left, hleft, hrestored 3 [home] 0 false m left _ hleft⟩,
    ⟨left', hleft', hrestored 3 [home, twice] 0 false m left' _ hleft'⟩,
    (hlimit 2 [home] 0 false _ (Nat.le_refl 2)).1⟩

end Logo
