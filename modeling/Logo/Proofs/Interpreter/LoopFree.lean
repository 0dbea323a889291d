import Logo.Proofs.Interpreter.Answered
import Logo.Proofs.Interpreter.Lifetime
import Logo.Proofs.Store.Confined

/-!
# Programs without loops

A program that has neither `while` nor `repeat`, and does not get hold of code that has, comes to
its end however its procedures call each other. Blocks run inside each other to a bounded depth, a
block has finitely many statements, and `if` and `each` run finitely many blocks. So the only thing
that could go on without an end is the evaluation of an expression, and a session has an end exactly
if each expression that it has to evaluate has one.
-/

namespace Logo

open Filter

variable {σ : Type}

/-- Whether no statement of a program, also in its blocks, is a `while` or a `repeat`. -/
def LoopFree (body : List Statement) : Prop :=
  ∀ s ∈ Statement.listPreorder body, s.label ∉ ["while", "repeat", "rep"]

instance (body : List Statement) : Decidable (LoopFree body) :=
  inferInstanceAs (Decidable (∀ s ∈ Statement.listPreorder body, _))

namespace LoopFree

variable {body : List Statement} {s : Statement}

/-- No statement inside a statement of a program without loops is a loop. -/
theorem preorder (h : LoopFree body) (hs : s ∈ body) :
    ∀ t ∈ s.preorder, t.label ∉ ["while", "repeat", "rep"] := by
  induction body with
  | nil => simp at hs
  | cons first rest ih =>
    simp only [LoopFree, Statement.listPreorder, List.forall_mem_append] at h
    rcases List.mem_cons.mp hs with rfl | hs
    · exact h.1
    · exact ih h.2 hs

/-- No statement of a program without loops is a loop. -/
theorem label (h : LoopFree body) (hs : s ∈ body) : s.label ∉ ["while", "repeat", "rep"] := by
  refine h.preorder hs s ?_
  cases s
  simp [Statement.preorder]

/-- The blocks of a statement have no loops either. -/
theorem block (h : LoopFree body) (hs : s ∈ body) {id : BlockId} {inner : List Statement}
    (hinner : .block id inner ∈ s.arguments) : LoopFree inner := by
  have harguments (arguments : List Argument) (hmem : .block id inner ∈ arguments)
      (hall : ∀ t ∈ Argument.listPreorder arguments, t.label ∉ ["while", "repeat", "rep"]) :
      LoopFree inner := by
    induction arguments with
    | nil => simp at hmem
    | cons a rest ih =>
      simp only [Argument.listPreorder, List.forall_mem_append] at hall
      rcases List.mem_cons.mp hmem with rfl | hmem
      · exact hall.1
      · exact ih hmem hall.2
  refine harguments s.arguments hinner fun t ht => h.preorder hs t ?_
  cases s
  exact List.mem_cons_of_mem _ ht

end LoopFree

/-! ## What runs without loops keep -/

/-- Whether code has no loops and belongs to a frame of a kind. -/
def Code.Tame (R : FrameId → Prop) (c : Code) : Prop := LoopFree c.body ∧ R c.frame

/-- Whether a machine is at some depth, and the frames of a kind lead to code without loops only. -/
structure Machine.Tame (R : FrameId → Prop) (depth : ℕ) (m : Machine σ) : Prop where
  confined : m.store.Confined R (Code.Tame R)
  depth_eq : m.depth = depth

/-- Whether the value that came out holds code without loops only. -/
def Flow.Tame (R : FrameId → Prop) (flow : Flow) : Prop :=
  ∀ v, flow.value? = some v → v.AllCode (Code.Tame R)

variable {R : FrameId → Prop} {depth : ℕ} {i : Interpreter σ} {frame : FrameId} {s : Statement}
  {m : Machine σ}

/-- Where no value comes out, no code does. -/
theorem Flow.tame_next_none : (Flow.next none).Tame R := by
  intro v hv
  cases hv

open Logo.Action

/-- The arguments that a statement may have hold code without loops only. -/
theorem settles_validate (hm : m.Tame R depth) (hframe : R frame)
    (hblocks : ∀ id body, .block id body ∈ s.arguments → LoopFree body) {signature : Signature}
    (htexts : ∀ text, (m.store.environment frame).Awaits (fun o => validateBy o
      (m.store.find? frame) frame s.label signature s.arguments) text →
        (m.store.environment frame).Finishes text)
    {k : ℕ → List Actual → Action σ Flow}
    (hk : ∀ arguments, (∀ᶠ effort in atTop,
        validate effort m.store frame s.label signature s.arguments = pure arguments) →
      (∀ a ∈ arguments, a.toValue.AllCode (Code.Tame R)) →
      Settles (Machine.Tame R depth) (Flow.Tame R) (fun effort => k effort arguments) m) :
    Settles (Machine.Tame R depth) (Flow.Tame R) (fun effort =>
      ofEval (validate effort m.store frame s.label signature s.arguments) >>= k effort) m := by
  have hcodes effort arguments
      (h : validate effort m.store frame s.label signature s.arguments = pure arguments) :
      ∀ a ∈ arguments, a.toValue.AllCode (Code.Tame R) :=
    allCode_of_validate (fun _ _ hv => hm.confined.find? hframe hv)
      (fun id body hmem => ⟨hblocks id body hmem, hframe⟩) h
  refine (Settles.ofEval (eventually_validate htexts) hm hcodes).bind
    fun arguments m' harguments _ hV => ?_
  have hvalid := harguments.mono fun effort h => of_apply_ofEval h
  obtain ⟨_, _, rfl⟩ := hvalid.exists
  exact hk arguments (hvalid.mono fun _ h => h.1) hV

/-- A statement that is an expression can be evaluated if the expression can. -/
theorem eventually_evaluateStatement {store : Store}
    (h : ∀ text, (isIdentifier s.label = true → s.arguments ≠ [] →
      (store.find? frame s.label).isSome = true) → s.expression? = some text →
        (store.environment frame).Finishes text) :
    ∃ r, ∀ᶠ effort in atTop, evaluateStatement effort store frame s = Eval.ofExcept r := by
  by_cases hknown : isIdentifier s.label = true → s.arguments ≠ [] →
      (store.find? frame s.label).isSome = true
  · rcases htext : s.expression? with _ | text
    · refine ⟨.error (.unknownCommand s.label), .of_forall fun _ => ?_⟩
      rw [evaluateStatement, htext, ite_self]
      rfl
    · obtain ⟨r, enough, hr⟩ := h text hknown htext
      refine ⟨r, eventually_atTop.mpr ⟨enough, fun effort heffort => ?_⟩⟩
      rw [evaluateStatement_eq_evaluate hknown htext, hr effort heffort]
  · refine ⟨.error (.unknownCommand s.label), .of_forall fun _ => if_pos ?_⟩
    simpa [and_assoc] using hknown

section Variables

variable {path : String} {v : Value}

/-- The creation of a variable settles if the indexes that its path waits for come to an end. -/
theorem settles_create (hm : m.Tame R depth) (hframe : R frame) (hv : v.AllCode (Code.Tame R))
    (htexts : ∀ text, (m.store.environment frame).Awaits
      (fun o => Path.resolve (m.store.find? frame) o path) text →
        (m.store.environment frame).Finishes text) :
    Settles (Machine.Tame R depth) (fun _ => True)
      (fun effort => updateStore fun store => store.create effort frame path v) m :=
  .updateStore (eventually_create htexts) hm
    (fun _ _ hs => ⟨hm.confined.create hframe hv hs, hm.depth_eq⟩) trivial

/-- The assignment to a variable settles if the indexes that its path waits for come to an end. -/
theorem settles_set (hm : m.Tame R depth) (hframe : R frame) (hv : v.AllCode (Code.Tame R))
    (htexts : ∀ text, (m.store.environment frame).Awaits
      (fun o => Path.resolve (m.store.find? frame) o path) text →
        (m.store.environment frame).Finishes text) :
    Settles (Machine.Tame R depth) (fun _ => True)
      (fun effort => updateStore fun store => store.set effort frame path v) m :=
  .updateStore (eventually_set htexts) hm
    (fun _ _ hs => ⟨hm.confined.set hframe hv hs, hm.depth_eq⟩) trivial

end Variables

/-- A simple command settles if the paths that it reads can be read. -/
theorem Effect.settles {command : Command σ} {arguments : List Actual} {effect : Effect}
    (hm : m.Tame R depth) (hframe : R frame) (hof : effect.IsOf command arguments)
    (hpasses : effect.Passes arguments)
    (harguments : ∀ a ∈ arguments, a.toValue.AllCode (Code.Tame R))
    (htexts : ∀ path v, effect = .create path v ∨ effect = .set path v → ∀ text,
      (m.store.environment frame).Awaits (fun o => Path.resolve (m.store.find? frame) o path) text →
        (m.store.environment frame).Finishes text) :
    Settles (Machine.Tame R depth) (Flow.Tame R) (fun effort => effect.run effort frame) m := by
  cases effect with
  | finish flow =>
    refine .pure hm fun v hv => ?_
    obtain ⟨a, ha, rfl⟩ := hpasses v hv
    exact harguments a ha
  | fail f => exact .fail hm
  | send message =>
    refine ⟨.ok (.next none), { m with outbox := m.outbox.push message }, .of_forall fun _ => rfl,
      ⟨hm.confined, hm.depth_eq⟩, fun flow hflow => ?_⟩
    cases hflow
    exact Flow.tame_next_none
  | create path v =>
    obtain ⟨_, a, ha, hv⟩ := hof
    have hv' : v.AllCode (Code.Tame R) := by
      rcases hv with rfl | ⟨code, params, rfl, rfl⟩
      · exact harguments a ha
      · exact Value.allCode_code.mpr (Value.allCode_code.mp (harguments _ ha) :)
    exact (settles_create hm hframe hv' (htexts path v (.inl rfl))).bind
      fun _ _ _ hm' _ => .pure hm' Flow.tame_next_none
  | set path v =>
    obtain ⟨_, a, rest, rfl, rfl⟩ := hof
    have hv : a.toValue.AllCode (Code.Tame R) := harguments a (by simp)
    exact (settles_set hm hframe hv (htexts path _ (.inr rfl))).bind
      fun _ _ _ hm' _ => .pure hm' Flow.tame_next_none

/-- The return binding settles if its path can be read. -/
theorem settles_bindTarget {flow : Flow} (hm : m.Tame R depth) (hframe : R frame)
    (hflow : flow.Tame R)
    (htexts : ∀ target, s.target = some target → flow.value?.isSome = true → ∀ text,
      (m.store.environment frame).Awaits
        (fun o => Path.resolve (m.store.find? frame) o target.name) text →
          (m.store.environment frame).Finishes text) :
    Settles (Machine.Tame R depth) (fun _ => True)
      (fun effort => Interpreter.bindTarget effort frame s flow) m := by
  unfold Interpreter.bindTarget
  rcases htarget : s.target with _ | ⟨name, fresh⟩
  · exact .pure hm trivial
  · rcases hvalue : flow.value? with _ | v
    · exact .fail hm
    · have htexts' := htexts _ htarget (by rw [hvalue]; rfl)
      cases fresh with
      | true => exact settles_create hm hframe (hflow v hvalue) htexts'
      | false => exact settles_set hm hframe (hflow v hvalue) htexts'

/-! ## Control commands -/

section Scripts

variable {C : Code → Prop} {V : Flow → Prop}

/-- The branches of an `if` are uniform: the effort changes nothing but the answers to their
questions. -/
theorem Branch.uniform_script (hnone : V (.next none)) {branches : List Branch}
    (h : ∀ branch ∈ branches, C branch.body ∧ ∀ a ∈ branch.condition, a.toValue.AllCode C) :
    Script.Uniform frame (Held C) V fun effort => script effort frame branches := by
  induction branches with
  | nil => exact .finish hnone
  | cons branch rest ih =>
    rw [List.forall_mem_cons] at h
    obtain ⟨⟨hbody, hcondition⟩, hrest⟩ := h
    have hgo (taken : Bool) : Script.Uniform frame (Held C) V fun effort =>
        if taken then .block .body branch.body none .finish else script effort frame rest := by
      cases taken with
      | false => exact ih hrest
      | true => exact .block (held_none hbody) fun flow hflow => .finish hflow
    simp only [script]
    rcases hcase : branch.condition with _ | text | v
    · exact hgo true
    · exact .ask fun v => hgo v.truthy
    · cases v with
      | code code =>
        have hcode := Value.allCode_code.mp (hcondition _ hcase)
        exact .block (held_none hcode) fun flow _ => hgo flow.truthy
      | number | array | object => exact hgo _

/-- An `each` is uniform: the effort does not change which blocks it runs. -/
theorem uniform_eachScript (hnone : V (.next none)) {body : Code} (hbody : C body) (name : String)
    {items : List Value} (hitems : ∀ v ∈ items, v.AllCode C) :
    Script.Uniform frame (Held C) V fun _ => eachScript name body items := by
  induction items with
  | nil => exact .finish hnone
  | cons v rest ih =>
    rw [List.forall_mem_cons] at hitems
    refine .block (held_single hbody hitems.1) fun flow hflow => ?_
    cases flow with
    | next _ => exact ih hitems.2
    | leave _ => exact .finish hflow

/-- The course of `if` and of `each` does not depend on the effort. -/
theorem Control.uniform_script {c : Control} (hc : c = .ifElse ∨ c = .eachItem)
    (hnone : V (.next none)) (settings : Settings) {arguments : List Actual}
    (harguments : ∀ a ∈ arguments, a.toValue.AllCode C) :
    Script.Uniform frame (Held C) V fun effort => c.script effort settings frame arguments := by
  rcases hc with rfl | rfl
  · simp only [script]
    rcases hread : Branch.read arguments with f | branches
    · exact .fail f
    · exact Branch.uniform_script hnone (Branch.forall_of_read harguments hread)
  · simp only [script]
    rcases hbody : Actual.codeAt arguments (arguments.length - 1) with f | body
    · exact .fail f
    · dsimp only
      rcases hitems : Command.eachItems
        (Command.loopName settings.eachVariable arguments).2.head? with f | items
      · exact .fail f
      · refine uniform_eachScript hnone (of_codeAt harguments hbody) _ ?_
        refine (forall_of_eachItems fun a ha => harguments a ?_).2 items hitems
        exact mem_of_mem_loopName (List.mem_of_mem_head? ha)

end Scripts

/-- A control command that is not a loop is an `if` or an `each`. -/
theorem Control.eq_of_not_loop {c : Control} {label : String}
    (hlabel : label ∈ (c.command : Command σ).names) (h : label ∉ ["while", "repeat", "rep"]) :
    c = .ifElse ∨ c = .eachItem := by
  cases c with
  | ifElse => exact .inl rfl
  | eachItem => exact .inr rfl
  | whileTrue | repeatTimes =>
    simp_all [Command.names, command, Command.whileTrue, Command.repeatTimes]

/-! ## Blocks -/

/-- Whether all blocks without loops at a depth settle, if what they have to evaluate can be
evaluated. -/
def Interpreter.SettlesAt (i : Interpreter σ) (R : FrameId → Prop) (depth : ℕ) : Prop :=
  ∀ body frame procedure (m : Machine σ), m.Tame R depth → R frame → LoopFree body →
    (∀ᶠ effort in atTop, BlockRun.Answered i ⟨effort, body, frame, m⟩) →
    Settles (Machine.Tame R depth) (Flow.Tame R)
      (fun effort => i.runBlock effort body frame procedure) m

namespace Interpreter.SettlesAt

/-- Code settles in a new frame. -/
theorem invoke (h : i.SettlesAt R depth) (inv : Invocation σ) (hm : inv.start.Tame R depth)
    (hheld : Held (Code.Tame R) inv.code inv.bindings)
    (hanswered : ∀ᶠ effort in atTop, inv.start.store.isLive inv.code.frame = true →
      (inv.blockRun effort).Answered i) :
    Settles (Machine.Tame R depth) (Flow.Tame R)
      (fun effort => (i.runner effort).invoke inv.code inv.bindings inv.procedure) inv.start := by
  obtain ⟨⟨hbody, hframe⟩, hbindings⟩ := hheld
  by_cases hlive : inv.start.store.isLive inv.code.frame = true
  · obtain ⟨r, m', hr, hm', hV⟩ := h inv.code.body inv.start.store.next inv.procedure
      { inv.start with store := inv.start.store.push (some inv.code.frame) inv.bindings }
      ⟨hm.confined.push hframe hbindings, hm.depth_eq⟩ (hm.confined.fresh _ (Nat.le_refl _)) hbody
      (hanswered.mono fun _ h => h hlive)
    refine ⟨r, m'.dropFrame inv.start.store.next, hr.mono fun effort heffort => ?_,
      ⟨hm'.confined.drop _, hm'.depth_eq⟩, hV⟩
    rw [apply_invoke hlive, heffort]
    rfl
  · exact ⟨_, _, .of_forall fun effort => apply_invoke_of_not_isLive hlive effort _ _, hm, by simp⟩

section Statements

variable {start : Machine σ} {arguments : List Actual}

/-- An `if` or an `each` settles. -/
theorem control (h : i.SettlesAt R depth) {c : Control} (hc : c = .ifElse ∨ c = .eachItem)
    (hannounce : (i.hooks.announce s).apply start = some (.ok (), m))
    (hcommand : i.registry.find? s.label = some c.command)
    (hvalid : ∀ᶠ effort in atTop, validate effort m.store frame s.label
      (c.command : Command σ).signature s.arguments = pure arguments)
    (hanswered : ∀ᶠ effort in atTop, StatementRun.Answered i ⟨effort, frame, s, start⟩)
    (hm : m.Tame R depth) (harguments : ∀ a ∈ arguments, a.toValue.AllCode (Code.Tame R)) :
    Settles (Machine.Tame R depth) (Flow.Tame R) (fun effort =>
      (c.script effort i.settings frame arguments).run (i.runner effort).invoke) m := by
  have huniform : Script.Uniform frame (Held (Code.Tame R)) (Flow.Tame R) fun effort =>
      c.script effort i.settings frame arguments :=
    Control.uniform_script hc Flow.tame_next_none i.settings harguments
  refine huniform.settles hm ?_ (G := fun effort call =>
    call.start.store.isLive call.code.frame = true →
      (call.invocation.blockRun effort).Answered i) ?_ ?_
  · filter_upwards [hanswered, hvalid] with effort hst hvalid text store htext
    exact hst.own (.condition hannounce hcommand hvalid htext)
  · filter_upwards [hanswered, hvalid] with effort hst hvalid call hcall
    exact hst.blocks (.control hannounce hcommand hvalid hcall)
  · exact fun role code bindings m' hm' hheld hblock =>
      h.invoke ⟨code, bindings, false, m'⟩ hm' hheld hblock

/-- A command settles on its checked arguments, unless it is a loop. -/
theorem command (h : i.SettlesAt R depth) (hregistry : i.registry = .standard)
    {command : Command σ} (hannounce : (i.hooks.announce s).apply start = some (.ok (), m))
    (hcommand : i.registry.find? s.label = some command)
    (hlabel : s.label ∉ ["while", "repeat", "rep"])
    (hvalid : ∀ᶠ effort in atTop,
      validate effort m.store frame s.label command.signature s.arguments = pure arguments)
    (hanswered : ∀ᶠ effort in atTop, StatementRun.Answered i ⟨effort, frame, s, start⟩)
    (hm : m.Tame R depth) (hframe : R frame)
    (harguments : ∀ a ∈ arguments, a.toValue.AllCode (Code.Tame R)) :
    Settles (Machine.Tame R depth) (Flow.Tame R)
      (fun effort => command.handler.run (i.runner effort) frame arguments) m := by
  obtain ⟨hmem, hname⟩ := Registry.mem_of_find?_standard (hregistry ▸ hcommand)
  rcases Command.standard_passes hmem with ⟨c, rfl⟩ | ⟨effect, hdoes, hpasses⟩
  · simp only [c.handler_run]
    exact h.control (Control.eq_of_not_loop hname hlabel) hannounce hcommand hvalid hanswered hm
      harguments
  · simp only [hdoes.handler_run]
    refine Effect.settles hm hframe (hdoes.isOf arguments) (hpasses arguments) harguments
      fun path v heffect text htext => ?_
    obtain ⟨effort, hst, hvalid⟩ := (hanswered.and hvalid).exists
    exact hst.own (.assignment hannounce hcommand hdoes hvalid heffect htext)

/-- What a statement says settles, once its hook was called. -/
theorem dispatch (h : i.SettlesAt R depth) (hregistry : i.registry = .standard)
    (hannounce : (i.hooks.announce s).apply start = some (.ok (), m))
    (hlabel : s.label ∉ ["while", "repeat", "rep"])
    (hblocks : ∀ id body, .block id body ∈ s.arguments → LoopFree body)
    (hanswered : ∀ᶠ effort in atTop, StatementRun.Answered i ⟨effort, frame, s, start⟩)
    (hm : m.Tame R depth) (hframe : R frame) :
    Settles (Machine.Tame R depth) (Flow.Tame R)
      (fun effort => i.dispatch (i.runner effort) frame s) m := by
  obtain ⟨_, hst⟩ := hanswered.exists
  have hfind name v (hv : m.store.find? frame name = some v) : v.AllCode (Code.Tame R) :=
    hm.confined.find? hframe hv
  rcases hcommand : i.registry.find? s.label with _ | command
  · rcases hprocedure : m.store.procedure? frame s.label with _ | code
    · refine Settles.congr ?_ (.of_forall fun _ => apply_dispatch_expression hcommand hprocedure)
      have heval := eventually_evaluateStatement (s := s) fun text hknown htext =>
        hst.own (.expression hannounce hcommand hprocedure hknown htext)
      refine (Settles.ofEval heval hm fun _ _ =>
        (Value.hereditary_allCode _).of_evaluateStatement hfind).bind
        fun v m' _ hm' hv => .pure hm' fun w hw => ?_
      cases hw
      exact hv
    · refine Settles.congr ?_ (.of_forall fun _ => apply_dispatch_procedure hcommand hprocedure)
      refine settles_validate hm hframe hblocks ?_ fun arguments hvalid harguments => ?_
      · exact fun text htext => hst.own (.parameters hannounce hcommand hprocedure htext)
      · refine h.invoke ⟨code, some (bindParams code.params arguments), true, m⟩ hm
          ⟨Store.of_procedure? hfind hprocedure, forall_bindParams harguments code.params⟩ ?_
        filter_upwards [hanswered, hvalid] with effort hst hvalid
        exact hst.blocks (.procedure hannounce hcommand hprocedure hvalid)
  · refine Settles.congr ?_ (.of_forall fun _ => apply_dispatch_command hcommand)
    refine settles_validate hm hframe hblocks ?_ fun arguments hvalid harguments => ?_
    · exact fun text htext => hst.own (.arguments hannounce hcommand htext)
    · exact h.command hregistry hannounce hcommand hlabel hvalid hanswered hm hframe harguments

/-- A statement without loops settles. -/
theorem statement (h : i.SettlesAt R depth) (hregistry : i.registry = .standard)
    (hlabel : s.label ∉ ["while", "repeat", "rep"])
    (hblocks : ∀ id body, .block id body ∈ s.arguments → LoopFree body)
    (hanswered : ∀ᶠ effort in atTop, StatementRun.Answered i ⟨effort, frame, s, start⟩)
    (hstart : start.Tame R depth) (hframe : R frame) :
    Settles (Machine.Tame R depth) (Flow.Tame R)
      (fun effort => i.runStatement (i.runner effort) frame s) start := by
  have hhook : Settles (Machine.Tame R depth) (fun _ => True) (fun _ => i.hooks.announce s) start :=
    ⟨_, _, .of_forall fun _ => rfl, ⟨hstart.confined, hstart.depth_eq⟩, fun _ _ => trivial⟩
  refine hhook.bind fun _ announced hannounced hm _ => ?_
  obtain ⟨_, hannounce⟩ := hannounced.exists
  refine (h.dispatch hregistry hannounce hlabel hblocks hanswered hm hframe).bind
    fun flow reached hdispatch hm' hflow => ?_
  refine (settles_bindTarget hm' hframe hflow fun target htarget hvalue text htext => ?_).bind
    fun _ _ _ hm'' _ => .pure hm'' hflow
  obtain ⟨effort, hst, hdispatch⟩ := (hanswered.and hdispatch).exists
  exact hst.own (.binding hannounce hdispatch htarget hvalue htext)

end Statements

end Interpreter.SettlesAt

/-- Blocks without loops settle. At the limit of the depth they fail at once, and above it they do
if the blocks one level deeper do. -/
theorem Interpreter.settlesAt (hregistry : i.registry = .standard) (R : FrameId → Prop)
    (depth : ℕ) : i.SettlesAt R depth := by
  -- On the levels that are left, not on the effort: one effort has to do for all blocks of a level.
  induction hlevels : i.settings.maxDepth - depth generalizing depth with
  | zero =>
    intro body frame procedure m hm _ _ _
    have hlimit : i.settings.maxDepth ≤ m.depth := by
      have := hm.depth_eq
      omega
    exact .of_succ ⟨.error { fault := .depthLimit i.settings.maxDepth }, m,
      .of_forall fun effort => apply_runBlock_of_limit hlimit effort procedure, hm, by simp⟩
  | succ levels ih =>
    intro body frame procedure m hm hframe hfree hanswered
    have hdepth : m.depth < i.settings.maxDepth := by
      have := hm.depth_eq
      omega
    have hbelow : i.SettlesAt R (depth + 1) := ih (depth + 1) (by omega)
    have hanswered' : ∀ᶠ effort in atTop, BlockRun.Answered i ⟨effort + 1, body, frame, m⟩ :=
      (tendsto_add_atTop_nat 1).eventually hanswered
    have hstatements : Settles (Machine.Tame R (depth + 1)) (Flow.Tame R)
        (fun effort => runStatements (i.runStatement (i.runner effort) frame) none body)
        { m with depth := m.depth + 1 } := by
      refine settles_runStatements ⟨hm.confined, congrArg (· + 1) hm.depth_eq⟩ Flow.tame_next_none
        fun before s after v reached hbody hbefore hreached => ?_
      have hs : s ∈ body := by simp [hbody]
      refine hbelow.statement hregistry (hfree.label hs) (fun _ _ => hfree.block hs) ?_ hreached
        hframe
      subst hbody
      filter_upwards [hanswered', hbefore] with effort hblock hbefore
      exact hblock.of_starts (.intro hdepth hbefore)
    have hrise (m' : Machine σ) (hm' : m'.Tame R (depth + 1)) : m'.rise.Tame R depth :=
      ⟨hm'.confined, congrArg (· - 1) hm'.depth_eq⟩
    refine .of_succ ((hstatements.nested hdepth hrise).bind fun flow m' _ hm' hflow => .pure hm' ?_)
    cases procedure with
    | false => exact hflow
    | true => cases flow <;> exact hflow

/-! ## Sessions -/

/-- A session without loops ends, with one and the same result from some effort on, if its
expressions can be evaluated. -/
theorem Interpreter.exists_runSession_eq (hregistry : i.registry = .standard)
    {program : List Statement} (hm : m.store.Ordered) (hprogram : LoopFree program)
    (hcodes : ∀ f ∈ m.store.frames, m.store.Reaches frame f.id → f.AllCode fun c => LoopFree c.body)
    (hanswered : ∀ᶠ effort in atTop, i.SessionAnswered effort program frame m) :
    ∃ result, ∀ᶠ effort in atTop, i.runSession effort program frame m = some result := by
  simp only [runSession_eq, sessionOutcome]
  rcases hstart : (i.hooks.start { m.outbox with
      pending := [], capacity := i.settings.queueCapacity } m.host).1 with f | _
  · exact ⟨i.conclude (.error f, (i.sessionBlock 0 program frame m).start), .of_forall fun _ => rfl⟩
  · have hconfined := Store.Confined.start hm hcodes
    have hblock : Settles _ _ (fun effort => i.runBlock effort program frame false)
        (i.sessionBlock 0 program frame m).start :=
      i.settlesAt hregistry _ 0 program frame false _ ⟨hconfined, rfl⟩ (.inl .root) hprogram
        (hanswered.mono fun _ h => h hstart)
    obtain ⟨r, m', hr, _⟩ := hblock
    exact ⟨i.conclude (r, m'), hr.mono fun effort h => congrArg (Option.map i.conclude) h⟩

/-- **Sessions without loops end.** Let neither the program nor the code in the frames that it can
get to have a `while` or a `repeat`. Then a session with the commands of the language ends, with one
and the same result from some effort on, if and only if the evaluation of each expression that it
has to evaluate comes to an end. -/
theorem loop_free_sessions_end_iff (settings : Settings) (hooks : Hooks σ)
    (program : List Statement) (frame : FrameId) (m : Machine σ) (hm : m.store.Ordered)
    (hprogram : LoopFree program)
    (hcodes : ∀ f ∈ m.store.frames, m.store.Reaches frame f.id →
      f.AllCode fun c => LoopFree c.body) :
    let i : Interpreter σ := ⟨settings, .standard, hooks⟩
    (∃ result enough, ∀ effort, enough ≤ effort →
      i.runSession effort program frame m = some result) ↔
      ∃ enough, ∀ effort, enough ≤ effort → i.SessionAnswered effort program frame m := by
  intro i
  constructor
  · rintro ⟨result, enough, hended⟩
    refine ⟨enough, fun effort heffort => ?_⟩
    exact Interpreter.sessionAnswered_of_runSession rfl (by simp [hended effort heffort])
  · intro hanswered
    obtain ⟨result, hended⟩ := Interpreter.exists_runSession_eq (i := i) rfl hm hprogram hcodes
      (eventually_atTop.mpr hanswered)
    exact ⟨result, eventually_atTop.mp hended⟩

/-- A block whose only statement calls a procedure with the same body, over and over, evaluates no
expression. -/
theorem answered_of_recursion {s : Statement} (code : Code) (harguments : s.arguments = [])
    (htarget : s.target = none) (hcommand : i.registry.find? s.label = none)
    (hbody : code.body = [s]) (hparams : code.params = []) {b : BlockRun σ} (hb : b.body = [s])
    (hframe : b.start.store.procedure? b.frame s.label = some code)
    (hcode : b.start.store.procedure? code.frame s.label = some code)
    (hfresh : code.frame < b.start.store.next) : b.Answered i := by
  have hhere {b : BlockRun σ} {st : StatementRun σ} (h : b.Starts i st) (hb : b.body = [s])
      (hframe : b.start.store.procedure? b.frame s.label = some code) :
      st.statement = s ∧ st.start.store = b.start.store ∧
        st.start.store.procedure? st.frame s.label = some code := by
    obtain ⟨_ | effort, body, frame, start⟩ := b
    · cases h
    · obtain rfl : body = [s] := hb
      obtain rfl := h.eq_of_singleton
      exact ⟨rfl, rfl, hframe⟩
  intro st hst
  induction hst with
  | direct hstarts =>
    obtain ⟨rfl, _, hfound⟩ := hhere hstarts hb hframe
    intro store text h
    cases h with
    | arguments _ hcommand' | condition _ hcommand' | assignment _ hcommand' =>
      rw [hcommand] at hcommand'
      cases hcommand'
    | parameters hannounce _ hprocedure htext =>
      rw [Hooks.store_of_announce hannounce] at hprocedure
      obtain rfl := Option.some.inj (hprocedure.symm.trans hfound)
      have hnone := htext 0
      rw [Code.arity, hparams, harguments] at hnone
      cases hnone
    | expression hannounce _ hprocedure =>
      rw [Hooks.store_of_announce hannounce] at hprocedure
      cases hprocedure.symm.trans hfound
    | binding _ _ htarget' =>
      rw [htarget] at htarget'
      cases htarget'
  | nested hstarts hinvokes hlive hinner ih =>
    obtain ⟨rfl, hstore, hfound⟩ := hhere hstarts hb hframe
    cases hinvokes with
    | control _ hcommand' =>
      rw [hcommand] at hcommand'
      cases hcommand'
    | @procedure effort frame s start announced found arguments hannounce _ hprocedure =>
      have hsame := Hooks.store_of_announce hannounce
      rw [hsame] at hprocedure
      obtain rfl := Option.some.inj (hprocedure.symm.trans hfound)
      rw [← hstore, ← hsame] at hcode hfresh
      refine ih hbody ?_ ?_ (Nat.lt_succ_of_lt hfresh)
      · rw [← hcode]
        simp only [Invocation.blockRun, Store.procedure?, Store.find?, Store.chain_push, hparams]
        rfl
      · rw [← hcode]
        simp only [Invocation.blockRun, Store.procedure?, Store.find?,
          Store.chain_push_of_ne (Nat.ne_of_lt hfresh)]

/-- A procedure that does nothing but call itself, and an unknown command in front of a path without
an end. -/
theorem loop_free_sessions_end_iff_recursive :
    let i : Interpreter Unit := ⟨{}, .standard, .none⟩
    let again : Statement := ⟨"again", [], none, ⟨1, 1⟩⟩
    let code : Code := { block := ⟨0, ⟨1, 9⟩⟩, body := [again], frame := 0 }
    let recursive : Machine Unit :=
      { store := { frames := [⟨0, none, none, [("again", .code code)]⟩], next := 1 },
        outbox := { capacity := 64 }, host := () }
    let unknown : Statement := ⟨"foo", [.text "-", .text "a.<s>"], none, ⟨1, 1⟩⟩
    let endless : Machine Unit :=
      { store := { frames := [⟨0, none, none,
                     [("a", .number 0), ("s", .ofText "f[a.<s>]")]⟩],
                   next := 1 },
        outbox := { capacity := 64 }, host := () }
    LoopFree [again] ∧ (∃ result enough, ∀ effort, enough ≤ effort →
        i.runSession effort [again] 0 recursive = some result) ∧
      LoopFree [unknown] ∧ unknown.expression? = some "foo - a.<s>" ∧
      ∃ enough, ∀ effort, enough ≤ effort → i.SessionAnswered effort [unknown] 0 endless := by
  intro i again code recursive unknown endless
  have hagain : LoopFree [again] := by decide
  have hunknown : LoopFree [unknown] := by decide
  refine ⟨hagain, ?_, hunknown, by decide, ?_⟩
  · have hordered : recursive.store.Ordered := ⟨by simp [recursive], by simp [recursive]⟩
    have hcodes : ∀ f ∈ recursive.store.frames, f.AllCode fun c => LoopFree c.body := by
      simp [recursive, code, Frame.AllCode, Value.allCode_code, hagain]
    have hprocedure : recursive.store.procedure? 0 "again" = some code := rfl
    refine (loop_free_sessions_end_iff {} .none [again] 0 recursive hordered hagain
      fun f hf _ => hcodes f hf).mpr ⟨0, fun effort _ _ => ?_⟩
    exact answered_of_recursion code rfl rfl rfl rfl rfl rfl hprocedure hprocedure
      Nat.zero_lt_one
  · have hordered : endless.store.Ordered := ⟨by simp [endless], by simp [endless]⟩
    have hhereditary := Value.hereditary_allCode fun c => LoopFree c.body
    have hcodes : ∀ f ∈ endless.store.frames, f.AllCode fun c => LoopFree c.body := by
      simp [endless, Frame.AllCode, hhereditary.number, hhereditary.ofText, or_imp, forall_and]
    let failure : Failure := { fault := .unknownCommand "foo", line := some 1 }
    have hblock (effort : ℕ) : (i.runBlock (effort + 1) [unknown] 0 false).apply endless =
        some (.error failure, endless) := by
      dsimp only [i, unknown, endless]
      rfl
    refine (loop_free_sessions_end_iff {} .none [unknown] 0 endless hordered hunknown
      fun f hf _ => hcodes f hf).mp ⟨i.conclude (.error failure, endless), 1, fun effort h => ?_⟩
    obtain ⟨effort, rfl⟩ := Nat.exists_eq_add_of_le' h
    exact (i.runSession_eq ..).trans (congrArg (Option.map i.conclude) (hblock effort))

end Logo
