import Logo.Proofs.Interpreter.Held
import Logo.Proofs.Store.Growth

/-!
# What a run passes on

All values that a run stores, binds or comes to are made of values that were there before, of what
evaluation makes, and of code. So a property that values pass on, and that all code has, is kept by
a run: if all variables have it at the start, all variables have it at every statement and at the
end. One such property is that no object has two fields of the same name.
-/

namespace Logo

open Value (Hereditary)

variable {σ α β : Type}

/-! ## Stores -/

/-- Whether all variables and bindings of a store have values with a property. -/
def Store.All (Q : Value → Prop) (s : Store) : Prop :=
  ∀ f ∈ s.frames, ∀ b ∈ f.cells ++ f.bindings.getD [], Q b.2

namespace Store.All

variable {Q : Value → Prop} {s s' : Store} {id : FrameId} {v : Value}

/-- The variables of each frame have the property of all values of the store. -/
theorem cells (h : s.All Q) {f : Frame} (hf : f ∈ s.frames) : ∀ cell ∈ f.cells, Q cell.2 :=
  (List.forall_mem_append.mp (h f hf)).1

/-- A variable that is found has the property of all values of the store. -/
theorem find? (h : s.All Q) {name : String} (hv : s.find? id name = some v) : Q v := by
  obtain ⟨f, hf, hname⟩ := List.exists_of_findSome?_eq_some hv
  obtain ⟨hcells, hbindings⟩ := List.forall_mem_append.mp (h f (Store.mem_of_mem_chain hf))
  unfold Frame.find? at hname
  split at hname
  · next w hcell =>
    cases hname
    exact of_lookup_eq_some hcells hcell
  · exact of_lookup_eq_some hbindings hname

/-- A new frame keeps the property if its bindings have it. -/
theorem push (h : s.All Q) (parent : Option FrameId) {bindings : Option Bindings}
    (hbindings : ∀ b ∈ bindings.getD [], Q b.2) : (s.push parent bindings).All Q := by
  intro f hf
  rcases List.mem_cons.mp hf with rfl | hf
  · exact hbindings
  · exact h f hf

/-- Dropping a frame keeps the property. -/
theorem drop (h : s.All Q) (id : FrameId) : (s.drop id).All Q :=
  fun f hf => h f (List.mem_of_mem_eraseP hf)

/-- Writing a value with the property keeps it. -/
theorem write (h : s.All Q) (hv : Q v) (id : FrameId) (name : String) :
    (s.write id name v).All Q := by
  intro f' hf'
  obtain ⟨f, hf, rfl⟩ := List.mem_map.mp hf'
  obtain ⟨hcells, hbindings⟩ := List.forall_mem_append.mp (h f hf)
  split
  · exact List.forall_mem_append.mpr ⟨forall_putField hcells hv, hbindings⟩
  · exact h f hf

variable (hQ : Hereditary Q) {effort : ℕ} {path : String}

include hQ

/-- Making a variable, or a member of one, with such a value keeps the property. -/
theorem create (h : s.All Q) (hv : Q v) (hcreate : s.create effort id path v = pure s') :
    s'.All Q := by
  obtain ⟨resolved, cell, _, hcell, rfl⟩ := Store.exists_of_create hcreate
  refine h.write (hQ.materialize hv ?_ hcell) id resolved.base
  rcases hown : s.own? id resolved.base with _ | old
  · exact hQ.number _
  · obtain ⟨f, hf, hold⟩ := Option.bind_eq_some_iff.mp hown
    exact of_lookup_eq_some (h.cells (List.mem_of_find?_eq_some hf)) hold

/-- Assigning such a value to a variable, or to a member of one, keeps the property. -/
theorem set (h : s.All Q) (hv : Q v) (hset : s.set effort id path v = pure s') : s'.All Q := by
  obtain ⟨resolved, f, old, cell, _, hholder, hold, hcell, rfl⟩ := Store.exists_of_set hset
  refine h.write (hQ.assign hv ?_ hcell) f.id resolved.base
  have hmem := Store.mem_of_mem_chain (List.mem_of_find?_eq_some hholder)
  exact of_lookup_eq_some (h.cells hmem) hold

end Store.All

/-! ## Actions -/

/-- Whether an action that starts with a store of a kind leaves a store of this kind, and comes to a
value of another kind unless it fails. -/
def Action.Yields (I : Store → Prop) (V : α → Prop) (a : Action σ α) : Prop :=
  ∀ m r m', I m.store → a.apply m = some (r, m') → I m'.store ∧ ∀ x, r = .ok x → V x

namespace Action.Yields

variable {I : Store → Prop} {V : α → Prop} {W : β → Prop} {a : Action σ α}

/-- Doing nothing yields its value. -/
theorem pure {x : α} (hx : V x) : (Pure.pure x : Action σ α).Yields I V := by
  intro m r m' hm hr
  cases hr
  refine ⟨hm, fun y hy => ?_⟩
  cases hy
  exact hx

/-- Failing yields nothing. -/
theorem fail (f : Fault) : (fail f : Action σ α).Yields I V := by
  intro m r m' hm hr
  cases hr
  exact ⟨hm, by simp⟩

/-- Running out of effort yields nothing. -/
theorem exhausted : (exhausted : Action σ α).Yields I V := by
  intro m r m' hm hr
  cases hr

/-- An evaluation yields its value. -/
theorem ofEval {e : Eval α} (he : ∀ x, e = Pure.pure x → V x) :
    (ofEval e : Action σ α).Yields I V := by
  intro m r m' hm hr
  rcases e.cases_outcome with rfl | ⟨fault, rfl⟩ | ⟨x, rfl⟩
  · cases hr
  · cases hr
    exact ⟨hm, by simp⟩
  · cases hr
    refine ⟨hm, fun y hy => ?_⟩
    cases hy
    exact he x rfl

/-- Looking at the store yields a store of the kind that it is. -/
theorem store : (store : Action σ Store).Yields I I := by
  intro m r m' hm hr
  cases hr
  refine ⟨hm, fun s hs => ?_⟩
  cases hs
  exact hm

/-- A change of the store yields nothing, and has to keep the kind of the store. -/
theorem updateStore {f : Store → Eval Store} (hf : ∀ s s', I s → f s = Pure.pure s' → I s') :
    (updateStore f : Action σ Unit).Yields I fun _ => True := by
  intro m r m' hm hr
  rw [apply_updateStore] at hr
  rcases (f m.store).cases_outcome with heval | ⟨fault, heval⟩ | ⟨s, heval⟩
  · rw [heval] at hr
    cases hr
  · rw [heval] at hr
    cases hr
    exact ⟨hm, by simp⟩
  · rw [heval] at hr
    cases hr
    exact ⟨hf _ s hm heval, fun _ _ => trivial⟩

/-- Actions in a row yield what the last of them does. -/
theorem bind {f : α → Action σ β} (ha : a.Yields I V) (hf : ∀ x, V x → (f x).Yields I W) :
    (a >>= f).Yields I W := by
  intro m r m' hm hr
  rw [apply_bind] at hr
  rcases hx : a.apply m with _ | ⟨failure | x, m₁⟩
  · rw [hx] at hr
    cases hr
  · rw [hx] at hr
    cases hr
    exact ⟨(ha m _ _ hm hx).1, by simp⟩
  · rw [hx] at hr
    obtain ⟨hm₁, hV⟩ := ha m _ _ hm hx
    exact hf x (hV x rfl) m₁ r m' hm₁ hr

/-- Noting the line of failures does not change what an action yields. -/
theorem atLine (h : a.Yields I V) (line : ℕ) : (a.atLine line).Yields I V := by
  intro m r m' hm hr
  rw [Action.atLine, apply_ofFun] at hr
  rcases hx : a.apply m with _ | ⟨failure | x, m₁⟩
  · rw [hx] at hr
    cases hr
  · rw [hx] at hr
    cases hr
    exact ⟨(h m _ _ hm hx).1, by simp⟩
  · rw [hx] at hr
    cases hr
    exact h m _ _ hm hx

/-- A block yields what its content does. -/
theorem nested (h : a.Yields I V) (limit : ℕ) : (nested limit a).Yields I V := by
  intro m r m' hm hr
  by_cases hdepth : m.depth < limit
  · rw [apply_nested hdepth] at hr
    obtain ⟨⟨r₁, m₁⟩, hrun, heq⟩ := Option.map_eq_some_iff.mp hr
    cases heq
    exact (h { m with depth := m.depth + 1 } r₁ m₁ hm hrun :)
  · rw [Action.nested, apply_ofFun, if_pos (Nat.not_lt.mp hdepth)] at hr
    cases hr
    exact ⟨hm, by simp⟩

/-- A block with bindings in its new frame. -/
theorem inFrame {a : FrameId → Action σ α} (h : ∀ id, (a id).Yields I V) (code : Code)
    (bindings : Option Bindings) (hpush : ∀ s, I s → I (s.push (some code.frame) bindings))
    (hdrop : ∀ s id, I s → I (s.drop id)) : (inFrame code bindings a).Yields I V := by
  intro m r m' hm hr
  by_cases hlive : m.store.isLive code.frame = true
  · rw [apply_inFrame hlive] at hr
    obtain ⟨⟨r₁, m₁⟩, hrun, heq⟩ := Option.map_eq_some_iff.mp hr
    cases heq
    obtain ⟨hm₁, hV⟩ := h _ _ _ _ (hpush _ hm) hrun
    exact ⟨hdrop _ _ hm₁, hV⟩
  · rw [Action.inFrame, apply_ofFun, if_neg hlive] at hr
    cases hr
    exact ⟨hm, by simp⟩

end Action.Yields

/-! ## Scripts -/

/-- Whether all bindings of blocks in a script have values with a property, and so have the flows
that it ends with, as long as the flows of its blocks have. -/
def Script.Passes (B : Option Bindings → Prop) (V : Flow → Prop) : Script → Prop
  | finish flow => V flow
  | fail _ | exhausted => True
  | ask _ next => ∀ v, (next v).Passes B V
  | block _ _ bindings next => B bindings ∧ ∀ flow, V flow → (next flow).Passes B V

section Scripts

variable {I : Store → Prop} {B : Option Bindings → Prop} {V : Flow → Prop}
  {invoke : Code → Option Bindings → Bool → Action σ Flow}
  (hinvoke : ∀ code bindings procedure, B bindings → (invoke code bindings procedure).Yields I V)

include hinvoke

/-- A script yields flows with the property if its blocks do. -/
theorem Script.Passes.yields {s : Script} (hs : s.Passes B V) : (s.run invoke).Yields I V := by
  induction s with
  | finish flow => exact .pure hs
  | fail f => exact .fail f
  | exhausted => exact .exhausted
  | ask question next ih =>
    exact Action.Yields.store.bind fun _ _ =>
      (Action.Yields.ofEval (V := fun _ => True) fun _ _ => trivial).bind fun v _ => ih v (hs v)
  | block role code bindings next ih =>
    exact (hinvoke code bindings false hs.1).bind fun flow hflow => ih flow (hs.2 flow hflow)

/-- Where a block of a script starts, the store is of the kind that is kept. -/
theorem Script.Passes.of_mem_calls {s : Script} (hs : s.Passes B V) {m : Machine σ}
    (hm : I m.store) {call : Call σ} (hcall : call ∈ s.calls invoke m) :
    I call.start.store ∧ B call.bindings := by
  induction s generalizing m with
  | finish | fail | exhausted => simp [calls] at hcall
  | ask question next ih =>
    rw [calls] at hcall
    split at hcall
    · exact ih _ (hs _) hm hcall
    · simp at hcall
    · simp at hcall
  | block role code bindings next ih =>
    rw [calls] at hcall
    rcases List.mem_cons.mp hcall with rfl | hcall
    · exact ⟨hm, hs.1⟩
    · split at hcall
      · next flow m' hflow =>
        obtain ⟨hm', hV⟩ := hinvoke code bindings false hs.1 _ _ _ hm hflow
        exact ih flow (hs.2 flow (hV flow rfl)) hm' hcall
      · simp at hcall
      · simp at hcall

end Scripts

/-- Whether the value that came out has a property. -/
def Flow.All (Q : Value → Prop) (flow : Flow) : Prop := ∀ v, flow.value? = some v → Q v

/-- Where no value comes out, nothing has to have the property. -/
theorem Flow.all_next_none {Q : Value → Prop} : (Flow.next none).All Q := by
  intro v hv
  cases hv

/-- Whether all bindings have values with a property. -/
def Bindings.All (Q : Value → Prop) (bindings : Option Bindings) : Prop :=
  ∀ b ∈ bindings.getD [], Q b.2

section Controls

variable {Q : Value → Prop}

/-- A block of a loop, after which the loop ends if the block has left. -/
private theorem passes_loop {role : Role} {code : Code} {bindings : Option Bindings}
    {next : Flow → Script} (hbindings : Bindings.All Q bindings)
    (h : ∀ flow, (next flow).Passes (Bindings.All Q) (Flow.All Q)) :
    (Script.block role code bindings fun flow =>
      if flow.isLeave then .finish flow else next flow).Passes (Bindings.All Q) (Flow.All Q) := by
  refine ⟨hbindings, fun flow hflow => ?_⟩
  cases flow with
  | next v => exact h (.next v)
  | leave v => exact hflow

/-- The branches of an `if` pass the property on. -/
theorem Branch.passes_script (effort : ℕ) (frame : FrameId) (branches : List Branch) :
    (script effort frame branches).Passes (Bindings.All Q) (Flow.All Q) := by
  have hnone : Bindings.All Q none := by simp [Bindings.All]
  refine script_induction (P := Script.Passes (Bindings.All Q) (Flow.All Q)) Flow.all_next_none ?_
    (fun _ _ h => h) ?_ effort frame branches
  · exact fun _ => ⟨hnone, fun _ h => h⟩
  · exact fun _ _ h => ⟨hnone, fun _ _ => h _⟩

/-- A `while` passes the property on. -/
theorem passes_whileScript (condition body : Code) (rounds : ℕ) :
    (whileScript condition body rounds).Passes (Bindings.All Q) (Flow.All Q) := by
  have hnone : Bindings.All Q none := by simp [Bindings.All]
  induction rounds with
  | zero => trivial
  | succ rounds ih =>
    refine passes_loop hnone fun flow => ?_
    split
    · exact passes_loop hnone fun _ => ih
    · exact Flow.all_next_none

/-- A `repeat` passes the property on, if numbers have it. -/
theorem passes_countScript (hnumber : ∀ x, Q (.number x)) (limit : Float) (name : String)
    (body : Code) (rounds : ℕ) (counter : Float) :
    (countScript limit name body rounds counter).Passes (Bindings.All Q) (Flow.All Q) := by
  induction rounds generalizing counter with
  | zero => trivial
  | succ rounds ih =>
    unfold countScript
    split
    · exact passes_loop (by simpa [Bindings.All] using hnumber counter) fun _ => ih _
    · exact Flow.all_next_none

/-- An `each` passes the property on, if its items have it. -/
theorem passes_eachScript (name : String) (body : Code) {items : List Value}
    (hitems : ∀ v ∈ items, Q v) :
    (eachScript name body items).Passes (Bindings.All Q) (Flow.All Q) := by
  induction items with
  | nil => exact Flow.all_next_none
  | cons v rest ih =>
    rw [List.forall_mem_cons] at hitems
    exact passes_loop (by simpa [Bindings.All] using hitems.1) fun _ => ih hitems.2

/-- Each control command passes on a property that values pass on. -/
theorem Control.passes_script (hQ : Hereditary Q) (c : Control) (effort : ℕ) (settings : Settings)
    (frame : FrameId) {arguments : List Actual} (harguments : ∀ a ∈ arguments, Q a.toValue) :
    (c.script effort settings frame arguments).Passes (Bindings.All Q) (Flow.All Q) := by
  cases c with
  | ifElse =>
    simp only [script]
    split
    · trivial
    · exact Branch.passes_script _ _ _
  | whileTrue =>
    simp only [script]
    split
    · exact passes_whileScript _ _ _
    · trivial
    · trivial
  | repeatTimes =>
    simp only [script]
    split
    · trivial
    · exact passes_countScript hQ.number _ _ _ _ _
  | eachItem =>
    simp only [script]
    split
    · trivial
    · split
      · trivial
      · next items hitems =>
        refine passes_eachScript _ _ (hQ.of_eachItems (fun a ha => ?_) hitems)
        exact harguments a (mem_of_mem_loopName (List.mem_of_mem_head? ha))

end Controls

/-! ## Runs -/

section Runs

variable {Q : Value → Prop} (hQ : Hereditary Q) (hcode : ∀ c, Q (.code c)) {i : Interpreter σ}
  {effort : ℕ} {frame : FrameId}

open Logo.Action (Yields)

include hQ

/-- A simple command writes its arguments, or a procedure that it makes of one. -/
theorem Effect.yields (hcode : ∀ c, Q (.code c)) {command : Command σ} {arguments : List Actual}
    {effect : Effect} (hof : effect.IsOf command arguments) (hpasses : effect.Passes arguments)
    (harguments : ∀ a ∈ arguments, Q a.toValue) :
    (effect.run effort frame : Action σ Flow).Yields (Store.All Q) (Flow.All Q) := by
  cases effect with
  | finish flow =>
    refine .pure fun v hv => ?_
    obtain ⟨a, ha, rfl⟩ := hpasses v hv
    exact harguments a ha
  | fail f => exact .fail f
  | send message =>
    intro m r m' hm hr
    cases hr
    refine ⟨hm, fun flow hflow => ?_⟩
    cases hflow
    exact Flow.all_next_none
  | create path v =>
    have hv : Q v := by
      obtain ⟨_, a, ha, rfl | ⟨code, params, rfl, rfl⟩⟩ := hof
      · exact harguments a ha
      · exact hcode _
    exact (Yields.updateStore fun s s' hs hcreate => hs.create hQ hv hcreate).bind
      fun _ _ => .pure Flow.all_next_none
  | set path v =>
    obtain ⟨_, a, rest, rfl, rfl⟩ := hof
    exact (Yields.updateStore fun s s' hs hset => hs.set hQ (harguments a (by simp)) hset).bind
      fun _ _ => .pure Flow.all_next_none

namespace Interpreter

/-- Giving a value with the property to the target of a statement keeps it in the store. -/
theorem yields_bindTarget (s : Statement) {flow : Flow} (hflow : flow.All Q) :
    (bindTarget effort frame s flow : Action σ Unit).Yields (Store.All Q) fun _ => True := by
  unfold bindTarget
  split
  · exact .pure trivial
  · split
    · exact .fail _
    · next v hv =>
      refine .updateStore fun store store' hstore h => ?_
      split at h
      · exact hstore.create hQ (hflow v hv) h
      · exact hstore.set hQ (hflow v hv) h

include hcode

/-- The command of a statement yields a value with the property, if the blocks that it runs do. -/
theorem yields_dispatch (hregistry : i.registry = .standard)
    (hinvoke : ∀ code bindings procedure, Bindings.All Q bindings →
      ((i.runner effort).invoke code bindings procedure).Yields (Store.All Q) (Flow.All Q))
    (s : Statement) :
    (i.dispatch (i.runner effort) frame s).Yields (Store.All Q) (Flow.All Q) := by
  refine Yields.store.bind fun store hstore => ?_
  have hvalidate (signature : Signature) (arguments : List Actual)
      (h : validate effort store frame s.label signature s.arguments = pure arguments) :
      ∀ a ∈ arguments, Q a.toValue :=
    hQ.of_validate (fun _ _ hv => hstore.find? hv) (fun _ _ _ => hcode _) h
  cases hfind : i.registry.find? s.label with
  | some command =>
    refine (Yields.ofEval (hvalidate command.signature)).bind fun arguments harguments => ?_
    obtain ⟨hmem, _⟩ := Registry.mem_of_find?_standard (hregistry ▸ hfind)
    rcases Command.standard_passes hmem with ⟨c, rfl⟩ | ⟨effect, hdoes, hpasses⟩
    · rw [c.handler_run]
      exact (c.passes_script hQ _ _ _ harguments).yields hinvoke
    · rw [hdoes.handler_run]
      exact Effect.yields hQ hcode (hdoes.isOf arguments) (hpasses arguments) harguments
  | none =>
    dsimp only
    cases store.procedure? frame s.label with
    | some code =>
      refine Yields.store.bind fun store' hstore' => ?_
      refine (Yields.ofEval (V := fun arguments => ∀ a ∈ arguments, Q a.toValue)
        fun arguments h => ?_).bind fun arguments harguments => ?_
      · exact hQ.of_validate (fun _ _ hv => hstore'.find? hv) (fun _ _ _ => hcode _) h
      · exact hinvoke code _ true (forall_bindParams harguments code.params)
    | none =>
      refine (Yields.ofEval fun v hv =>
        hQ.of_evaluateStatement (fun _ _ h => hstore.find? h) hv).bind fun v hv => ?_
      refine .pure fun w hw => ?_
      cases hw
      exact hv

/-- A statement yields a value with the property, if the blocks that it runs do. -/
theorem yields_runStatement (hregistry : i.registry = .standard)
    (hinvoke : ∀ code bindings procedure, Bindings.All Q bindings →
      ((i.runner effort).invoke code bindings procedure).Yields (Store.All Q) (Flow.All Q))
    (s : Statement) :
    (i.runStatement (i.runner effort) frame s).Yields (Store.All Q) (Flow.All Q) := by
  have hannounce : (i.hooks.announce s).Yields (Store.All Q) fun _ => True := by
    intro m r m' hm hr
    rw [Hooks.store_of_announce hr]
    exact ⟨hm, fun _ _ => trivial⟩
  refine hannounce.bind fun _ _ => ?_
  refine (yields_dispatch hQ hcode hregistry hinvoke s).bind fun flow hflow => ?_
  exact (yields_bindTarget hQ s hflow).bind fun _ _ => .pure hflow

omit hQ hcode in
/-- Statements in a row yield a value with the property, if each of them does. -/
theorem yields_runStatements {step : Statement → Action σ Flow}
    (hstep : ∀ s, (step s).Yields (Store.All Q) (Flow.All Q)) {last : Option Value}
    (hlast : ∀ v, last = some v → Q v) (body : List Statement) :
    (runStatements step last body).Yields (Store.All Q) (Flow.All Q) := by
  induction body generalizing last with
  | nil => exact .pure hlast
  | cons s rest ih =>
    refine ((hstep s).atLine _).bind fun flow hflow => ?_
    cases flow with
    | leave v => exact .pure hflow
    | next v => exact ih hflow

omit hQ hcode in
/-- Code in a new frame leaves a store of the kind that it was given, if its block does. -/
theorem yields_invoke_of_runBlock
    (hblock : ∀ body frame procedure,
      (i.runBlock effort body frame procedure).Yields (Store.All Q) (Flow.All Q))
    (code : Code) (bindings : Option Bindings) (procedure : Bool)
    (hbindings : Bindings.All Q bindings) :
    ((i.runner effort).invoke code bindings procedure).Yields (Store.All Q) (Flow.All Q) :=
  .inFrame (fun id => hblock code.body id procedure) code bindings
    (fun _ hs => hs.push _ hbindings) fun _ _ hs => hs.drop _

/-- A block yields a value with the property, whatever the effort. -/
theorem yields_runBlock (hregistry : i.registry = .standard) (effort : ℕ) (body : List Statement)
    (frame : FrameId) (procedure : Bool) :
    (i.runBlock effort body frame procedure).Yields (Store.All Q) (Flow.All Q) := by
  induction effort generalizing body frame procedure with
  | zero => exact .exhausted
  | succ effort ih =>
    rw [runBlock_succ]
    have hstep s : (i.runStatement (i.runner effort) frame s).Yields (Store.All Q) (Flow.All Q) :=
      yields_runStatement hQ hcode hregistry (yields_invoke_of_runBlock ih) s
    refine ((yields_runStatements hstep (by simp) body).nested _).bind fun flow hflow => .pure ?_
    split
    · cases flow with
      | next v => exact hflow
      | leave v => exact hflow
    · exact hflow

/-- A block in a new frame yields a value with the property, if its bindings have it. -/
theorem yields_invoke (hregistry : i.registry = .standard) (effort : ℕ) (code : Code)
    (bindings : Option Bindings) (procedure : Bool) (hbindings : Bindings.All Q bindings) :
    ((i.runner effort).invoke code bindings procedure).Yields (Store.All Q) (Flow.All Q) :=
  yields_invoke_of_runBlock (yields_runBlock hQ hcode hregistry effort) code bindings procedure
    hbindings

end Interpreter

include hcode

/-- The blocks that a statement runs start with a store of the kind that the statement starts
with. -/
theorem StatementRun.Invokes.all (hregistry : i.registry = .standard) {st : StatementRun σ}
    {v : Invocation σ} (h : st.Invokes i v) (hst : st.start.store.All Q) (effort : ℕ) :
    (v.blockRun effort).start.store.All Q := by
  cases h with
  | @control effort' frame s start announced c arguments call hannounce hcommand harguments hcall =>
    rw [← Hooks.store_of_announce hannounce] at hst
    have hvalues : ∀ a ∈ arguments, Q a.toValue :=
      hQ.of_validate (fun _ _ hv => hst.find? hv) (fun _ _ _ => hcode _) harguments
    obtain ⟨hstart, hbindings⟩ := (c.passes_script hQ effort' i.settings frame hvalues).of_mem_calls
      (Interpreter.yields_invoke hQ hcode hregistry effort') hst hcall
    exact hstart.push _ hbindings
  | procedure hannounce hcommand hprocedure harguments =>
    rw [← Hooks.store_of_announce hannounce] at hst
    have hvalues := hQ.of_validate (fun _ _ hv => hst.find? hv) (fun _ _ _ => hcode _) harguments
    exact hst.push _ (forall_bindParams hvalues _)

/-- **A run passes on what values pass on.** Let a property be passed on from values to their
members and back, and let all code have it. If all variables have it where a block starts, they have
it where any statement starts that is run in the block, at any depth, and where the block ends. -/
theorem BlockRun.all (hregistry : i.registry = .standard) {b : BlockRun σ}
    (hb : b.start.store.All Q) :
    (∀ st, b.Contains i st → st.start.store.All Q) ∧
      ∀ procedure r m', b.outcome i procedure = some (r, m') → m'.store.All Q := by
  have hstarts {b : BlockRun σ} {st : StatementRun σ} (hb : b.start.store.All Q)
      (hst : b.Starts i st) : st.start.store.All Q := by
    cases hst with
    | @intro effort frame start reached before after last s hdepth hbefore =>
      have hyields : (runStatements (i.runStatement (i.runner effort) frame) none before).Yields
          (Store.All Q) (Flow.All Q) :=
        Interpreter.yields_runStatements (Interpreter.yields_runStatement hQ hcode hregistry
          (Interpreter.yields_invoke hQ hcode hregistry effort)) (by simp) before
      exact (hyields { start with depth := start.depth + 1 } _ _ hb hbefore).1
  refine ⟨fun st hst => ?_, fun procedure r m' hr =>
    (Interpreter.yields_runBlock hQ hcode hregistry _ _ _ procedure _ _ _ hb hr).1⟩
  induction hst with
  | direct hst => exact hstarts hb hst
  | nested hst hinvokes _ _ ih => exact ih (hinvokes.all hQ hcode hregistry (hstarts hb hst) _)

end Runs

/-! ## Names of fields -/

/-- Whether no object in a value has two fields of the same name. -/
inductive Value.Tidy : Value → Prop
  | number (x : Float) : Tidy (number x)
  | code (c : Code) : Tidy (code c)
  | array {items : List Value} (hitems : ∀ v ∈ items, Tidy v) : Tidy (array items)
  | object {fields : List (String × Value)} (hnames : (fields.map Prod.fst).Nodup)
      (hfields : ∀ field ∈ fields, Tidy field.2) : Tidy (object fields)

/-- Names stay different when a value is put under a name. -/
theorem nodup_putField {fields : List (String × α)} (h : (fields.map Prod.fst).Nodup)
    (name : String) (v : α) : ((putField fields name v).map Prod.fst).Nodup := by
  rw [map_fst_putField]
  split
  · exact h
  · next hnew =>
    refine List.nodup_append.mpr ⟨h, by simp, fun key hkey other hother => ?_⟩
    rw [List.mem_singleton.mp hother]
    rintro rfl
    exact hnew hkey

/-- Values pass on that no object in them has two fields of the same name. -/
theorem Value.hereditary_tidy : Hereditary Tidy where
  number := .number
  array := by
    refine ⟨fun h => ?_, .array⟩
    cases h with
    | array hitems => exact hitems
  empty := .object (by simp) (by simp)
  field h := by
    cases h with
    | object _ hfields => exact hfields
  putField h hv name := by
    cases h with
    | object hnames hfields =>
      exact .object (nodup_putField hnames name _) (forall_putField hfields hv)

/-- Whether no object in a store has two fields of the same name. -/
def Store.Tidy (s : Store) : Prop := s.All Value.Tidy

/-- A store without frames is tidy. -/
theorem Store.tidy_empty : ({} : Store).Tidy := by simp [Tidy, All]

/-- The fields of an object in a tidy store have different names. -/
theorem Store.Tidy.nodup {s : Store} (h : s.Tidy) {id : FrameId} {name : String}
    {fields : List (String × Value)} (hfind : s.find? id name = some (.object fields)) :
    (fields.map Prod.fst).Nodup := by
  cases All.find? h hfind with
  | object hnames _ => exact hnames

/-- Objects never get two fields of the same name: if none has where a session starts, none has
where any of its statements starts, at any depth, nor where the session ends. -/
theorem Interpreter.tidy_of_runSession {i : Interpreter σ} (hregistry : i.registry = .standard)
    {effort : ℕ} {program : List Statement} {frame : FrameId} {m : Machine σ}
    (hm : m.store.Tidy) :
    (∀ st, (i.sessionBlock effort program frame m).Contains i st → st.start.store.Tidy) ∧
      ∀ r m', i.runSession effort program frame m = some (r, m') → m'.store.Tidy := by
  obtain ⟨hstarts, hends⟩ := BlockRun.all Value.hereditary_tidy .code hregistry
    (b := i.sessionBlock effort program frame m) hm
  refine ⟨hstarts, fun r m' h => ?_⟩
  rcases store_of_runSession h with hsame | ⟨r₁, m₁, hrun, hsame⟩
  · rw [hsame]
    exact hm
  · rw [hsame]
    exact hends false r₁ m₁ hrun

end Logo
