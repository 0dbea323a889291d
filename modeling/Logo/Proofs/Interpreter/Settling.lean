import Logo.Proofs.Evaluation.Termination
import Logo.Proofs.Interpreter.Dispatch
import Mathlib.Order.Filter.AtTopBot.Basic

/-!
# Actions that settle

An action may depend on the effort that there is. It settles on a machine if, from some effort on,
it ends in one and the same way. A sequence settles if its parts do. For a script this asks that its
course does not depend on the effort, that its questions are answered, and that its blocks settle.
-/

namespace Logo

open Filter

variable {σ α β : Type} {Q : Machine σ → Prop} {V : α → Prop}

/-- Whether an action ends in one way if there is enough effort, with a machine and a value that
have some properties. -/
def Action.Settles (Q : Machine σ → Prop) (V : α → Prop) (a : ℕ → Action σ α) (m : Machine σ) :
    Prop :=
  ∃ r m', (∀ᶠ effort in atTop, (a effort).apply m = some (r, m')) ∧ Q m' ∧ ∀ x, r = .ok x → V x

namespace Action.Settles

variable {a : ℕ → Action σ α} {m : Machine σ}

/-- Settling depends only on what an action does on a machine if there is enough effort. -/
theorem congr {b : ℕ → Action σ α} {m₁ : Machine σ} (h : Settles Q V b m₁)
    (heq : ∀ᶠ effort in atTop, (a effort).apply m = (b effort).apply m₁) : Settles Q V a m := by
  obtain ⟨r, m', hr, hQ, hV⟩ := h
  refine ⟨r, m', ?_, hQ, hV⟩
  filter_upwards [hr, heq] with effort hr heq
  exact heq.trans hr

/-- The first effort does not matter. -/
theorem of_succ (h : Settles Q V (fun effort => a (effort + 1)) m) : Settles Q V a m := by
  obtain ⟨r, m', hr, hQ, hV⟩ := h
  obtain ⟨enough, hr⟩ := eventually_atTop.mp hr
  refine ⟨r, m', eventually_atTop.mpr ⟨enough + 1, fun effort heffort => ?_⟩, hQ, hV⟩
  have hsucc : effort - 1 + 1 = effort := by omega
  rw [← hsucc]
  exact hr (effort - 1) (by omega)

/-- Doing nothing settles. -/
theorem pure {x : α} (hQ : Q m) (hV : V x) : Settles Q V (fun _ => Pure.pure x) m := by
  refine ⟨.ok x, m, .of_forall fun _ => rfl, hQ, fun y hy => ?_⟩
  cases hy
  exact hV

/-- Failing settles. -/
theorem fail {f : Fault} (hQ : Q m) : Settles Q V (fun _ => fail f) m :=
  ⟨.error { fault := f }, m, .of_forall fun _ => rfl, hQ, by simp⟩

/-- An evaluation settles if it comes to one result from some effort on. -/
theorem ofEval {e : ℕ → Eval α} (he : ∃ r, ∀ᶠ effort in atTop, e effort = Eval.ofExcept r)
    (hQ : Q m) (hV : ∀ effort x, e effort = Pure.pure x → V x) :
    Settles Q V (fun effort => ofEval (e effort)) m := by
  obtain ⟨fault | x, hr⟩ := he
  · refine ⟨.error { fault }, m, hr.mono fun effort h => ?_, hQ, by simp⟩
    exact congrArg (fun e => (Action.ofEval e).apply m) h
  · refine ⟨.ok x, m, hr.mono fun effort h => ?_, hQ, fun y hy => ?_⟩
    · exact congrArg (fun e => (Action.ofEval e).apply m) h
    · cases hy
      obtain ⟨effort, heffort⟩ := hr.exists
      exact hV effort x heffort

/-- A change of the store settles if it comes to one result from some effort on. -/
theorem updateStore {f : ℕ → Store → Eval Store} {V : Unit → Prop}
    (hf : ∃ r, ∀ᶠ effort in atTop, f effort m.store = Eval.ofExcept r) (hQ : Q m)
    (hnew : ∀ effort s, f effort m.store = Pure.pure s → Q { m with store := s }) (hV : V ()) :
    Settles Q V (fun effort => updateStore (f effort)) m := by
  obtain ⟨fault | s, hr⟩ := hf
  · refine ⟨.error { fault }, m, hr.mono fun effort h => ?_, hQ, by simp⟩
    rw [apply_updateStore, h]
    rfl
  · refine ⟨.ok (), { m with store := s }, hr.mono fun effort h => ?_, ?_, fun _ _ => hV⟩
    · rw [apply_updateStore, h]
      rfl
    · obtain ⟨effort, heffort⟩ := hr.exists
      exact hnew effort s heffort

/-- What follows may use that the first part comes to its value with enough effort. -/
theorem bind {W : β → Prop} {f : ℕ → α → Action σ β} (ha : Settles Q V a m)
    (hf : ∀ x m', (∀ᶠ effort in atTop, (a effort).apply m = some (.ok x, m')) → Q m' → V x →
      Settles Q W (fun effort => f effort x) m') :
    Settles Q W (fun effort => a effort >>= f effort) m := by
  obtain ⟨failure | x, m', hr, hQ, hV⟩ := ha
  · refine ⟨.error failure, m', hr.mono fun effort h => ?_, hQ, by simp⟩
    rw [apply_bind, h, continueWith_error]
  · refine (hf x m' hr hQ (hV x rfl)).congr (hr.mono fun effort h => ?_)
    rw [apply_bind, h, continueWith_ok]

/-- Noting the line of failures does not keep an action from settling. -/
theorem atLine (h : Settles Q V a m) (line : ℕ) :
    Settles Q V (fun effort => (a effort).atLine line) m := by
  obtain ⟨r, m', hr, hQ, hV⟩ := h
  refine ⟨r.mapError (·.atLine line), m', hr.mono fun effort h => ?_, hQ, fun x hx => ?_⟩
  · rw [apply_atLine, h]
    rfl
  · cases r with
    | error failure => cases hx
    | ok y => exact hV x (by cases hx; rfl)

/-- A block settles if its content does one level deeper. -/
theorem nested {Q' : Machine σ → Prop} {limit : ℕ} (hdepth : m.depth < limit)
    (h : Settles Q' V a { m with depth := m.depth + 1 }) (hQ : ∀ m', Q' m' → Q m'.rise) :
    Settles Q V (fun effort => (a effort).nested limit) m := by
  obtain ⟨r, m', hr, hQ', hV⟩ := h
  refine ⟨r, m'.rise, hr.mono fun effort h => ?_, hQ m' hQ', hV⟩
  rw [apply_nested hdepth, h]
  rfl

end Action.Settles

/-! ## Statements in order -/

/-- Statements in order settle if each of them does. -/
theorem settles_runStatements {V : Flow → Prop} {step : ℕ → Statement → Action σ Flow}
    {last : Option Value} {body : List Statement} {m : Machine σ} (hm : Q m)
    (hlast : V (.next last))
    (hstep : ∀ before s after v reached, body = before ++ s :: after →
      (∀ᶠ effort in atTop, (runStatements (step effort) last before).apply m =
        some (.ok (.next v), reached)) → Q reached →
      Action.Settles Q V (fun effort => step effort s) reached) :
    Action.Settles Q V (fun effort => runStatements (step effort) last body) m := by
  induction body generalizing last m with
  | nil => exact .pure hm hlast
  | cons s rest ih =>
    have hfirst := hstep [] s rest last m rfl (.of_forall fun _ => rfl) hm
    refine (hfirst.atLine s.pos.line).bind fun flow m' hs hm' hflow => ?_
    cases flow with
    | leave v => exact .pure hm' hflow
    | next v =>
      refine ih hm' hflow fun before s' after w reached hbody hbefore hreached => ?_
      refine hstep (s :: before) s' after w reached (by rw [hbody, List.cons_append]) ?_ hreached
      filter_upwards [hbefore, hs] with effort hbefore hs
      rw [runStatements, Action.apply_bind, hs]
      exact hbefore

/-! ## Scripts -/

/-- Whether a script asks a question, and the store that it asks it in. -/
inductive Script.Inquires (invoke : Code → Option Bindings → Bool → Action σ Flow) :
    Script → Machine σ → Question → Store → Prop
  | here {question : Question} {next : Value → Script} {m : Machine σ} :
      Inquires invoke (.ask question next) m question m.store
  | ask {question other : Question} {next : Value → Script} {m : Machine σ} {v : Value}
      {store : Store} (h : question.answer m.store = pure v)
      (hnext : Inquires invoke (next v) m other store) :
      Inquires invoke (.ask question next) m other store
  | block {role : Role} {code : Code} {bindings : Option Bindings} {next : Flow → Script}
      {m m' : Machine σ} {flow : Flow} {other : Question} {store : Store}
      (h : (invoke code bindings false).apply m = some (.ok flow, m'))
      (hnext : Inquires invoke (next flow) m' other store) :
      Inquires invoke (.block role code bindings next) m other store

/-- The questions of a script that has come to its end are answered. -/
theorem Script.Inquires.answer_ne_exhausted
    {invoke : Code → Option Bindings → Bool → Action σ Flow} {s : Script} {m : Machine σ}
    {question : Question} {store : Store} (h : s.Inquires invoke m question store)
    (hended : (s.run invoke).apply m ≠ none) : question.answer store ≠ Eval.exhausted := by
  induction h with
  | here =>
    intro hunknown
    refine hended ?_
    simp only [run, Action.apply_bind, Action.apply_store, Action.continueWith_ok, hunknown]
    rfl
  | ask h _ ih =>
    refine ih fun hnone => hended ?_
    simp only [run, Action.apply_bind, Action.apply_store, Action.continueWith_ok, h,
      Action.apply_ofEval_pure, hnone]
  | block h _ ih =>
    refine ih fun hnone => hended ?_
    rw [run, Action.apply_bind, h, Action.continueWith_ok, hnone]

/-- Whether a script takes the same course for every effort, with expressions in a frame as its
questions, and with blocks and flows that have some properties. -/
inductive Script.Uniform (frame : FrameId) (B : Code → Option Bindings → Prop) (V : Flow → Prop) :
    (ℕ → Script) → Prop
  | finish {flow : Flow} (hflow : V flow) : Uniform frame B V fun _ => .finish flow
  | fail (f : Fault) : Uniform frame B V fun _ => .fail f
  | ask {text : String} {next : ℕ → Value → Script}
      (hnext : ∀ v, Uniform frame B V fun effort => next effort v) :
      Uniform frame B V fun effort =>
        .ask ⟨effort, frame, text⟩ (next effort)
  | block {role : Role} {code : Code} {bindings : Option Bindings} {next : ℕ → Flow → Script}
      (hblock : B code bindings)
      (hnext : ∀ flow, V flow → Uniform frame B V fun effort => next effort flow) :
      Uniform frame B V fun effort => .block role code bindings (next effort)

/-- A script settles if its questions are answered and its blocks settle. -/
theorem Script.Uniform.settles {frame : FrameId} {B : Code → Option Bindings → Prop}
    {V : Flow → Prop} {s : ℕ → Script} (h : Uniform frame B V s)
    {invoke : ℕ → Code → Option Bindings → Bool → Action σ Flow} {m : Machine σ} (hm : Q m)
    (hquestions : ∀ᶠ effort in atTop, ∀ text store,
      (s effort).Inquires (invoke effort) m ⟨effort, frame, text⟩ store →
        (store.environment frame).Finishes text)
    {G : ℕ → Call σ → Prop}
    (hcalls : ∀ᶠ effort in atTop, ∀ call ∈ (s effort).calls (invoke effort) m, G effort call)
    (hblocks : ∀ role code bindings m, Q m → B code bindings →
      (∀ᶠ effort in atTop, G effort ⟨role, code, bindings, m,
        (invoke effort code bindings false).apply m⟩) →
      Action.Settles Q V (fun effort => invoke effort code bindings false) m) :
    Action.Settles Q V (fun effort => (s effort).run (invoke effort)) m := by
  induction h generalizing m with
  | finish hflow => exact .pure hm hflow
  | fail f => exact .fail hm
  | @ask text next _ ih =>
    obtain ⟨_, hfinishes⟩ := (hquestions.mono fun effort h => h text m.store .here).exists
    obtain ⟨r, enough, hr⟩ := hfinishes
    have hanswer : ∀ᶠ effort in atTop, evaluate effort (m.store.environment frame) text =
        Eval.ofExcept r := eventually_atTop.mpr ⟨enough, hr⟩
    have hrun effort :
        ((Script.ask ⟨effort, frame, text⟩ (next effort)).run (invoke effort)).apply m =
          (Action.ofEval (evaluate effort (m.store.environment frame) text) >>= fun v =>
            (next effort v).run (invoke effort)).apply m := by
      simp only [run, Question.answer, Action.apply_bind, Action.apply_store, Action.continueWith_ok]
    have hasked := Action.Settles.ofEval (V := fun _ => True) ⟨r, hanswer⟩ hm fun _ _ _ => trivial
    refine (hasked.bind fun v m' hv hm' _ => ?_).congr (.of_forall hrun)
    have hv' : ∀ᶠ effort in atTop, evaluate effort (m.store.environment frame) text = pure v ∧
        m' = m := hv.mono fun effort h => Action.of_apply_ofEval h
    obtain ⟨_, _, rfl⟩ := hv'.exists
    refine ih v hm' ?_ ?_
    · filter_upwards [hquestions, hv'] with effort h hv text store hinquires
      exact h text store (.ask hv.1 hinquires)
    · filter_upwards [hcalls, hv'] with effort h hv call hcall
      refine h call ?_
      simp only [calls, Question.answer, hv.1]
      exact hcall
  | @block role code bindings next hblock _ ih =>
    refine (hblocks role code bindings m hm hblock ?_).bind fun flow m' hflow hm' hV => ?_
    · exact hcalls.mono fun effort h => h _ (by simp [calls])
    · refine ih flow hV hm' ?_ ?_
      · filter_upwards [hquestions, hflow] with effort h hflow text store hinquires
        exact h text store (.block hflow hinquires)
      · filter_upwards [hcalls, hflow] with effort h hflow call hcall
        exact h call (by simp [calls, hflow, hcall])

end Logo
