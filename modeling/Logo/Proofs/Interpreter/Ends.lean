import Logo.Proofs.Fault.Stage
import Logo.Proofs.Interpreter.Occurrence

/-!
# How actions end on a machine

An action ends well on a machine if every machine that it can leave has a store with a property, and
every failure has a fault with another. A sequence ends well if its parts do. From this one gets
what is true wherever a block of a script or a statement of a block starts, from what each of them
keeps.
-/

namespace Logo

variable {σ α β : Type} {Q Q' : Store → Prop} {P : Fault → Prop}

/-- An evaluation that has come to a value has left the machine alone. -/
theorem Action.of_apply_ofEval {e : Eval α} {m m' : Machine σ} {x : α}
    (h : (ofEval e).apply m = some (.ok x, m')) : e = pure x ∧ m' = m := by
  rcases e.cases_outcome with rfl | ⟨fault, rfl⟩ | ⟨y, rfl⟩
  · cases h
  · cases h
  · cases h
    exact ⟨rfl, rfl⟩

/-- The host has no access to the store. -/
theorem Hooks.store_of_announce {hooks : Hooks σ} {s : Statement} {m m' : Machine σ}
    {r : Except Failure Unit} (h : (hooks.announce s).apply m = some (r, m')) :
    m'.store = m.store := by
  obtain ⟨_, rfl⟩ := Prod.mk.inj (Option.some.inj h)
  rfl

/-- Noting the line of a failure keeps its fault. -/
theorem Failure.fault_atLine (f : Failure) (line : ℕ) : (f.atLine line).fault = f.fault := by
  unfold atLine
  split
  · rfl
  · rfl

/-- A line that is noted stays. -/
@[simp] theorem Failure.atLine_atLine (f : Failure) (line other : ℕ) :
    (f.atLine line).atLine other = f.atLine line := by
  rcases f with ⟨fault, _ | own⟩
  · rfl
  · rfl

/-- Whether an action leaves a store with the property `Q`, and fails only with faults of the kind
`P`, if it comes to an end on a machine. -/
def Action.Ends (Q : Store → Prop) (P : Fault → Prop) (a : Action σ α) (m : Machine σ) : Prop :=
  ∀ r m', a.apply m = some (r, m') → Q m'.store ∧ ∀ failure, r = .error failure → P failure.fault

namespace Action.Ends

variable {a : Action σ α} {m : Machine σ}

/-- How an action ends depends only on what it does on the machine. -/
theorem congr {b : Action σ α} {m₁ : Machine σ} (h : b.Ends Q P m₁)
    (heq : a.apply m = b.apply m₁) : a.Ends Q P m := by
  intro r m' hr
  exact h r m' (heq ▸ hr)

/-- Doing nothing leaves the store as it is. -/
theorem pure {x : α} (h : Q m.store) : (Pure.pure x : Action σ α).Ends Q P m := by
  intro r m' hr
  cases hr
  exact ⟨h, by simp⟩

/-- Failing leaves the store as it is. -/
theorem fail {f : Fault} (h : Q m.store) (hf : P f) : (fail f : Action σ α).Ends Q P m := by
  intro r m' hr
  cases hr
  refine ⟨h, fun failure hfailure => ?_⟩
  cases hfailure
  exact hf

/-- Running out of effort is no end. -/
theorem exhausted : (exhausted : Action σ α).Ends Q P m := by
  intro r m' hr
  cases hr

/-- An evaluation leaves the store as it is, and fails with its own faults only. -/
theorem ofEval {e : Eval α} (h : Q m.store) (he : e.Raises P) : (ofEval e).Ends Q P m := by
  intro r m' hr
  rcases e.cases_outcome with rfl | ⟨fault, rfl⟩ | ⟨x, rfl⟩
  · cases hr
  · cases hr
    refine ⟨h, fun failure hfailure => ?_⟩
    cases hfailure
    exact he fault rfl
  · cases hr
    exact ⟨h, by simp⟩

/-- Looking at the store leaves it as it is. -/
theorem store (h : Q m.store) : (store : Action σ Store).Ends Q P m := by
  intro r m' hr
  cases hr
  exact ⟨h, by simp⟩

/-- Sending a message leaves the store as it is. -/
theorem publish (h : Q m.store) (message : Message) :
    (publish message : Action σ Unit).Ends Q P m := by
  intro r m' hr
  cases hr
  exact ⟨h, by simp⟩

/-- A change of the store leaves the new store, or fails with its own faults and leaves the old one.
-/
theorem updateStore {f : Store → Eval Store} (h : Q m.store) (hf : (f m.store).Raises P)
    (hnew : ∀ s, f m.store = Pure.pure s → Q s) : (updateStore f : Action σ Unit).Ends Q P m := by
  intro r m' hr
  rw [apply_updateStore] at hr
  rcases (f m.store).cases_outcome with heval | ⟨fault, heval⟩ | ⟨s, heval⟩
  · rw [heval] at hr
    cases hr
  · rw [heval] at hr
    cases hr
    refine ⟨h, fun failure hfailure => ?_⟩
    cases hfailure
    exact hf fault heval
  · rw [heval] at hr
    cases hr
    exact ⟨hnew s heval, by simp⟩

/-- What follows may use that the first part was successful. -/
theorem bind {f : α → Action σ β} (ha : a.Ends Q P m)
    (hf : ∀ x m', a.apply m = some (.ok x, m') → Q m'.store → (f x).Ends Q P m') :
    (a >>= f).Ends Q P m := by
  intro r m' hr
  rw [apply_bind] at hr
  rcases hm : a.apply m with _ | ⟨failure | x, m₁⟩
  · rw [hm] at hr
    cases hr
  · rw [hm] at hr
    cases hr
    obtain ⟨hQ, hP⟩ := ha _ _ hm
    refine ⟨hQ, fun failure' hfailure => ?_⟩
    cases hfailure
    exact hP failure rfl
  · rw [hm] at hr
    exact hf x m₁ hm (ha _ _ hm).1 r m' hr

/-- Noting the line of failures does not change how an action ends. -/
theorem atLine (h : a.Ends Q P m) (line : ℕ) : (a.atLine line).Ends Q P m := by
  intro r m' hr
  rw [Action.atLine, apply_ofFun] at hr
  rcases ha : a.apply m with _ | ⟨failure | x, m₁⟩
  · rw [ha] at hr
    cases hr
  · rw [ha] at hr
    cases hr
    obtain ⟨hQ, hP⟩ := h _ _ ha
    refine ⟨hQ, fun failure' hfailure => ?_⟩
    cases hfailure
    rw [Failure.fault_atLine]
    exact hP failure rfl
  · rw [ha] at hr
    cases hr
    exact h _ _ ha

end Action.Ends

/-! ## Scripts -/

/-- Whether the script fails only with faults of the kind `P` by itself, and all blocks that it can
run have the property `B` together with their bindings. -/
def Script.Admits (P : Fault → Prop) (B : Code → Option Bindings → Prop) : Script → Prop
  | finish _ | exhausted => True
  | fail f => P f
  | ask question next => (∀ store, (question.answer store).Raises P) ∧ ∀ v, (next v).Admits P B
  | block _ code bindings next => B code bindings ∧ ∀ flow, (next flow).Admits P B

/-- If the blocks of a script keep a property of the store, it is there wherever a block starts, and
at the end. -/
theorem Script.Admits.ends {B : Code → Option Bindings → Prop} {s : Script} {m : Machine σ}
    {invoke : Code → Option Bindings → Bool → Action σ Flow} (hs : s.Admits P B) (hm : Q m.store)
    (hcalls : ∀ call ∈ s.calls invoke m, Q call.start.store → B call.code call.bindings →
      (invoke call.code call.bindings false).Ends Q P call.start) :
    (∀ call ∈ s.calls invoke m, Q call.start.store ∧ B call.code call.bindings) ∧
      (s.run invoke).Ends Q P m := by
  induction s generalizing m with
  | finish flow => exact ⟨by simp [calls], .pure hm⟩
  | fail f => exact ⟨by simp [calls], .fail hm hs⟩
  | exhausted => exact ⟨by simp [calls], .exhausted⟩
  | ask question next ih =>
    rcases (question.answer m.store).cases_outcome with heval | ⟨fault, heval⟩ | ⟨v, heval⟩
    · have hrun : ((ask question next).run invoke).apply m =
          (Action.exhausted : Action σ Flow).apply m := by
        simp only [run, Action.apply_bind, Action.apply_store, Action.continueWith_ok, heval]
        rfl
      have hcalls' : (ask question next).calls invoke m = [] := by
        simp only [calls, heval]
        rfl
      exact ⟨by simp [hcalls'], .congr .exhausted hrun⟩
    · have hrun : ((ask question next).run invoke).apply m = some (.error { fault }, m) := by
        simp only [run, Action.apply_bind, Action.apply_store, Action.continueWith_ok, heval]
        rfl
      have hcalls' : (ask question next).calls invoke m = [] := by
        simp only [calls, heval]
        rfl
      exact ⟨by simp [hcalls'], .congr (.fail hm (hs.1 m.store fault heval)) hrun⟩
    · have hrun : ((ask question next).run invoke).apply m = ((next v).run invoke).apply m := by
        simp only [run, Action.apply_bind, Action.apply_store, Action.continueWith_ok, heval]
        rfl
      have hcalls' : (ask question next).calls invoke m = (next v).calls invoke m := by
        simp only [calls, heval]
        rfl
      rw [hcalls'] at hcalls ⊢
      obtain ⟨hstarts, hends⟩ := ih v (hs.2 v) hm hcalls
      exact ⟨hstarts, hends.congr hrun⟩
  | block role code bindings next ih =>
    have hfirst : (invoke code bindings false).Ends Q P m :=
      hcalls ⟨role, code, bindings, m, (invoke code bindings false).apply m⟩ (by simp [calls]) hm
        hs.1
    have hrest flow m' (happly : (invoke code bindings false).apply m = some (.ok flow, m')) :=
      ih flow (hs.2 flow) (hfirst _ _ happly).1 fun call hcall => hcalls call (by
        simp [calls, happly, hcall])
    refine ⟨fun call hcall => ?_, hfirst.bind fun flow m' happly _ => (hrest flow m' happly).2⟩
    rw [calls] at hcall
    rcases List.mem_cons.mp hcall with rfl | hcall
    · exact ⟨hm, hs.1⟩
    · split at hcall
      · next flow m' happly => exact (hrest flow m' happly).1 call hcall
      · simp at hcall
      · simp at hcall

/-! ## Statements of a block -/

/-- If statements keep a property of the store, it is there at the end of a list of statements. -/
theorem ends_runStatements {step : Statement → Action σ Flow} {last : Option Value}
    {body : List Statement} {m : Machine σ} (hm : Q m.store)
    (hstep : ∀ before s after v reached, body = before ++ s :: after →
      (runStatements step last before).apply m = some (.ok (.next v), reached) → Q reached.store →
        (step s).Ends Q P reached) :
    (runStatements step last body).Ends Q P m := by
  induction body generalizing last m with
  | nil => exact .pure hm
  | cons s rest ih =>
    refine ((hstep [] s rest last m rfl rfl hm).atLine _).bind fun flow m' hs hm' => ?_
    cases flow with
    | leave v => exact .pure hm'
    | next v =>
      refine ih hm' fun before s' after w reached hbody hbefore hreached => ?_
      refine hstep (s :: before) s' after w reached (by rw [hbody, List.cons_append]) ?_ hreached
      rw [runStatements, Action.apply_bind, hs]
      exact hbefore

/-- If the statements of a block keep a property of the store, it is there wherever one of them
starts, and at the end. -/
theorem BlockRun.ends {i : Interpreter σ} {b : BlockRun σ} (hstart : Q b.start.store)
    (hlimit : P (.depthLimit i.settings.maxDepth))
    (hstep : ∀ st, b.Starts i st → Q st.start.store →
      (i.runStatement (i.runner st.effort) st.frame st.statement).Ends Q P st.start) :
    (∀ st, b.Starts i st → Q st.start.store) ∧
      ∀ procedure, (i.runBlock b.effort b.body b.frame procedure).Ends Q P b.start := by
  obtain ⟨_ | effort, body, frame, start⟩ := b
  · exact ⟨fun _ hst => (nomatch hst), fun _ => .exhausted⟩
  · have hbefore before after (hbody : body = before ++ after)
        (hdepth : start.depth < i.settings.maxDepth) :
        (runStatements (i.runStatement (i.runner effort) frame) none before).Ends Q P
          { start with depth := start.depth + 1 } := by
      refine ends_runStatements hstart fun before' s after' v reached heq hrun hreached => ?_
      subst hbody heq
      rw [List.append_assoc, List.cons_append] at hstep
      exact hstep ⟨effort, frame, s, reached⟩ (.intro hdepth hrun) hreached
    constructor
    · intro st hst
      cases hst with
      | intro hdepth hrun => exact (hbefore _ _ rfl hdepth _ _ hrun).1
    · intro procedure
      rw [Interpreter.runBlock_succ]
      refine Action.Ends.bind ?_ fun flow m' _ hm' => .pure hm'
      by_cases hdepth : start.depth < i.settings.maxDepth
      · intro r m' hr
        rw [Action.apply_nested hdepth] at hr
        obtain ⟨⟨r₁, m₁⟩, hrun, heq⟩ := Option.map_eq_some_iff.mp hr
        cases heq
        have hends := hbefore body [] (List.append_nil body).symm hdepth _ _ hrun
        exact hends
      · refine .congr (.fail hstart hlimit) ?_
        rw [Action.nested, Action.apply_ofFun, if_pos (Nat.not_lt.mp hdepth)]
        rfl

end Logo
