import Logo.Argument.Validate
import Logo.Proofs.Evaluation.Query
import Logo.Proofs.Value.Codes

/-!
# What evaluation passes on

A property that values pass on is passed on from variables to the values of expressions, and to the
arguments of a command if the code of the blocks among them has it. So the value of an expression
holds no code that the variables do not hold, and the arguments of a command hold the code of
variables and, for each block among them, code of the current frame.
-/

namespace Logo

open Value (Hereditary)

namespace Value.Hereditary

variable {Q : Value → Prop} (hQ : Hereditary Q) {find? : String → Option Value}

include hQ

/-- A path leads into a variable. -/
theorem of_get {evaluate : String → Eval Value} {path : String} {w : Value}
    (hfind : ∀ name v, find? name = some v → Q v) (h : Path.get find? evaluate path = pure w) :
    Q w := by
  obtain ⟨resolved, _, h⟩ := Eval.bind_eq_pure_iff.mp h
  cases hbase : find? resolved.base with
  | none =>
    rw [hbase] at h
    cases h
  | some v =>
    rw [hbase] at h
    exact hQ.read (hfind _ v hbase) (Eval.liftM_eq_pure_iff.mp h)

/-- An instruction makes what it puts on the stack of variables and of what is on the stack. -/
theorem of_run {load evaluate : String → Eval Value} {expression : String} {i : Instruction}
    {stack stack' : List Value} (hload : ∀ path v, load path = pure v → Q v)
    (hevaluate : ∀ text v, evaluate text = pure v → Q v) (hstack : ∀ v ∈ stack, Q v)
    (h : i.run expression load evaluate stack = pure stack') : ∀ v ∈ stack', Q v := by
  cases i with
  | number x =>
    cases Eval.pure_inj.mp h
    exact List.forall_mem_cons.mpr ⟨hQ.number x, hstack⟩
  | text s =>
    cases Eval.pure_inj.mp h
    exact List.forall_mem_cons.mpr ⟨hQ.ofText s, hstack⟩
  | load path =>
    obtain ⟨v, hv, h⟩ := Eval.bind_eq_pure_iff.mp h
    cases Eval.pure_inj.mp h
    exact List.forall_mem_cons.mpr ⟨hload path v hv, hstack⟩
  | array elements =>
    obtain ⟨items, hitems, h⟩ := Eval.bind_eq_pure_iff.mp h
    cases Eval.pure_inj.mp h
    have harray := hQ.array.mpr
      (Eval.forall_mem_of_mapM_eq_pure (fun text _ => hevaluate text) hitems)
    exact List.forall_mem_cons.mpr ⟨harray, hstack⟩
  | object entries =>
    obtain ⟨fields, hfields, h⟩ := Eval.bind_eq_pure_iff.mp h
    cases Eval.pure_inj.mp h
    have hobject : Q (.object fields) := by
      refine Eval.of_foldlM_eq_pure (Q := fun fields => Q (.object fields)) ?_ hQ.empty hfields
      rintro fields ⟨key, text⟩ fields' hfields hstep
      obtain ⟨v, hv, hstep⟩ := Eval.bind_eq_pure_iff.mp hstep
      cases Eval.pure_inj.mp hstep
      exact hQ.putField hfields (hevaluate text v hv) key
    exact List.forall_mem_cons.mpr ⟨hobject, hstack⟩
  | unary op =>
    rcases stack with _ | ⟨v, rest⟩
    · cases h
    · obtain ⟨w, hw, h⟩ := Eval.bind_eq_pure_iff.mp h
      cases Eval.pure_inj.mp h
      have hw' : Q w := UnaryOp.of_apply hQ (Eval.liftM_eq_pure_iff.mp hw)
      exact List.forall_mem_cons.mpr ⟨hw', (List.forall_mem_cons.mp hstack).2⟩
  | binary op =>
    rcases stack with _ | ⟨left, _ | ⟨right, rest⟩⟩
    · cases h
    · cases h
    · obtain ⟨w, hw, h⟩ := Eval.bind_eq_pure_iff.mp h
      cases Eval.pure_inj.mp h
      simp only [List.forall_mem_cons] at hstack ⊢
      obtain ⟨hleft, hright, hrest⟩ := hstack
      exact ⟨BinaryOp.of_apply hQ hleft hright (Eval.liftM_eq_pure_iff.mp hw), hrest⟩
  | call f =>
    simp only [Instruction.run] at h
    split at h
    · obtain ⟨w, hw, h⟩ := Eval.bind_eq_pure_iff.mp h
      cases Eval.pure_inj.mp h
      have hw' : Q w := Function.of_apply hQ (Eval.liftM_eq_pure_iff.mp hw)
      exact List.forall_mem_cons.mpr ⟨hw', fun v hv => hstack v (List.mem_of_mem_drop hv)⟩
    · cases h

/-- A property that values pass on holds of the value of each expression, if it holds of all
variables. -/
theorem of_evaluate (hfind : ∀ name v, find? name = some v → Q v) {effort : ℕ}
    {expression : String} {w : Value} (h : evaluate effort (.names find?) expression = pure w) :
    Q w := by
  induction effort generalizing expression w with
  | zero => cases h
  | succ effort ih =>
    obtain ⟨instructions, _, h⟩ := Eval.bind_eq_pure_iff.mp h
    obtain ⟨stack, hstack, h⟩ := Eval.bind_eq_pure_iff.mp h
    have hvalues : ∀ v ∈ stack, Q v := by
      refine Eval.of_foldlM_eq_pure (Q := fun stack => ∀ v ∈ stack, Q v) ?_ (by simp) hstack
      intro stack i stack' hvalues hrun
      exact hQ.of_run (fun _ _ => hQ.of_get hfind) (fun _ _ => ih) hvalues hrun
    rcases stack with _ | ⟨v, _ | ⟨_, _⟩⟩
    · cases h
    · cases Eval.pure_inj.mp h
      exact hvalues _ List.mem_cons_self
    · cases h

/-! ## Arguments -/

variable {store : Store} {effort : ℕ} {frame : FrameId}
  (hfind : ∀ name v, store.find? frame name = some v → Q v)

omit hQ in
/-- The property holds of an argument that a value with this property is taken for. -/
theorem of_accept {d : Demand} {text : String} {v : Value} {a : Actual} (hv : Q v)
    (h : d.accept text v = .ok a) : Q a.toValue := by
  unfold Demand.accept at h
  split at h
  · cases h
    exact hv
  · cases h

include hfind

/-- The property holds of an argument that has been evaluated as an expression. -/
theorem of_evaluateArgument {d : Demand} {text : String} {a : Actual}
    (h : evaluateArgument effort store frame d text = pure a) : Q a.toValue := by
  unfold evaluateArgument at h
  split at h
  · obtain ⟨v, hv, h⟩ := Eval.bind_eq_pure_iff.mp h
    exact of_accept (hQ.of_evaluate hfind hv) (Eval.liftM_eq_pure_iff.mp h)
  · cases h

/-- The property holds of an argument that a text stands for, whichever way it is taken. -/
theorem of_checkText {d : Demand} {text : String} {a : Actual}
    (h : checkText effort store frame d text = pure a) : Q a.toValue := by
  unfold checkText at h
  dsimp only at h
  split at h
  · cases Eval.pure_inj.mp h
    exact hQ.ofText text
  · split at h
    · obtain ⟨_, _, h⟩ := Eval.bind_eq_pure_iff.mp h
      cases Eval.pure_inj.mp h
      exact hQ.ofText text
    · split at h
      · split at h
        · cases h
        · next v hget => exact of_accept (hQ.of_get hfind hget) (Eval.liftM_eq_pure_iff.mp h)
        · exact hQ.of_evaluateArgument hfind h
      · exact hQ.of_evaluateArgument hfind h

/-- The arguments of a command are made of variables and of its own blocks, as code of the current
frame. -/
theorem of_validate {command : String} {signature : Signature} {arguments : List Argument}
    {actuals : List Actual}
    (hframe : ∀ block body, .block block body ∈ arguments → Q (.code { block, body, frame }))
    (h : validate effort store frame command signature arguments = pure actuals) :
    ∀ a ∈ actuals, Q a.toValue := by
  obtain ⟨_, _, h⟩ := Eval.bind_eq_pure_iff.mp h
  refine Eval.forall_mem_of_mapM_eq_pure ?_ h
  rintro ⟨argument, index⟩ hmem a ha
  cases argument with
  | text s => exact hQ.of_checkText hfind ha
  | block id body =>
    simp only [checkArgument] at ha
    split at ha
    · cases Eval.pure_inj.mp ha
      exact hframe id body (List.fst_mem_of_mem_zipIdx hmem)
    · cases ha

end Value.Hereditary

/-! ## Code -/

variable {P : Code → Prop}

/-- The arguments of a command hold code of variables, and their own blocks as code of the current
frame. -/
theorem allCode_of_validate {store : Store} {effort : ℕ} {frame : FrameId}
    (hfind : ∀ name v, store.find? frame name = some v → v.AllCode P)
    {command : String} {signature : Signature} {arguments : List Argument} {actuals : List Actual}
    (hframe : ∀ block body, .block block body ∈ arguments → P { block, body, frame })
    (h : validate effort store frame command signature arguments = pure actuals) :
    ∀ a ∈ actuals, a.toValue.AllCode P :=
  (Value.hereditary_allCode P).of_validate hfind
    (fun block body hmem => Value.allCode_code.mpr (hframe block body hmem)) h

end Logo
