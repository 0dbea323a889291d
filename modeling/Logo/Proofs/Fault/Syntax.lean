import Logo.Proofs.Argument.Check
import Logo.Proofs.Evaluation.Termination
import Logo.Proofs.Fault.Stage
import Logo.Proofs.Interpreter.Dispatch
import Logo.Proofs.Path.Key
import Mathlib.Logic.Relation

/-!
# Faults of the form of expressions

An expression is compiled before it is run, and running it has no fault of its form. But the
elements of literals and the indexes of paths are compiled only when they are evaluated. So such a
fault is one of an expression that is needed and that does not compile, at any depth.
-/

namespace Logo

open Relation (ReflTransGen TransGen)

/-! ## Needed expressions -/

/-- An evaluation that fails did not run out of effort. -/
theorem Eval.ne_exhausted_of_eq_throw {α : Type} {e : Eval α} {f : Fault} (h : e = throw f) :
    e ≠ exhausted :=
  h ▸ throw_ne_exhausted f

namespace Oracle

variable {o : Oracle} {f : Fault} {text : String}

/-- An oracle that knows nothing of the texts with a certain fault. -/
def forget (o : Oracle) (f : Fault) : Oracle := fun text =>
  match (o text).run with
  | some (.error g) => if g = f then Eval.exhausted else throw g
  | _ => o text

/-- An oracle that forgets a fault gives no answer where it stood, and the same answer everywhere
else. -/
theorem forget_eq_or (o : Oracle) (f : Fault) (text : String) :
    o text = throw f ∧ o.forget f text = Eval.exhausted ∨
      o text ≠ throw f ∧ o.forget f text = o text := by
  rcases (o text).cases_outcome with h | ⟨g, h⟩ | ⟨v, h⟩
  · refine .inr ⟨h ▸ (Eval.throw_ne_exhausted f).symm, ?_⟩
    simp only [forget, h]
    rfl
  · by_cases hg : g = f
    · subst hg
      refine .inl ⟨h, ?_⟩
      simp only [forget, h]
      exact if_pos rfl
    · refine .inr ⟨fun hf => ?_, ?_⟩
      · exact hg (Except.error.inj (Option.some.inj (h.symm.trans hf)))
      · simp only [forget, h]
        exact if_neg hg
  · refine .inr ⟨fun hf => ?_, ?_⟩
    · cases h.symm.trans hf
    · simp only [forget, h]
      rfl

/-- An oracle extends itself with a fault forgotten. -/
theorem extends_forget (o : Oracle) (f : Fault) : o.Extends (o.forget f) := by
  intro text hknown
  rcases o.forget_eq_or f text with ⟨_, hforgotten⟩ | ⟨_, hsame⟩
  · exact absurd hforgotten hknown
  · exact hsame.symm

end Oracle

namespace Environment

variable {env : Environment} {expression text : String} {f : Fault} {effort : ℕ}

/-- A fault of the form of an expression is one of compiling it, or one of an expression that it
needs. -/
theorem exists_needs_of_throw (hf : f.IsSyntax) (hcompile : compile expression ≠ .error f)
    (h : evaluate (effort + 1) env expression = throw f) :
    ∃ text, env.Needs expression text ∧ evaluate effort env text = throw f := by
  let o : Oracle := evaluate effort env
  have hasks := env.asks_step expression
  have hstep : env.step o expression = throw f := h
  -- Without the texts that have the fault, the expression does not have it and has no end.
  have hraises : (env.step (o.forget f) expression).Raises (· ≠ f) := by
    refine raises_step (fun g hg => ?_) (fun g hg => ?_) (fun g hg => ?_) fun text _ g hg => ?_
    · rintro rfl
      exact hf.not_isReference hg
    · rintro rfl
      exact hf.not_isOperation hg
    · rintro rfl
      exact hcompile hg
    · rintro rfl
      rcases o.forget_eq_or g text with ⟨_, hforgotten⟩ | ⟨hne, hsame⟩
      · cases hforgotten.symm.trans hg
      · exact hne (hsame.symm.trans hg)
  have hunknown : env.step (o.forget f) expression = Eval.exhausted := by
    by_contra hknown
    have hsame := hasks.stable (o.extends_forget f) hknown
    exact hraises f (hsame.symm.trans hstep) rfl
  obtain ⟨text, _, hnone, hfault⟩ := hasks.first hunknown
  have htakes (g : Fault) : env.step (Function.update o text (throw g)) expression = throw g := by
    rw [hasks.stable ((o.extends_forget f).update text (throw g))
      (Eval.ne_exhausted_of_eq_throw (hfault g)), hfault g]
  have hneeds : env.Needs expression text := ⟨effort, htakes⟩
  refine ⟨text, hneeds, ?_⟩
  rcases o.forget_eq_or f text with ⟨hthrow, _⟩ | ⟨_, hsame⟩
  · exact hthrow
  · -- A text that was not known before would have been waited for.
    exact absurd (hsame.symm.trans hnone)
      (hneeds.evaluate_ne_exhausted (Eval.ne_exhausted_of_eq_throw h))

/-- The fault of an expression is one of each expression that needs it. -/
theorem Needs.exists_throw (h : env.Needs expression text)
    (hfault : evaluate effort env text = throw f) :
    ∃ effort', evaluate effort' env expression = throw f := by
  obtain ⟨enough, henough⟩ := h
  refine ⟨max effort enough + 1, ?_⟩
  have hextends : Oracle.Extends (evaluate (max effort enough) env)
      (Function.update (evaluate enough env) text (throw f)) := by
    intro other hother
    by_cases hsame : other = text
    · subst hsame
      rw [Function.update_self, evaluate_extends env (le_max_left effort enough) other
        (Eval.ne_exhausted_of_eq_throw hfault), hfault]
    · rw [Function.update_of_ne hsame] at hother ⊢
      exact evaluate_extends env (le_max_right effort enough) other hother
  rw [evaluate_succ, (env.asks_step expression).stable hextends
    (Eval.ne_exhausted_of_eq_throw (henough f)), henough f]

/-- An expression has a fault of form if it needs, at any depth, one that does not compile. -/
theorem exists_throw_iff (hf : f.IsSyntax) :
    (∃ effort, evaluate effort env expression = throw f) ↔
      ∃ text, ReflTransGen env.Needs expression text ∧ compile text = .error f := by
  constructor
  · rintro ⟨effort, h⟩
    induction effort generalizing expression with
    | zero => cases h
    | succ effort ih =>
      by_cases hcompile : compile expression = .error f
      · exact ⟨expression, .refl, hcompile⟩
      · obtain ⟨needed, hneeds, hfault⟩ := exists_needs_of_throw hf hcompile h
        obtain ⟨text, hpath, htext⟩ := ih hfault
        exact ⟨text, .head hneeds hpath, htext⟩
  · rintro ⟨text, hpath, hcompile⟩
    induction hpath using ReflTransGen.head_induction_on with
    | refl =>
      refine ⟨1, ?_⟩
      rw [evaluate, hcompile]
      rfl
    | head hneeds _ ih =>
      obtain ⟨effort, hfault⟩ := ih
      exact hneeds.exists_throw hfault

end Environment

/-! ## Expressions that compile at every depth -/

/-- Paths are read, but no variable has a value. -/
def Environment.bare : Environment := .names fun _ => none

/-- Whether an expression compiles, the expressions in it do so at every depth, and no names are
replaced in its paths. -/
inductive CompilesThroughout : String → Prop
  | intro {expression : String} {instructions : List Instruction}
      (hcompile : compile expression = .ok instructions)
      (hpaths : ∀ path, .load path ∈ instructions → Path.KeepsInside 0 path.toList)
      (hnested : ∀ text ∈ Environment.bare.nested expression, CompilesThroughout text) :
      CompilesThroughout expression

/-- A path in which no names are replaced compiles throughout if the expressions in it do. -/
theorem CompilesThroughout.of_load {path : String} (hcompile : compile path = .ok [.load path])
    (hpath : Path.KeepsInside 0 path.toList)
    (hnested : ∀ text ∈ Environment.bare.nested path, CompilesThroughout text) :
    CompilesThroughout path :=
  .intro hcompile (by simpa using hpath) hnested

/-- Where no names are replaced, the indexes of a path are the ones that are written in it. -/
theorem Environment.indexes_subset (env : Environment) {path : String}
    (h : Path.KeepsInside 0 path.toList) : env.indexes path ⊆ bare.indexes path := by
  cases env with
  | constant => exact List.nil_subset _
  | names find? =>
    simp only [indexes, bare, Path.expand, Path.expandFrom_of_keepsInside h]
    exact List.Subset.refl _

/-- An expression that compiles at every depth has no fault of form, whatever the variables are. -/
theorem CompilesThroughout.raises_evaluate {expression : String} (h : CompilesThroughout expression)
    (env : Environment) (effort : ℕ) :
    (evaluate effort env expression).Raises fun f => ¬f.IsSyntax := by
  induction h generalizing effort with
  | @intro expression instructions hcompile hpaths _ ih =>
    cases effort with
    | zero => exact .exhausted
    | succ effort =>
      refine Environment.raises_step (fun f hf hform => hform.not_isReference hf)
        (fun f hf hform => hform.not_isOperation hf) (hcompile ▸ .ok _) fun text htext =>
          ih text ?_ effort
      simp only [Environment.nested, hcompile, List.mem_flatMap] at htext ⊢
      obtain ⟨i, hi, htext⟩ := htext
      refine ⟨i, hi, ?_⟩
      cases i with
      | load path => exact env.indexes_subset (hpaths path hi) htext
      | array elements => exact htext
      | object entries => exact htext
      | number => cases htext
      | text => cases htext
      | unary => cases htext
      | binary => cases htext
      | call => cases htext

/-! ## Conditions -/

/-- Whether an argument of an `if` is taken: a block, a plain word, or a text that compiles. -/
def Argument.IsBranchPart : Argument → Prop
  | block _ _ => True
  | text s => isPlainWord s = true ∨ ∃ instructions, compile s = .ok instructions

/-- A list is evaluated up to the first fault. -/
theorem Eval.mapM_eq_throw {α β : Type} {f : α → Eval β} {before after : List α} {a : α}
    {fault : Fault} (hbefore : ∀ b ∈ before, ∃ x, f b = pure x) (ha : f a = throw fault) :
    (before ++ a :: after).mapM f = throw fault := by
  induction before with
  | nil => rw [List.nil_append, List.mapM_cons, ha, throw_bind]
  | cons b before ih =>
    obtain ⟨⟨x, hx⟩, hbefore⟩ := List.forall_mem_cons.mp hbefore
    rw [List.cons_append, List.mapM_cons, hx, pure_bind, ih hbefore, throw_bind]

section Branches

variable {s : Store} {id : FrameId} {effort index : ℕ} {command : String}

/-- A condition that is no plain word is compiled, and is kept as it is. -/
theorem checkArgument_branchPart (effort : ℕ) (s : Store) (id : FrameId) (command : String)
    (index : ℕ) (text : String) :
    checkArgument effort s id ⟨command, index, Command.branchPart⟩ (.text text) =
      if isPlainWord text then pure (.word text) else do
        let _ ← compile text
        return .word text := by
  cases hplain : isPlainWord text with
  | true => simp [checkArgument, checkText, hplain, Command.branchPart]
  | false => simp [checkArgument, checkText, hplain, Command.branchPart]

/-- What may be a part of an `if` passes the check of its arguments. -/
theorem exists_checkArgument_branchPart {a : Argument} (h : a.IsBranchPart) :
    ∃ x, checkArgument effort s id ⟨command, index, Command.branchPart⟩ a = pure x := by
  cases a with
  | block block body => exact ⟨_, rfl⟩
  | text text =>
    refine ⟨.word text, ?_⟩
    rw [checkArgument_branchPart]
    rcases h with hplain | ⟨instructions, hcompile⟩
    · rw [if_pos hplain]
    · rw [hcompile, Eval.liftM_ok_bind, ite_self]

variable {before after : List Argument} {text : String} {f : Fault}

/-- The first condition that does not compile is the fault of an `if`. -/
theorem validate_ifElse (σ : Type) (effort : ℕ) (s : Store) (id : FrameId) (command : String)
    (hcount : 2 ≤ (before ++ .text text :: after).length)
    (hbefore : ∀ a ∈ before, a.IsBranchPart) (hplain : isPlainWord text = false)
    (hcompile : compile text = .error f) :
    validate effort s id command (Command.ifElse : Command σ).signature
      (before ++ .text text :: after) = throw f := by
  have hchecked : (Command.ifElse : Command σ).signature.checkCount command
      (before ++ .text text :: after).length = .ok () :=
    Signature.checkCount_eq_ok_iff.mpr ⟨hcount, rfl⟩
  have hpermitted {k : ℕ} (hk : k < (before ++ .text text :: after).length) :
      (Command.ifElse : Command σ).signature.permitted k (before ++ .text text :: after).length =
        Command.branchPart := by
    simp only [Command.ifElse, Signature.permitted, List.length_nil, Nat.sub_zero]
    rw [if_neg (by omega)]
    rfl
  rw [validate, hchecked, Eval.liftM_ok_bind, List.zipIdx_append, List.zipIdx_cons, Nat.zero_add]
  refine Eval.mapM_eq_throw (fun p hp => ?_) ?_
  · have hp' := List.snd_lt_of_mem_zipIdx hp
    have hlength : p.2 < (before ++ .text text :: after).length := by
      rw [List.length_append]
      omega
    dsimp only
    rw [hpermitted hlength]
    exact exists_checkArgument_branchPart (hbefore _ (List.fst_mem_of_mem_zipIdx hp))
  · dsimp only
    rw [hpermitted (by simp), checkArgument_branchPart, hplain, if_neg Bool.false_ne_true,
      hcompile]
    rfl

end Branches

/-- An array whose element lacks an operand compiles, and has the fault of its element. -/
theorem evaluate_unfinished_element (env : Environment) (effort : ℕ) :
    evaluate (effort + 2) env "[1+]" =
      throw (.malformedExpression "1+" (.missingOperandOf "+")) := by
  have houter : compile "[1+]" = .ok [.array ["1+"]] := rfl
  have hinner : compile "1+" = .error (.malformedExpression "1+" (.missingOperandOf "+")) := rfl
  have helement : evaluate (effort + 1) env "1+" =
      throw (.malformedExpression "1+" (.missingOperandOf "+")) := by
    rw [evaluate, hinner]
    rfl
  rw [evaluate, houter]
  simp [Instruction.runAll, Instruction.run, helement]

/-- **Faults of form come from expressions that are needed.** An expression that compiles has a
fault of form if and only if it needs, at some depth, an expression that does not compile, with this
fault. An expression that compiles together with all expressions in it, and in whose paths no names
are replaced, has no such fault, whatever the variables are. If the arguments of an `if` up to some
condition are taken and this condition is no plain word and does not compile, then the `if` has its
fault, which is one of form, and nothing is run. -/
theorem syntax_faults_come_from_needed_expressions {σ : Type} {i : Interpreter σ}
    (hregistry : i.registry = .standard) :
    (∀ (env : Environment) (expression : String) (f : Fault), f.IsSyntax →
      (∃ instructions, compile expression = .ok instructions) →
      ((∃ effort, evaluate effort env expression = throw f) ↔
        ∃ text, TransGen env.Needs expression text ∧ compile text = .error f)) ∧
    (∀ expression, CompilesThroughout expression → ∀ (env : Environment) (effort : ℕ) (f : Fault),
      evaluate effort env expression = throw f → ¬f.IsSyntax) ∧
    ∀ (st : Statement) (before after : List Argument) (text : String) (f : Fault),
      st.label = "if" → st.arguments = before ++ .text text :: after → 2 ≤ st.arguments.length →
      (∀ a ∈ before, a.IsBranchPart) → isPlainWord text = false → compile text = .error f →
      ∀ (effort : ℕ) (frame : FrameId) (m : Machine σ), f.IsSyntax ∧
        (i.dispatch (i.runner effort) frame st).apply m = some (.error { fault := f }, m) := by
  refine ⟨fun env expression f hf hcompile => ?_, fun expression h env effort f =>
    h.raises_evaluate env effort f, ?_⟩
  · rw [Environment.exists_throw_iff hf]
    obtain ⟨instructions, hcompile⟩ := hcompile
    constructor
    · rintro ⟨text, hpath, htext⟩
      rcases ReflTransGen.cases_head hpath with rfl | ⟨needed, hneeds, hpath⟩
      · cases hcompile.symm.trans htext
      · exact ⟨text, .head' hneeds hpath, htext⟩
    · rintro ⟨text, hpath, htext⟩
      exact ⟨text, hpath.to_reflTransGen, htext⟩
  · intro st before after text f hlabel harguments hcount hbefore hplain hcompile effort frame m
    refine ⟨raises_compile text f hcompile, ?_⟩
    have hcommand : i.registry.find? st.label = some Command.ifElse := by
      rw [hregistry, hlabel]
      rfl
    rw [harguments] at hcount
    rw [Interpreter.apply_dispatch_command hcommand, harguments,
      validate_ifElse σ effort m.store frame st.label hcount hbefore hplain hcompile,
      Action.apply_bind, Action.apply_ofEval_throw, Action.continueWith_error]

/-- An array with an unfinished element, an index in an array, and an unfinished condition. -/
theorem syntax_faults_come_from_needed_expressions_array :
    let f : Fault := .malformedExpression "1+" (.missingOperandOf "+")
    let st : Statement :=
      { label := "if", arguments := [.text "x", .block ⟨0, ⟨1, 1⟩⟩ [], .text "elif", .text "1+"],
        target := none, pos := ⟨1, 1⟩ }
    let m : Machine Unit := { store := {}, outbox := { capacity := 64 }, host := () }
    let i : Interpreter Unit := { registry := .standard }
    (f.IsSyntax ∧ compile "[1+]" = .ok [.array ["1+"]] ∧
      ∃ text, TransGen Environment.bare.Needs "[1+]" text ∧ compile text = .error f) ∧
    (CompilesThroughout "[o[k]]" ∧ ∀ (env : Environment) (effort : ℕ) (f : Fault),
      evaluate effort env "[o[k]]" = throw f → ¬f.IsSyntax) ∧
    (i.dispatch (i.runner 1) 0 st).apply m = some (.error { fault := f }, m) := by
  intro f st m i
  have hcompile : compile "[1+]" = .ok [.array ["1+"]] := rfl
  have hthroughout : CompilesThroughout "[o[k]]" := by
    have hparts : Path.parts ['[', 'k', ']'] = [.index "k"] := by
      have hclose : Text.matchingBracket? ['[', 'k', ']'] 0 = some 2 := by decide
      simp [Path.parts, hclose]
    have hindex : Environment.bare.nested "o[k]" = ["k"] := by
      change (Path.parts ['[', 'k', ']']).filterMap Path.Part.index? ++ [] = ["k"]
      rw [hparts]
      rfl
    have hvariable : Environment.bare.nested "k" = [] := by
      change (Path.parts []).filterMap Path.Part.index? ++ [] = []
      rw [Path.parts_nil]
      rfl
    have hkey : CompilesThroughout "k" := .of_load rfl (by decide) (by simp [hvariable])
    have hitem : CompilesThroughout "o[k]" :=
      .of_load rfl (by decide) (by simpa [hindex] using hkey)
    have hcompile : compile "[o[k]]" = .ok [.array ["o[k]"]] := rfl
    have hnested : Environment.bare.nested "[o[k]]" = ["o[k]"] := rfl
    exact .intro hcompile (by simp) (by simpa [hnested] using hitem)
  obtain ⟨hneeded, hnone, hreported⟩ :=
    syntax_faults_come_from_needed_expressions (i := i) rfl
  refine ⟨⟨trivial, hcompile, ?_⟩, ⟨hthroughout, hnone _ hthroughout⟩, ?_⟩
  · exact (hneeded .bare "[1+]" f trivial ⟨_, hcompile⟩).mp ⟨2, evaluate_unfinished_element .bare 0⟩
  · refine (hreported st [.text "x", .block ⟨0, ⟨1, 1⟩⟩ [], .text "elif"] [] "1+" f rfl rfl
      (by decide) ?_ (by decide) rfl 1 0 m).2
    simp only [List.forall_mem_cons]
    exact ⟨.inl (by decide), trivial, .inl (by decide), by simp⟩

/-- An array that compiles has a fault of form because of its element, and an `if` takes it as a
condition. -/
theorem compiled_array_has_fault_of_form :
    compile "[1+]" = .ok [.array ["1+"]] ∧ '<' ∉ "[1+]".toList ∧
      (∀ (env : Environment) (effort : ℕ), evaluate (effort + 2) env "[1+]" =
        throw (.malformedExpression "1+" (.missingOperandOf "+"))) ∧
      ∀ (effort : ℕ) (s : Store) (id : FrameId) (block : BlockId),
        validate effort s id "if" (Command.ifElse : Command Unit).signature
            [.text "x", .block block [], .text "elif", .text "[1+]", .block block []] =
          pure [.word "x", .value (.code { block, body := [], frame := id }), .word "elif",
            .word "[1+]", .value (.code { block, body := [], frame := id })] := by
  refine ⟨rfl, by decide, evaluate_unfinished_element, fun effort s id block => ?_⟩
  rfl

end Logo
