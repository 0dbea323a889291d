import Logo.Proofs.Evaluation.Brackets
import Mathlib.Order.WellFounded

/-!
# When evaluation comes to an end

An expression needs another one if every fault of the second would be a fault of the first. The
evaluation of an expression has no end exactly when the expression needs another one, which needs
another one, and so on for ever. This takes a variable with a square bracket and one with an angle
bracket: a path may then be replaced by a longer one that has it as an index.
-/

namespace Logo

namespace Environment

variable {env : Environment} {expression text : String}

/-- Whether the evaluation of an expression comes to a value or a fault, which more effort does not
change. -/
def Finishes (env : Environment) (expression : String) : Prop :=
  ∃ result effort, ∀ more, effort ≤ more → evaluate more env expression = Eval.ofExcept result

/-- An expression comes to an end exactly if some effort is enough for it. -/
theorem finishes_iff_ne_exhausted :
    env.Finishes expression ↔ ∃ effort, evaluate effort env expression ≠ Eval.exhausted := by
  constructor
  · rintro ⟨result, effort, hresult⟩
    refine ⟨effort, ?_⟩
    rw [hresult effort le_rfl]
    exact Eval.ofExcept_ne_exhausted result
  · rintro ⟨effort, hknown⟩
    obtain ⟨result, hresult⟩ := Eval.ne_exhausted_iff.mp hknown
    refine ⟨result, effort, fun more hmore => ?_⟩
    rw [evaluate_extends env hmore expression hknown, hresult]

/-- Whether an expression needs the value of another one: once there is enough effort for what is
evaluated before, every fault of the other one would be a fault of the expression. -/
def Needs (env : Environment) (expression text : String) : Prop :=
  ∃ effort, ∀ fault,
    env.step (Function.update (evaluate effort env) text (throw fault)) expression = throw fault

/-- What an expression needs is nested in it. -/
theorem Needs.mem_nested (h : env.Needs expression text) : text ∈ env.nested expression := by
  obtain ⟨effort, hfault⟩ := h
  exact (env.asks_step expression).of_fault hfault

/-- What a finished expression needs is finished with less effort. -/
theorem Needs.evaluate_ne_exhausted {effort : ℕ} (h : env.Needs expression text)
    (hknown : evaluate (effort + 1) env expression ≠ Eval.exhausted) :
    evaluate effort env text ≠ Eval.exhausted := by
  intro hunknown
  obtain ⟨enough, hfault⟩ := h
  obtain ⟨fault, hne⟩ := Eval.exists_ne_throw (evaluate (effort + 1) env expression)
  -- The same fault, with what is known under either effort.
  let o : Oracle := Function.update (evaluate (max effort enough) env) text (throw fault)
  have hown : o.Extends (evaluate effort env) :=
    (evaluate_extends env (le_max_left effort enough)).update_left hunknown (throw fault)
  have hother : o.Extends (Function.update (evaluate enough env) text (throw fault)) :=
    (evaluate_extends env (le_max_right effort enough)).update text (throw fault)
  have hfinished := hfault fault ▸ Eval.throw_ne_exhausted fault
  apply hne
  calc evaluate (effort + 1) env expression
    _ = env.step (evaluate effort env) expression := by rw [evaluate_succ]
    _ = env.step o expression := ((env.asks_step expression).stable hown hknown).symm
    _ = env.step (Function.update (evaluate enough env) text (throw fault)) expression :=
      (env.asks_step expression).stable hother hfinished
    _ = throw fault := hfault fault

/-- Finitely many expressions can be finished with one effort. -/
theorem exists_effort (env : Environment) (texts : List String) :
    ∃ effort, ∀ text ∈ texts, env.Finishes text → evaluate effort env text ≠ Eval.exhausted := by
  induction texts with
  | nil => exact ⟨0, by simp⟩
  | cons first rest ih =>
    obtain ⟨effort, hrest⟩ := ih
    by_cases hfirst : env.Finishes first
    · obtain ⟨result, own, hown⟩ := hfirst
      refine ⟨max own effort, fun text htext hfinishes => ?_⟩
      rcases List.mem_cons.mp htext with rfl | hmem
      · rw [hown _ (le_max_left own effort)]
        exact Eval.ofExcept_ne_exhausted result
      · have hknown := hrest text hmem hfinishes
        rwa [evaluate_extends env (le_max_right own effort) text hknown]
    · refine ⟨effort, fun text htext hfinishes => ?_⟩
      rcases List.mem_cons.mp htext with rfl | hmem
      · exact absurd hfinishes hfirst
      · exact hrest text hmem hfinishes

/-- An evaluation comes to an end exactly if what it needs, and what that needs, does. -/
theorem finishes_iff_acc : env.Finishes expression ↔
    Acc (fun text expression => env.Needs expression text) expression := by
  constructor
  · intro h
    obtain ⟨effort, hknown⟩ := finishes_iff_ne_exhausted.mp h
    induction effort generalizing expression with
    | zero => exact absurd rfl hknown
    | succ effort ih =>
      refine ⟨_, fun text hneeds => ?_⟩
      have htext := hneeds.evaluate_ne_exhausted hknown
      exact ih (finishes_iff_ne_exhausted.mpr ⟨effort, htext⟩) htext
  · intro h
    induction h with
    | intro expression _ ih =>
      obtain ⟨effort, heffort⟩ := env.exists_effort (env.nested expression)
      refine finishes_iff_ne_exhausted.mpr ⟨effort + 1, fun hunknown => ?_⟩
      obtain ⟨text, hnested, hnone, hfault⟩ := (env.asks_step expression).first hunknown
      exact heffort text hnested (ih text ⟨effort, hfault⟩) hnone

/-- Without a square bracket in a variable, an effort above the number of square brackets in an
expression is enough for it. -/
theorem evaluate_ne_exhausted_of_count_lt (hsquare : ¬ env.Holds '[') {effort : ℕ}
    (heffort : expression.toList.count '[' < effort) :
    evaluate effort env expression ≠ Eval.exhausted := by
  induction effort generalizing expression with
  | zero => omega
  | succ effort ih =>
    intro hunknown
    obtain ⟨text, hnested, hnone, _⟩ := (env.asks_step expression).first hunknown
    have hfewer := count_lt_of_mem_nested hsquare hnested
    exact ih (by omega) hnone

/-- An endless evaluation takes a square bracket in a variable and an angle bracket in one. -/
theorem finishes_of_not_holds (h : ¬ env.Holds '[' ∨ ¬ env.Holds '<') (expression : String) :
    env.Finishes expression := by
  rcases h with hsquare | hangle
  · exact finishes_iff_ne_exhausted.mpr
      ⟨_, evaluate_ne_exhausted_of_count_lt hsquare (Nat.lt_succ_self _)⟩
  · apply finishes_iff_acc.mpr
    exact Subrelation.accessible (fun h => h.mem_nested)
      ((nested_wellFounded hangle).apply expression)

end Environment

/-- **Evaluation has an end unless expressions need each other without end.** An expression comes to
a value or a fault if and only if no endless chain of expressions starts with it in which each needs
the next one. Every expression does so where no variable holds a square bracket, with an effort of
one more than its own square brackets, and where no variable holds an angle bracket. -/
theorem evaluate_finishes_iff (env : Environment) :
    (∀ expression, env.Finishes expression ↔
      ¬ ∃ chain : ℕ → String, chain 0 = expression ∧ ∀ n, env.Needs (chain n) (chain (n + 1))) ∧
      (¬ env.Holds '[' → ∀ expression, ∃ result, ∀ effort, expression.toList.count '[' < effort →
        evaluate effort env expression = Eval.ofExcept result) ∧
      (¬ env.Holds '<' → ∀ expression, env.Finishes expression) := by
  refine ⟨fun expression => ?_, fun hsquare expression => ?_, fun hangle expression => ?_⟩
  · rw [Environment.finishes_iff_acc, ← not_iff_not, not_not]
    exact not_acc_iff_exists_descending_chain
  · have hknown := Environment.evaluate_ne_exhausted_of_count_lt hsquare
      (Nat.lt_succ_self (expression.toList.count '['))
    obtain ⟨result, hresult⟩ := Eval.ne_exhausted_iff.mp hknown
    refine ⟨result, fun effort heffort => ?_⟩
    rw [evaluate_extends env heffort expression hknown, hresult]
  · apply Environment.finishes_iff_acc.mpr
    exact Subrelation.accessible (fun h => h.mem_nested)
      ((Environment.nested_wellFounded hangle).apply expression)

/-- Environments in which `s` is the text `<f>` or the text `f[0]`. -/
theorem evaluate_finishes_iff_bracket :
    let env (text : String) : Environment :=
      .names fun name => if name = "s" then some (.ofText text) else none
    (¬ (env "<f>").Holds '[' ∧ ∀ expression, ∃ result, ∀ effort,
      expression.toList.count '[' < effort →
        evaluate effort (env "<f>") expression = Eval.ofExcept result) ∧
      ¬ (env "f[0]").Holds '<' ∧ ∀ expression, (env "f[0]").Finishes expression := by
  intro env
  have hholds (text : String) (c : Char) (htext : (Value.ofText text).text? = some text)
      (hc : c ∉ text.toList) : ¬ (env text).Holds c := by
    rintro ⟨find?, name, v, s, henv, hv, hs, hmem⟩
    obtain rfl := Environment.names.inj henv
    simp only [Option.ite_none_right_eq_some, Option.some.injEq] at hv
    obtain ⟨-, rfl⟩ := hv
    obtain rfl : text = s := Option.some.inj (htext.symm.trans hs)
    exact hc hmem
  have hsquare := hholds "<f>" '[' (by decide) (by decide)
  have hangle := hholds "f[0]" '<' (by decide) (by decide)
  exact ⟨⟨hsquare, (evaluate_finishes_iff (env "<f>")).2.1 hsquare⟩, hangle,
    (evaluate_finishes_iff (env "f[0]")).2.2 hangle⟩

/-- Where `s` is the text `f[a.<s>]`, the path `a.<s>` has itself as an index. -/
theorem evaluate_path_in_itself :
    let find? (name : String) :=
      if name = "a" then some (.number 0)
      else if name = "s" then some (.ofText "f[a.<s>]") else none
    ∀ effort, evaluate effort (.names find?) "a.<s>" = Eval.exhausted := by
  intro find? effort
  induction effort with
  | zero => rfl
  | succ effort ih =>
    have hcompile : compile "a.<s>" = .ok [.load "a.<s>"] := by rfl
    have hexpand : Path.expand find? "a.<s>" = .ok "a.f[a.<s>]".toList := by decide
    have hparts : Path.parts ".f[a.<s>]".toList = [.field "f", .index "a.<s>"] := by
      have hname : ['f', '[', 'a', '.', '<', 's', '>', ']'].takeWhile isIdentChar = ['f'] := by
        decide
      have hclose : Text.matchingBracket? ['[', 'a', '.', '<', 's', '>', ']'] 0 = some 6 := by
        decide
      simp [Path.parts, hname, hclose]
    have hresolve :
        Path.resolve find? (evaluate effort (.names find?)) "a.<s>" = Eval.exhausted := by
      unfold Path.resolve
      rw [hexpand]
      change (Path.parts ".f[a.<s>]".toList).mapM _ >>= _ = Eval.exhausted
      rw [hparts]
      simp only [List.mapM_cons, Path.Part.resolve, pure_bind, ih, Eval.exhausted_bind]
    simp [evaluate, hcompile, Instruction.runAll, Instruction.run, Environment.load, Path.get,
      hresolve]

end Logo
