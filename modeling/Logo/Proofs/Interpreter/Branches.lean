import Logo.Proofs.Interpreter.Declared

/-!
# Branches of an `if`

The arguments of an `if` are read before any condition is looked at. They have to form a chain: a
condition and a block, further conditions and blocks behind `elif`, and perhaps a last block behind
`else`. The conditions of a chain are tested in order up to the first one that holds. Its block is
run, and nothing else.
-/

namespace Logo

variable {σ : Type}

/-! ## Chains -/

/-- A chain of branches: conditions with their blocks, and perhaps a block for when none of the
conditions holds. -/
structure Branch.Chain where
  first : Actual × Code
  further : List (Actual × Code)
  otherwise : Option Code

namespace Branch

/-- The branches of conditions with their blocks, and of a last block. -/
def ofTests (tests : List (Actual × Code)) (otherwise : Option Code) : List Branch :=
  tests.map (fun test => ⟨some test.1, test.2⟩) ++ otherwise.toList.map (⟨none, ·⟩)

/-- The arguments that stand for further branches behind the first one. -/
def spell (tests : List (Actual × Code)) (otherwise : Option Code) : List Actual :=
  tests.flatMap (fun test => [.word "elif", test.1, .value (.code test.2)]) ++
    otherwise.toList.flatMap fun body => [.word "else", .value (.code body)]

namespace Chain

/-- The conditions of a chain with their blocks. -/
def tests (chain : Chain) : List (Actual × Code) := chain.first :: chain.further

/-- The arguments that stand for a chain. -/
def arguments (chain : Chain) : List Actual :=
  chain.first.1 :: .value (.code chain.first.2) :: spell chain.further chain.otherwise

end Chain

/-- An argument that is code is this code as a value. -/
theorem exists_code_eq {a : Actual} {code : Code} (h : a.code? = some code) :
    a = .value (.code code) := by
  cases a with
  | word text => cases h
  | value v =>
    cases v with
    | code c =>
      cases h
      rfl
    | number | array | object => cases h

/-- Further branches are read exactly from the arguments that stand for them. -/
theorem readFrom_eq_ok_iff {index : ℕ} {arguments : List Actual} {branches : List Branch} :
    readFrom index arguments = .ok branches ↔
      ∃ tests otherwise, arguments = spell tests otherwise ∧
        branches = ofTests tests otherwise := by
  constructor
  · intro h
    fun_induction readFrom index arguments generalizing branches with
    | case1 =>
      cases h
      exact ⟨[], none, rfl, rfl⟩
    | case2 index condition body rest code hcode ih =>
      obtain ⟨others, hothers, rfl⟩ := map_eq_ok_iff.mp h
      obtain ⟨tests, otherwise, rfl, rfl⟩ := ih hothers
      obtain rfl := exists_code_eq hcode
      exact ⟨(condition, code) :: tests, otherwise, rfl, rfl⟩
    | case4 index body code hcode =>
      cases h
      obtain rfl := exists_code_eq hcode
      exact ⟨[], some code, rfl, rfl⟩
    | case3 | case5 | case6 | case7 | case8 => cases h
  · rintro ⟨tests, otherwise, rfl, rfl⟩
    induction tests generalizing index with
    | nil =>
      cases otherwise with
      | none => rfl
      | some body => rfl
    | cons test tests ih => exact map_eq_ok_iff.mpr ⟨_, ih, rfl⟩

/-- Arguments that are no chain of branches are refused for the form of the chain. -/
theorem raises_readFrom (index : ℕ) (arguments : List Actual) :
    Raises (∃ flaw, · = .malformedBranch flaw) (readFrom index arguments) := by
  fun_induction readFrom index arguments with
  | case1 | case4 => exact .ok _
  | case2 index condition body rest code hcode ih => exact Raises.map_iff.mpr ih
  | case3 | case5 | case6 | case7 | case8 => simp

/-- If there is code behind a condition, it is the argument right behind it. -/
theorem exists_cons_of_codeAt {condition : Actual} {rest : List Actual} {body : Code}
    (h : Actual.codeAt (condition :: rest) 1 = .ok body) :
    ∃ rest', rest = .value (.code body) :: rest' := by
  cases rest with
  | nil => cases h
  | cons a rest' =>
    rw [Actual.codeAt] at h
    split at h
    · next code hcode =>
      cases h
      obtain rfl := exists_code_eq (a := a) hcode
      exact ⟨rest', rfl⟩
    · cases h

/-- Branches are read exactly from the arguments that stand for a chain. -/
theorem read_eq_ok_iff {arguments : List Actual} {branches : List Branch} :
    read arguments = .ok branches ↔
      ∃ chain : Chain, arguments = chain.arguments ∧
        branches = ofTests chain.tests chain.otherwise := by
  constructor
  · intro h
    unfold read at h
    split at h
    · cases h
    · next condition rest =>
      split at h
      · cases h
      · next body hbody =>
        obtain ⟨others, hothers, rfl⟩ := map_eq_ok_iff.mp h
        obtain ⟨tests, otherwise, hrest, rfl⟩ := readFrom_eq_ok_iff.mp hothers
        obtain ⟨rest', rfl⟩ := exists_cons_of_codeAt hbody
        exact ⟨⟨(condition, body), tests, otherwise⟩, by rw [Chain.arguments, ← hrest]; rfl, rfl⟩
  · rintro ⟨chain, rfl, rfl⟩
    have hfurther : readFrom 2 (spell chain.further chain.otherwise) =
        .ok (ofTests chain.further chain.otherwise) :=
      readFrom_eq_ok_iff.mpr ⟨_, _, rfl, rfl⟩
    exact map_eq_ok_iff.mpr ⟨_, hfurther, rfl⟩

/-- Arguments that do not stand for a chain are a malformed branch. -/
theorem raises_read_malformed (arguments : List Actual) :
    Raises (∃ flaw, · = .malformedBranch flaw) (read arguments) := by
  unfold read
  split
  · simp
  · split
    · next f hf => exact Raises.error_iff.mpr (Command.raises_codeAt _ _ f hf)
    · exact Raises.map_iff.mpr (raises_readFrom _ _)

end Branch

/-! ## Conditions -/

/-- Whether a condition comes to a result. The truth of a word is that of its value as an
expression, the truth of code is that of the value that comes out, and no other value is run. -/
inductive Tests (runner : Runner σ) (frame : FrameId) :
    Actual → Machine σ → Except Failure Bool → Machine σ → Prop
  | word {text : String} {m : Machine σ} {r : Except Fault Value}
      (h : evaluate runner.effort (m.store.environment frame) text = Eval.ofExcept r) :
      Tests runner frame (.word text) m
        ((r.map Value.truthy).mapError fun fault => { fault }) m
  | code {code : Code} {m left : Machine σ} {r : Except Failure Flow}
      (h : (runner.invoke code none false).apply m = some (r, left)) :
      Tests runner frame (.value (.code code)) m (r.map Flow.truthy) left
  | value {v : Value} {m : Machine σ} (h : v.code? = none) :
      Tests runner frame (.value v) m (.ok v.truthy) m

variable {runner : Runner σ} {frame : FrameId} {m left : Machine σ}

/-- Testing a condition comes to a result exactly as described by `Tests`. -/
theorem apply_holds_iff {condition : Actual} {r : Except Failure Bool} :
    (holds runner frame condition).apply m = some (r, left) ↔
      Tests runner frame condition m r left := by
  have hother {v : Value} (hv : v.code? = none) :
      some (.ok v.truthy, m) = some (r, left) ↔ Tests runner frame (.value v) m r left := by
    constructor
    · intro h
      cases h
      exact .value hv
    · intro h
      cases h with
      | code => cases hv
      | value => rfl
  cases condition with
  | word text =>
    have happly : (holds runner frame (.word text)).apply m =
        (evaluate runner.effort (m.store.environment frame) text).run.map fun r =>
          ((r.map Value.truthy).mapError fun fault => { fault }, m) := by
      simp only [holds, Action.apply_bind, Action.apply_store, Action.continueWith_ok,
        Action.apply_ofEval]
      rcases (evaluate runner.effort (m.store.environment frame) text).run with _ | _ | v
      · rfl
      · rfl
      · rfl
    rw [happly, Option.map_eq_some_iff]
    constructor
    · rintro ⟨value, hvalue, heq⟩
      cases heq
      exact .word hvalue
    · intro h
      cases h with
      | word hvalue => exact ⟨_, hvalue, rfl⟩
  | value v =>
    cases v with
    | code code =>
      have happly : (holds runner frame (.value (.code code))).apply m =
          ((runner.invoke code none false).apply m).map
            (Prod.map (Except.map Flow.truthy) id) := by
        simp only [holds, Action.apply_bind]
        rcases (runner.invoke code none false).apply m with _ | ⟨_ | flow, m'⟩
        · rfl
        · rfl
        · rfl
      rw [happly, Option.map_eq_some_iff]
      constructor
      · rintro ⟨⟨outcome, reached⟩, hblock, heq⟩
        cases heq
        exact .code hblock
      · intro h
        cases h with
        | code hblock => exact ⟨_, hblock, rfl⟩
        | value hv => cases hv
    | number | array | object => exact hother rfl

/-- Whether conditions are tested in order, and none of them holds. -/
inductive Refused (runner : Runner σ) (frame : FrameId) :
    List Actual → Machine σ → Machine σ → Prop
  | nil (m : Machine σ) : Refused runner frame [] m m
  | cons {condition : Actual} {rest : List Actual} {m m₁ left : Machine σ}
      (hfirst : Tests runner frame condition m (.ok false) m₁)
      (hrest : Refused runner frame rest m₁ left) :
      Refused runner frame (condition :: rest) m left

/-- What becomes of conditions with their blocks, and of a last block. The conditions are tested in
order. The first one that holds has its block run, and after one that fails nothing is run. The last
block is run if no condition holds. -/
inductive Picks (runner : Runner σ) (frame : FrameId) (tests : List (Actual × Code))
    (otherwise : Option Code) (m : Machine σ) : Except Failure Flow → Machine σ → Prop
  | body {before after : List (Actual × Code)} {condition : Actual} {body : Code}
      {m₁ m₂ left : Machine σ} {r : Except Failure Flow}
      (htests : tests = before ++ (condition, body) :: after)
      (hbefore : Refused runner frame (before.map Prod.fst) m m₁)
      (hcondition : Tests runner frame condition m₁ (.ok true) m₂)
      (hbody : (runner.invoke body none false).apply m₂ = some (r, left)) :
      Picks runner frame tests otherwise m r left
  | failure {before after : List (Actual × Code)} {condition : Actual} {body : Code}
      {m₁ left : Machine σ} {f : Failure}
      (htests : tests = before ++ (condition, body) :: after)
      (hbefore : Refused runner frame (before.map Prod.fst) m m₁)
      (hcondition : Tests runner frame condition m₁ (.error f) left) :
      Picks runner frame tests otherwise m (.error f) left
  | last {body : Code} {m₁ left : Machine σ} {r : Except Failure Flow}
      (hrefused : Refused runner frame (tests.map Prod.fst) m m₁) (hlast : otherwise = some body)
      (hbody : (runner.invoke body none false).apply m₁ = some (r, left)) :
      Picks runner frame tests otherwise m r left
  | nothing {left : Machine σ} (hrefused : Refused runner frame (tests.map Prod.fst) m left)
      (hlast : otherwise = none) : Picks runner frame tests otherwise m (.ok (.next none)) left

namespace Picks

variable {condition : Actual} {body : Code} {tests : List (Actual × Code)}
  {otherwise : Option Code} {r : Except Failure Flow}

/-- Without conditions the last block is run, if there is one. -/
theorem nil_iff : Picks runner frame [] otherwise m r left ↔
    (∃ body, otherwise = some body ∧ (runner.invoke body none false).apply m = some (r, left)) ∨
      otherwise = none ∧ r = .ok (.next none) ∧ left = m := by
  constructor
  · intro h
    cases h with
    | body htests | failure htests => simp at htests
    | last hrefused hlast hbody =>
      cases hrefused
      exact .inl ⟨_, hlast, hbody⟩
    | nothing hrefused hlast =>
      cases hrefused
      exact .inr ⟨hlast, rfl, rfl⟩
  · rintro (⟨body, rfl, hbody⟩ | ⟨rfl, rfl, rfl⟩)
    · exact .last (.nil m) rfl hbody
    · exact .nothing (.nil _) rfl

/-- After a condition that does not hold, the others decide. -/
theorem cons {m₁ : Machine σ} (hfirst : Tests runner frame condition m (.ok false) m₁)
    (h : Picks runner frame tests otherwise m₁ r left) :
    Picks runner frame ((condition, body) :: tests) otherwise m r left := by
  cases h with
  | @body before after condition' body' _ _ _ _ htests hbefore hcondition hbody =>
    have htests' : (condition, body) :: tests =
        ((condition, body) :: before) ++ (condition', body') :: after := by
      rw [htests, List.cons_append]
    exact .body htests' (.cons hfirst hbefore) hcondition hbody
  | @failure before after condition' body' _ _ _ htests hbefore hcondition =>
    have htests' : (condition, body) :: tests =
        ((condition, body) :: before) ++ (condition', body') :: after := by
      rw [htests, List.cons_append]
    exact .failure htests' (.cons hfirst hbefore) hcondition
  | last hrefused hlast hbody => exact .last (.cons hfirst hrefused) hlast hbody
  | nothing hrefused hlast => exact .nothing (.cons hfirst hrefused) hlast

/-- The first condition decides, or the others do after it does not hold. -/
theorem cases_cons (h : Picks runner frame ((condition, body) :: tests) otherwise m r left) :
    (∃ f, Tests runner frame condition m (.error f) left ∧ r = .error f) ∨
      (∃ m₁, Tests runner frame condition m (.ok true) m₁ ∧
        (runner.invoke body none false).apply m₁ = some (r, left)) ∨
      ∃ m₁, Tests runner frame condition m (.ok false) m₁ ∧
        Picks runner frame tests otherwise m₁ r left := by
  cases h with
  | @body before after _ _ _ _ _ _ htests hbefore hcondition hbody =>
    cases before with
    | nil =>
      cases htests
      cases hbefore
      exact .inr (.inl ⟨_, hcondition, hbody⟩)
    | cons test before =>
      cases htests
      cases hbefore with
      | cons hfirst hrest => exact .inr (.inr ⟨_, hfirst, .body rfl hrest hcondition hbody⟩)
  | @failure before after _ _ _ _ _ htests hbefore hcondition =>
    cases before with
    | nil =>
      cases htests
      cases hbefore
      exact .inl ⟨_, hcondition, rfl⟩
    | cons test before =>
      cases htests
      cases hbefore with
      | cons hfirst hrest => exact .inr (.inr ⟨_, hfirst, .failure rfl hrest hcondition⟩)
  | last hrefused hlast hbody =>
    cases hrefused with
    | cons hfirst hrest => exact .inr (.inr ⟨_, hfirst, .last hrest hlast hbody⟩)
  | nothing hrefused hlast =>
    cases hrefused with
    | cons hfirst hrest => exact .inr (.inr ⟨_, hfirst, .nothing hrest hlast⟩)

end Picks

/-- The branches of conditions with their blocks, and of a last block, are picked from. -/
theorem apply_runBranches_iff {tests : List (Actual × Code)} {otherwise : Option Code}
    {r : Except Failure Flow} {m left : Machine σ} :
    (runBranches runner frame (Branch.ofTests tests otherwise)).apply m = some (r, left) ↔
      Picks runner frame tests otherwise m r left := by
  induction tests generalizing m with
  | nil =>
    rw [Picks.nil_iff]
    cases otherwise with
    | none =>
      have hnone : (runBranches runner frame (Branch.ofTests [] none)).apply m =
          some (.ok (.next none), m) := rfl
      rw [hnone]
      simp [eq_comm]
    | some body =>
      have hlast : (runBranches runner frame (Branch.ofTests [] (some body))).apply m =
          (runner.invoke body none false).apply m := by
        simp [Branch.ofTests, runBranches]
      rw [hlast]
      simp
  | cons test tests ih =>
    obtain ⟨condition, body⟩ := test
    have hcons : (runBranches runner frame
        (Branch.ofTests ((condition, body) :: tests) otherwise)).apply m =
        Action.continueWith (fun taken m₁ => if taken then (runner.invoke body none false).apply m₁
          else (runBranches runner frame (Branch.ofTests tests otherwise)).apply m₁)
          ((holds runner frame condition).apply m) := by
      simp only [Branch.ofTests, List.map_cons, List.cons_append, runBranches, Action.apply_bind]
      congr 1
      funext taken m₁
      cases taken
      · rfl
      · rfl
    rw [hcons]
    constructor
    · intro h
      rcases Action.cases_of_continueWith h with ⟨f, hfailed, rfl⟩ | ⟨taken, m₁, htaken, hrest⟩
      · exact .failure (List.nil_append _).symm (.nil m) (apply_holds_iff.mp hfailed)
      · cases taken with
        | true => exact .body (List.nil_append _).symm (.nil m) (apply_holds_iff.mp htaken) hrest
        | false => exact .cons (apply_holds_iff.mp htaken) (ih.mp hrest)
    · intro h
      rcases h.cases_cons with ⟨f, hfailed, rfl⟩ | ⟨m₁, htaken, hbody⟩ | ⟨m₁, hrefused, hrest⟩
      · rw [apply_holds_iff.mpr hfailed, Action.continueWith_error]
      · rw [apply_holds_iff.mpr htaken]
        exact hbody
      · rw [apply_holds_iff.mpr hrefused]
        exact ih.mpr hrest

/-! ## Statements -/

/-- An `if` whose arguments do not stand for a chain fails, however blocks are run. -/
theorem Command.exists_ifElse_eq_fail {arguments : List Actual}
    (h : ∀ chain : Branch.Chain, arguments ≠ chain.arguments) :
    ∃ flaw, Branch.read arguments = .error (.malformedBranch flaw) ∧
      ∀ (runner : Runner σ) (frame : FrameId),
        (Command.ifElse.handler : Handler σ).run runner frame arguments =
          Action.fail (.malformedBranch flaw) := by
  cases hread : Branch.read arguments with
  | ok branches =>
    obtain ⟨chain, hchain, _⟩ := Branch.read_eq_ok_iff.mp hread
    exact absurd hchain (h chain)
  | error fault =>
    obtain ⟨flaw, rfl⟩ := Branch.raises_read_malformed arguments fault hread
    refine ⟨flaw, rfl, fun runner frame => ?_⟩
    simp only [Command.ifElse, Handler.run, hread]

/-- An `if` whose arguments stand for a chain picks from its branches. -/
theorem Command.apply_ifElse_iff {chain : Branch.Chain} {r : Except Failure Flow}
    {m left : Machine σ} :
    ((Command.ifElse.handler : Handler σ).run runner frame chain.arguments).apply m =
        some (r, left) ↔ Picks runner frame chain.tests chain.otherwise m r left := by
  have hread : Branch.read chain.arguments = .ok (Branch.ofTests chain.tests chain.otherwise) :=
    Branch.read_eq_ok_iff.mpr ⟨chain, rfl, rfl⟩
  simp only [Command.ifElse, Handler.run, hread]
  exact apply_runBranches_iff

/-- **An `if` runs the block of the first condition that holds.** Let a statement be an `if` with
checked arguments. Its branches can be read exactly if the arguments stand for a chain: a condition
and a block, further ones behind `elif`, and perhaps a last block behind `else`. If they do not, the
statement fails with a malformed branch; it leaves everything as its hook has left it, and the
command fails in this way however blocks are run. If they do, the conditions are tested in order up
to the first one that holds or fails. The block of the one that holds is run, and nothing else; if
none holds, the last block is run, and without one nothing is. -/
theorem if_runs_first_true_branch {i : Interpreter σ} {st : StatementRun σ} {m : Machine σ}
    {arguments : List Actual} (h : st.Accepts i Command.ifElse m arguments) :
    ((∃ branches, Branch.read arguments = .ok branches) ↔
      ∃ chain : Branch.Chain, arguments = chain.arguments) ∧
    ((∀ chain : Branch.Chain, arguments ≠ chain.arguments) → ∃ flaw,
      Branch.read arguments = .error (.malformedBranch flaw) ∧
      st.outcome i = some (.error { fault := .malformedBranch flaw }, m) ∧
      ∀ (runner : Runner σ) (frame : FrameId) (m : Machine σ),
        ((Command.ifElse.handler : Handler σ).run runner frame arguments).apply m =
          some (.error { fault := .malformedBranch flaw }, m)) ∧
    ∀ chain : Branch.Chain, arguments = chain.arguments → ∀ r left,
      (i.dispatch (i.runner st.effort) st.frame st.statement).apply m = some (r, left) ↔
        Picks (i.runner st.effort) st.frame chain.tests chain.otherwise m r left := by
  refine ⟨?_, fun hmalformed => ?_, ?_⟩
  · constructor
    · rintro ⟨branches, hread⟩
      obtain ⟨chain, hchain, _⟩ := Branch.read_eq_ok_iff.mp hread
      exact ⟨chain, hchain⟩
    · rintro ⟨chain, hchain⟩
      exact ⟨_, Branch.read_eq_ok_iff.mpr ⟨chain, hchain, rfl⟩⟩
  · obtain ⟨flaw, hread, hfail⟩ := Command.exists_ifElse_eq_fail hmalformed
    refine ⟨flaw, hread, ?_, fun runner frame m => by rw [hfail, Action.apply_fail]⟩
    rw [StatementRun.outcome_eq, h.announce, Action.continueWith_ok, h.apply_dispatch, hfail,
      Action.apply_fail, Action.continueWith_error]
  · rintro chain rfl r left
    rw [h.apply_dispatch]
    exact Command.apply_ifElse_iff

/-- A chain of which the second condition holds, and arguments that break off. -/
theorem if_runs_first_true_branch_elif :
    let i : Interpreter Unit := { registry := .standard }
    let m : Machine Unit :=
      { store := { frames := [⟨0, none, none, [("x", .array []), ("y", .array [.array []])]⟩],
                   next := 1 },
        outbox := { capacity := 64 }, host := () }
    let block (line : ℕ) : BlockId := ⟨0, ⟨line, 1⟩⟩
    let st (arguments : List Argument) : StatementRun Unit :=
      ⟨2, 0, ⟨"if", arguments, none, .start⟩, m⟩
    (∃ flaw, (st [.text "x", .block (block 1) [], .text "elif", .text "y"]).outcome i =
        some (.error { fault := .malformedBranch flaw }, m)) ∧
      ∃ left, (i.dispatch (i.runner 2) 0 (st [.text "x", .block (block 1) [], .text "elif",
        .text "y", .block (block 2) [], .text "else", .block (block 3) []]).statement).apply m =
          some (.ok (.next none), left) := by
  intro i m block st
  let code (line : ℕ) : Code := ⟨block line, [], 0, []⟩
  let chain : Branch.Chain := ⟨(.word "x", code 1), [(.word "y", code 2)], some (code 3)⟩
  have hbroken : (st [.text "x", .block (block 1) [], .text "elif", .text "y"]).Accepts i
      Command.ifElse m [.word "x", .value (.code (code 1)), .word "elif", .word "y"] :=
    ⟨rfl, rfl, rfl⟩
  have hchain : (st [.text "x", .block (block 1) [], .text "elif", .text "y",
      .block (block 2) [], .text "else", .block (block 3) []]).Accepts i Command.ifElse m
      chain.arguments := ⟨rfl, rfl, rfl⟩
  constructor
  · obtain ⟨hread, hmalformed, _⟩ := if_runs_first_true_branch hbroken
    obtain ⟨flaw, _, houtcome, _⟩ := hmalformed fun chain heq => by
      obtain ⟨branches, hbranches⟩ := hread.mpr ⟨chain, heq⟩
      cases hbranches
    exact ⟨flaw, houtcome⟩
  · obtain ⟨_, _, hpicks⟩ := if_runs_first_true_branch hchain
    have htests (name : String) (v : Value) (hname : isIdentifier name = true)
        (hplain : isPlainWord name = true) (hangle : '<' ∉ name.toList)
        (hfind : m.store.find? 0 name = some v) :
        Tests (i.runner 2) 0 (.word name) m (.ok v.truthy) m :=
      .word (r := .ok v) (evaluate_of_get hplain (Path.expandFrom_of_not_mem hangle)
        (Store.get_of_isIdentifier hname hfind) Nat.one_lt_two)
    have hx := htests "x" (.array []) rfl rfl (by decide) rfl
    have hy := htests "y" (.array [.array []]) rfl rfl (by decide) rfl
    have hsplit : chain.tests = [(.word "x", code 1)] ++ (.word "y", code 2) :: [] := rfl
    exact ⟨_, (hpicks chain rfl _ _).mpr (.body hsplit (.cons hx (.nil m)) hy rfl)⟩

end Logo
