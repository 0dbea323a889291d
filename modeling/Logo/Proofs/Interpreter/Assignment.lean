import Logo.Proofs.Evaluation.Consult
import Logo.Proofs.Interpreter.Atomic
import Logo.Proofs.Interpreter.Keys

/-!
# Two ways to give a value

A variable gets a value by a command, as in `new x e` and `set x e`, or by a return binding, as in
`new x := e` and `x := e`. The command takes the text for the name of a variable first and for an
expression second, a binding takes it for an expression only. Without names in angle brackets both
find the same value or fault. But where the search for a variable has no end, the command has none,
while the expression may have a fault that is found before anything is searched for.
-/

namespace Logo

variable {σ : Type}

/-! ## Words without names to replace -/

/-- A plain word without `.<` has each of its `<` inside of brackets. -/
theorem keepsInside_of_isPlainFrom {depth : ℕ} {cs : List Char}
    (h : isPlainFrom depth none cs = true) (hsplice : ¬['.', '<'] <:+: cs) :
    Path.KeepsInside depth cs := by
  induction cs generalizing depth with
  | nil => exact Path.keepsInside_nil depth
  | cons c cs ih =>
    have hrest : ¬['.', '<'] <:+: cs := fun h => hsplice (h.trans (List.suffix_cons c cs).isInfix)
    rw [Path.keepsInside_cons]
    rw [isPlainFrom.eq_def] at h
    dsimp only at h
    split at h
    · next hopen =>
      subst hopen
      exact ⟨by simp, ih h hrest⟩
    · next hopen =>
      split at h
      · next hclose =>
        subst hclose
        cases depth with
        | zero => cases h
        | succ depth => exact ⟨by simp, ih h hrest⟩
      · next hclose =>
        rw [Path.depthStep_of_ne hopen hclose]
        split at h
        · next hdepth => exact ⟨fun _ => hdepth, ih h hrest⟩
        · next hdepth =>
          obtain rfl : depth = 0 := Nat.eq_zero_of_not_pos hdepth
          split at h
          · next hdot =>
            subst hdot
            split at h
            · next rest => exact absurd ⟨[], rest, rfl⟩ hsplice
            · exact ⟨by simp, ih h hrest⟩
          · obtain ⟨hchar, h⟩ := Bool.and_eq_true_iff.mp h
            exact ⟨fun hc => absurd hc (isIdentChar_spec hchar).2.1, ih h hrest⟩

/-- In a plain word without a name to be replaced, nothing is replaced. -/
theorem expand_of_isPlainWord {text : String} (h : isPlainWord text = true)
    (hsplice : ¬['.', '<'] <:+: text.toList) (find? : String → Option Value) :
    Path.expand find? text = .ok text.toList := by
  obtain ⟨c, rest, htext, _, hplain⟩ := exists_of_isPlainWord h
  rw [← htext] at hplain
  exact Path.expandFrom_of_keepsInside (keepsInside_of_isPlainFrom hplain hsplice)

/-! ## Arguments of any value -/

/-- A mapped evaluation runs out of effort exactly if the evaluation does. -/
theorem Eval.map_eq_exhausted_iff {α β : Type} {f : α → β} {e : Eval α} :
    f <$> e = exhausted ↔ e = exhausted := by
  rcases e.cases_outcome with rfl | ⟨fault, rfl⟩ | ⟨a, rfl⟩
  · exact iff_of_true rfl rfl
  · exact iff_of_false (throw_ne_exhausted fault) (throw_ne_exhausted fault)
  · exact iff_of_false (pure_ne_exhausted (f a)) (pure_ne_exhausted a)

section Value

variable {s : Store} {id : FrameId} {d : Demand} {text : String} {effort more : ℕ}

/-- Where all values are permitted, each value is accepted as it is. -/
theorem Demand.accept_value (hd : d.permitted = .value) (text : String) (v : Value) :
    d.accept text v = .ok (.value v) := by
  have haccepts : Categories.value.accepts v = true := by cases v <;> rfl
  rw [accept, hd, if_pos haccepts]

/-- Where any value is permitted, a text is the value of the variable that it names, if it is the
name of one, and else its value as an expression. -/
theorem checkText_value_cases (hd : d.permitted = .value) (s : Store) (id : FrameId) (effort : ℕ)
    (text : String) :
    isPlainWord text = true ∧ s.get effort id text = Eval.exhausted ∧
        checkText effort s id d text = Eval.exhausted ∨
      (∃ v, isPlainWord text = true ∧ s.get effort id text = pure v ∧
        checkText effort s id d text = pure (.value v)) ∨
      (isPlainWord text = true → s.get effort id text ≠ Eval.exhausted) ∧
        checkText effort s id d text =
          Actual.value <$> evaluate effort (s.environment id) text := by
  have hexpression : evaluateArgument effort s id d text =
      Actual.value <$> evaluate effort (s.environment id) text := by
    have hvalue : (d.permitted.numeric || d.permitted.array) = true := by
      rw [hd]
      rfl
    rw [evaluateArgument, if_pos hvalue]
    simp only [Demand.accept_value hd]
    rfl
  have hword : d.permitted.word = false := by
    rw [hd]
    rfl
  have hlater : d.permitted.expression = false := by
    rw [hd]
    rfl
  have hnamed : (d.permitted.reference || d.permitted.code) = true := by
    rw [hd]
    rfl
  rw [← hexpression]
  by_cases hplain : isPlainWord text = true
  · rcases (s.get effort id text).cases_outcome with h | ⟨fault, h⟩ | ⟨v, h⟩
    · refine .inl ⟨hplain, h, ?_⟩
      simp only [checkText, hplain, hword, hlater, hnamed, h, Bool.and_false, Bool.and_true,
        Bool.false_eq_true, if_false, if_true]
      rfl
    · refine .inr (.inr ⟨fun _ => h ▸ Eval.throw_ne_exhausted fault, ?_⟩)
      simp only [checkText, hplain, hword, hlater, hnamed, h, Bool.and_false, Bool.and_true,
        Bool.false_eq_true, if_false, if_true]
      rfl
    · refine .inr (.inl ⟨v, hplain, h, ?_⟩)
      rw [checkText_of_get hplain hword hlater hnamed h, Demand.accept_value hd]
      rfl
  · exact .inr (.inr ⟨fun h => absurd h hplain, by simp [checkText, hplain, hlater]⟩)

/-- What is known of an argument does not change with more effort. -/
theorem checkText_of_le (hmore : effort ≤ more)
    (hknown : checkText effort s id d text ≠ Eval.exhausted) :
    checkText more s id d text = checkText effort s id d text := by
  rw [checkText_eq] at hknown ⊢
  rw [checkText_eq]
  exact (consults_checkTextBy (P := fun _ => True) trivial fun _ _ => trivial).stable
    (evaluate_extends (s.environment id) hmore) hknown

/-- What is known of a variable does not change with more effort. -/
theorem get_of_le (hmore : effort ≤ more) (hknown : s.get effort id text ≠ Eval.exhausted) :
    s.get more id text = s.get effort id text := by
  have hasks : Asks (fun _ => True) fun o => (s.environment id).load o text :=
    Environment.asks_load fun _ _ => trivial
  exact hasks.stable (evaluate_extends (s.environment id) hmore) hknown

/-- An argument without a result takes a square bracket in a variable and an angle bracket in one.
-/
theorem exists_checkText_ne_exhausted_of_not_holds
    (h : ¬(s.environment id).Holds '[' ∨ ¬(s.environment id).Holds '<') :
    ∃ effort, checkText effort s id d text ≠ Eval.exhausted := by
  simp only [checkText_eq]
  obtain ⟨r, hr⟩ := Environment.exists_eventually_eq
    (F := fun o => checkTextBy o (s.find? id) d text)
    (consults_checkTextBy List.mem_cons_self fun _ => List.mem_cons_of_mem text)
    fun text _ => Environment.finishes_of_not_holds h text
  obtain ⟨effort, heffort⟩ := hr.exists
  exact ⟨effort, heffort ▸ Eval.ofExcept_ne_exhausted r⟩

variable (hd : d.permitted = .value) (hsplice : ¬['.', '<'] <:+: text.toList)

include hd hsplice

/-- An argument that comes to a result has that of the expression. -/
theorem checkText_eq_evaluate (hknown : checkText effort s id d text ≠ Eval.exhausted)
    (hmore : effort < more) :
    checkText effort s id d text = Actual.value <$> evaluate more (s.environment id) text := by
  rcases checkText_value_cases hd s id effort text with
    ⟨_, _, hnone⟩ | ⟨v, hplain, hget, hcheck⟩ | ⟨_, hcheck⟩
  · exact absurd hnone hknown
  · rw [hcheck, evaluate_of_get hplain (expand_of_isPlainWord hplain hsplice _) hget hmore]
    rfl
  · rw [hcheck, ne_eq, Eval.map_eq_exhausted_iff] at hknown
    rw [hcheck, evaluate_extends _ hmore.le text hknown]

/-- An argument comes to a result if the expression does and, for a plain word, the search for a
variable ends. -/
theorem exists_checkText_ne_exhausted_iff :
    (∃ effort, checkText effort s id d text ≠ Eval.exhausted) ↔
      (s.environment id).Finishes text ∧
        (isPlainWord text = true → ∃ effort, s.get effort id text ≠ Eval.exhausted) := by
  rw [Environment.finishes_iff_ne_exhausted]
  constructor
  · rintro ⟨effort, hknown⟩
    refine ⟨⟨effort + 1, fun hnone => ?_⟩, fun hplain => ⟨effort, fun hnone => ?_⟩⟩
    · rw [checkText_eq_evaluate hd hsplice hknown (Nat.lt_succ_self effort)] at hknown
      exact hknown (Eval.map_eq_exhausted_iff.mpr hnone)
    · rcases checkText_value_cases hd s id effort text with
        ⟨_, _, hcheck⟩ | ⟨v, _, hget, _⟩ | ⟨hget, _⟩
      · exact hknown hcheck
      · exact Eval.pure_ne_exhausted v (hget.symm.trans hnone)
      · exact hget hplain hnone
  · rintro ⟨⟨effort, hevaluate⟩, hget⟩
    obtain ⟨search, hsearch⟩ :
        ∃ search, isPlainWord text = true → s.get search id text ≠ Eval.exhausted := by
      by_cases hplain : isPlainWord text = true
      · obtain ⟨search, hsearch⟩ := hget hplain
        exact ⟨search, fun _ => hsearch⟩
      · exact ⟨0, fun h => absurd h hplain⟩
    refine ⟨max effort search, ?_⟩
    rcases checkText_value_cases hd s id (max effort search) text with
      ⟨hplain, hnone, _⟩ | ⟨v, _, _, hcheck⟩ | ⟨_, hcheck⟩
    · rw [get_of_le (le_max_right effort search) (hsearch hplain)] at hnone
      exact absurd hnone (hsearch hplain)
    · exact hcheck ▸ Eval.pure_ne_exhausted _
    · rwa [hcheck, ne_eq, Eval.map_eq_exhausted_iff,
        evaluate_extends _ (le_max_left effort search) text hevaluate]

/-- An argument that comes to a result has it from some effort on, and so has the expression. -/
theorem exists_value_of_checkText (hknown : checkText effort s id d text ≠ Eval.exhausted) :
    ∃ r enough, ∀ more, enough ≤ more →
      evaluate more (s.environment id) text = Eval.ofExcept r ∧
        Actual.toValue <$> checkText more s id d text = Eval.ofExcept r := by
  obtain ⟨⟨r, enough, hr⟩, _⟩ := (exists_checkText_ne_exhausted_iff hd hsplice).mp ⟨effort, hknown⟩
  refine ⟨r, max enough (effort + 1), fun more hmore => ?_⟩
  have heffort : effort < more := le_of_max_le_right hmore
  have hevaluate := hr more (le_of_max_le_left hmore)
  refine ⟨hevaluate, ?_⟩
  rw [checkText_of_le heffort.le hknown, checkText_eq_evaluate hd hsplice hknown heffort, hevaluate]
  cases r <;> rfl

end Value

/-! ## Giving a value to a variable -/

/-- Gives a value to a variable, a new one or one that there is. -/
def Store.give (s : Store) (fresh : Bool) (effort : ℕ) (id : FrameId) (x : String) (v : Value) :
    Eval Store :=
  if fresh then s.create effort id x v else s.set effort id x v

/-- To give a value to an identifier takes no effort. -/
theorem Store.exists_give_eq (s : Store) (fresh : Bool) (id : FrameId) {x : String}
    (hx : isIdentifier x = true) (v : Value) :
    ∃ r, ∀ effort, s.give fresh effort id x v = Eval.ofExcept r := by
  have hresolve (effort : ℕ) : s.resolve effort id x = pure ⟨x, []⟩ :=
    Path.resolve_of_isIdentifier _ _ hx
  have hconst (effort : ℕ) : s.give fresh effort id x v = s.give fresh 0 id x v := by
    simp only [give, create, set, hresolve]
  have hawaits (text : String) (h : (s.environment id).Awaits
      (fun o => Path.resolve (s.find? id) o x) text) : (s.environment id).Finishes text :=
    absurd ((Path.resolve_of_isIdentifier _ _ hx).symm.trans (h 0)) (Eval.pure_ne_exhausted _)
  obtain ⟨r, hr⟩ : ∃ r, ∀ᶠ effort in Filter.atTop, s.give fresh effort id x v =
      Eval.ofExcept r := by
    cases fresh with
    | true => exact eventually_create hawaits
    | false => exact eventually_set hawaits
  obtain ⟨effort, heffort⟩ := hr.exists
  exact ⟨r, fun other => (hconst other).trans ((hconst effort).symm.trans heffort)⟩

/-- Gives what is evaluated to a variable. -/
def Action.assign (fresh : Bool) (effort : ℕ) (id : FrameId) (x : String) (flow : Value → Flow)
    (e : Eval Value) : Action σ Flow := do
  let v ← ofEval e
  updateStore fun s => s.give fresh effort id x v
  return flow v

section Assign

variable {fresh : Bool} {id : FrameId} {x : String}

/-- An assignment to an identifier gives it the value, or fails and changes nothing. -/
theorem Action.cases_assign (m : Machine σ) (fresh : Bool) (id : FrameId)
    (hx : isIdentifier x = true) (r : Except Fault Value) :
    (∃ v s, r = .ok v ∧ ∀ effort, m.store.give fresh effort id x v = pure s ∧ ∀ flow,
      (assign fresh effort id x flow (Eval.ofExcept r)).apply m =
        some (.ok (flow v), { m with store := s })) ∨
      ∃ fault, ∀ effort,
        (r = .error fault ∨ ∃ v, r = .ok v ∧ m.store.give fresh effort id x v = throw fault) ∧
        ∀ flow, (assign fresh effort id x flow (Eval.ofExcept r)).apply m =
          some (.error { fault }, m) := by
  cases r with
  | error fault => exact .inr ⟨fault, fun effort => ⟨.inl rfl, fun flow => rfl⟩⟩
  | ok v =>
    have happly (effort : ℕ) (flow : Value → Flow) :
        (assign fresh effort id x flow (Eval.ofExcept (.ok v))).apply m = continueWith
          (fun _ m => some (.ok (flow v), m))
          ((updateStore fun s => s.give fresh effort id x v).apply m) := by
      have hvalue : Eval.ofExcept (.ok v) = pure v := rfl
      simp only [hvalue, assign, apply_bind, apply_ofEval_pure, continueWith_ok, apply_pure]
    obtain ⟨result, hresult⟩ := m.store.exists_give_eq fresh id hx v
    cases result with
    | error fault =>
      refine .inr ⟨fault, fun effort => ⟨.inr ⟨v, rfl, hresult effort⟩, fun flow => ?_⟩⟩
      rw [happly, apply_updateStore, hresult]
      rfl
    | ok s =>
      refine .inl ⟨v, s, rfl, fun effort => ⟨hresult effort, fun flow => ?_⟩⟩
      rw [happly, apply_updateStore, hresult]
      rfl

/-- An assignment to an identifier comes to its end if the evaluation does. -/
theorem Action.apply_assign_ne_none_iff (hx : isIdentifier x = true) {m : Machine σ} {effort : ℕ}
    {flow : Value → Flow} {e : Eval Value} :
    (assign fresh effort id x flow e).apply m ≠ none ↔ e ≠ Eval.exhausted := by
  constructor
  · rintro h rfl
    exact h rfl
  · intro h
    obtain ⟨r, rfl⟩ := Eval.ne_exhausted_iff.mp h
    rcases cases_assign m fresh id hx r with ⟨v, s, _, hok⟩ | ⟨fault, hfailed⟩
    · simp [(hok effort).2]
    · simp [(hfailed effort).2]

end Assign

/-! ## Statements -/

/-- The statement that gives the value of a text to a variable by a command. -/
def Statement.byCommand (fresh : Bool) (x text : String) (pos : Position) : Statement :=
  ⟨if fresh then "new" else "set", [.text x, .text text], none, pos⟩

/-- The statement that gives the value of a text to a variable by its return binding. -/
def Statement.byBinding (fresh : Bool) (x text : String) (pos : Position) : Statement :=
  ⟨text, [], some ⟨x, fresh⟩, pos⟩

section Statements

variable {i : Interpreter σ} {frame : FrameId} {start m : Machine σ} {fresh : Bool}
  {x text : String} {pos : Position}

/-- The arguments of `new` and `set` are a word, which is taken as it is, and a text that is checked
for a value. -/
theorem validate_declaration {s : Store} {command : String} (effort : ℕ)
    (hx : isPlainWord x = true) :
    validate effort s frame command Command.declaration [.text x, .text text] =
      (fun a => [.word x, a]) <$> checkText effort s frame ⟨command, 1, .value⟩ text := by
  have hname : checkArgument effort s frame ⟨command, 0, Command.declaration.permitted 0 2⟩
      (.text x) = pure (.word x) := by
    rw [checkArgument_declaration, if_pos hx]
  have hvalue : checkArgument effort s frame ⟨command, 1, Command.declaration.permitted 1 2⟩
      (.text text) = checkText effort s frame ⟨command, 1, .value⟩ text := rfl
  have hcount : Command.declaration.checkCount command 2 = .ok () := rfl
  simp only [validate, List.length_cons, List.length_nil, Nat.zero_add, Nat.reduceAdd,
    List.zipIdx_cons, List.zipIdx_nil, List.mapM_cons, List.mapM_nil, hcount, hname, hvalue,
    Eval.liftM_ok_bind, pure_bind, bind_assoc, map_eq_pure_bind]

/-- Once it has been announced, the command gives the variable the value that its text is checked
to. -/
theorem StatementRun.outcome_byCommand (hx : isIdentifier x = true)
    (hcommand : i.registry.find? (if fresh then "new" else "set") =
      some (if fresh then Command.new else Command.set))
    (hannounce : (i.hooks.announce (.byCommand fresh x text pos)).apply start = some (.ok (), m))
    (effort : ℕ) :
    StatementRun.outcome i ⟨effort, frame, .byCommand fresh x text pos, start⟩ =
      (Action.assign fresh effort frame x (fun _ => .next none) (Actual.toValue <$>
        checkText effort m.store frame ⟨if fresh then "new" else "set", 1, .value⟩ text)).apply
          m := by
  have hsignature : (if fresh then Command.new else Command.set : Command σ).signature =
      Command.declaration := by
    cases fresh <;> rfl
  rw [outcome_of_command hcommand rfl hannounce]
  dsimp only [Statement.byCommand]
  rw [hsignature, validate_declaration effort (isPlainWord_of_isIdentifier hx)]
  rcases (checkText effort m.store frame ⟨if fresh then "new" else "set", 1, .value⟩
    text).cases_outcome with h | ⟨fault, h⟩ | ⟨a, h⟩
  · rw [h]
    rfl
  · rw [h]
    rfl
  · rw [h]
    cases fresh with
    | true => rfl
    | false => rfl

/-- Once it has been announced, the binding gives the variable the value that its text is evaluated
to. -/
theorem StatementRun.outcome_byBinding (hlabel : i.registry.find? text = none)
    (hprocedure : m.store.procedure? frame text = none)
    (hannounce : (i.hooks.announce (.byBinding fresh x text pos)).apply start = some (.ok (), m))
    (effort : ℕ) :
    StatementRun.outcome i ⟨effort, frame, .byBinding fresh x text pos, start⟩ =
      (Action.assign fresh effort frame x (fun v => .next (some v))
        (evaluate effort (m.store.environment frame) text)).apply m := by
  have hexpression : evaluateStatement effort m.store frame (.byBinding fresh x text pos) =
      evaluate effort (m.store.environment frame) text := by
    simp [evaluateStatement, Statement.byBinding, Statement.expression?]
  have hdispatch : (i.dispatch (i.runner effort) frame (.byBinding fresh x text pos)).apply m =
      (Action.ofEval (evaluateStatement effort m.store frame (.byBinding fresh x text pos)) >>=
        fun v => (pure (.next (some v)) : Action σ Flow)).apply m :=
    Interpreter.apply_dispatch_expression hlabel hprocedure
  rw [outcome_eq, hannounce, Action.continueWith_ok, hdispatch, hexpression]
  rcases (evaluate effort (m.store.environment frame) text).cases_outcome with
    h | ⟨fault, h⟩ | ⟨v, h⟩
  · rw [h]
    rfl
  · rw [h]
    rfl
  · rw [h]
    simp only [Action.assign, Action.apply_bind, Action.apply_ofEval_pure, Action.continueWith_ok,
      Action.apply_pure]
    rfl

/-- **To give a value by a command or by a binding is the same where the command ends.** Let `x` be
an identifier, and let a text be the label of no command and no procedure, without `.<` in it. The
statements are `new x text` and `new x := text`, or `set x text` and `x := text`. If the command
comes to an end, then from some effort on both give the value of the text to `x`, with the same
store and nothing else changed, or both fail with the same fault and change nothing. The command
ends exactly if the binding does and, for a plain word, the search for a variable of this name ends.
Both end where no variable holds a square bracket, and where none holds an angle bracket. -/
theorem command_and_binding_agree (hx : isIdentifier x = true)
    (hcommand : i.registry.find? (if fresh then "new" else "set") =
      some (if fresh then Command.new else Command.set))
    (hlabel : i.registry.find? text = none) (hprocedure : m.store.procedure? frame text = none)
    (hsplice : ¬['.', '<'] <:+: text.toList)
    (hannounce : ∀ s ∈ [Statement.byCommand fresh x text pos, .byBinding fresh x text pos],
      (i.hooks.announce s).apply start = some (.ok (), m)) :
    let env := m.store.environment frame
    let command (effort : ℕ) :=
      StatementRun.outcome i ⟨effort, frame, .byCommand fresh x text pos, start⟩
    let binding (effort : ℕ) :=
      StatementRun.outcome i ⟨effort, frame, .byBinding fresh x text pos, start⟩
    ((∃ effort, command effort ≠ none) → ∃ enough,
      (∃ v s, ∀ effort, enough ≤ effort → evaluate effort env text = pure v ∧
        m.store.give fresh effort frame x v = pure s ∧
        command effort = some (.ok (.next none), { m with store := s }) ∧
        binding effort = some (.ok (.next (some v)), { m with store := s })) ∨
      ∃ fault, ∀ effort, enough ≤ effort →
        (evaluate effort env text = throw fault ∨ ∃ v, evaluate effort env text = pure v ∧
          m.store.give fresh effort frame x v = throw fault) ∧
        command effort = some (.error { fault }, m) ∧
        binding effort = some (.error { fault }, m)) ∧
    ((∃ effort, command effort ≠ none) ↔ (∃ effort, binding effort ≠ none) ∧
      (isPlainWord text = true → ∃ effort, m.store.get effort frame text ≠ Eval.exhausted)) ∧
    (¬env.Holds '[' ∨ ¬env.Holds '<' → ∃ effort, command effort ≠ none) := by
  intro env command binding
  let d : Demand := ⟨if fresh then "new" else "set", 1, .value⟩
  have hcommandEq (effort : ℕ) : command effort = (Action.assign fresh effort frame x
      (fun _ => .next none) (Actual.toValue <$> checkText effort m.store frame d text)).apply m :=
    StatementRun.outcome_byCommand hx hcommand (hannounce _ (by simp)) effort
  have hbindingEq (effort : ℕ) : binding effort = (Action.assign fresh effort frame x
      (fun v => .next (some v)) (evaluate effort env text)).apply m :=
    StatementRun.outcome_byBinding hlabel hprocedure (hannounce _ (by simp)) effort
  have hknown (effort : ℕ) : command effort ≠ none ↔
      checkText effort m.store frame d text ≠ Eval.exhausted := by
    rw [hcommandEq, Action.apply_assign_ne_none_iff hx, ne_eq, Eval.map_eq_exhausted_iff]
  refine ⟨?_, ?_, fun hholds => ?_⟩
  · rintro ⟨effort, hcommandKnown⟩
    obtain ⟨r, enough, hvalue⟩ :=
      exists_value_of_checkText rfl hsplice ((hknown effort).mp hcommandKnown)
    refine ⟨enough, ?_⟩
    rcases Action.cases_assign m fresh frame hx r with ⟨v, s, rfl, hok⟩ | ⟨fault, hfailed⟩
    · refine .inl ⟨v, s, fun more hmore => ?_⟩
      obtain ⟨hevaluate, hargument⟩ := hvalue more hmore
      obtain ⟨hgive, hassign⟩ := hok more
      rw [hcommandEq, hbindingEq, hargument, hevaluate, hassign, hassign]
      exact ⟨rfl, hgive, rfl, rfl⟩
    · refine .inr ⟨fault, fun more hmore => ?_⟩
      obtain ⟨hevaluate, hargument⟩ := hvalue more hmore
      obtain ⟨hcause, hassign⟩ := hfailed more
      rw [hcommandEq, hbindingEq, hargument, hevaluate, hassign, hassign]
      refine ⟨hcause.imp ?_ ?_, rfl, rfl⟩
      · rintro rfl
        rfl
      · rintro ⟨v, rfl, hgive⟩
        exact ⟨v, rfl, hgive⟩
  · simp only [hknown, hbindingEq, Action.apply_assign_ne_none_iff hx]
    rw [← Environment.finishes_iff_ne_exhausted]
    exact exists_checkText_ne_exhausted_iff rfl hsplice
  · simp only [hknown]
    exact exists_checkText_ne_exhausted_of_not_holds hholds

end Statements

/-- A plain word with brackets in a literal, given to a new variable. -/
theorem command_and_binding_agree_literal :
    let i : Interpreter Unit := { registry := .standard }
    let m : Machine Unit :=
      { store := { frames := [⟨0, none, none, [("x", .object [("][", .array [])])]⟩], next := 1 },
        outbox := { capacity := 64 }, host := () }
    let text := Path.ofKey "x" "]["
    text = "x[\"][\"]" ∧ ∃ enough s, s.find? 0 "y" = some (.array []) ∧
      ∀ effort, enough ≤ effort →
        StatementRun.outcome i ⟨effort, 0, .byCommand true "y" text .start, m⟩ =
          some (.ok (.next none), { m with store := s }) ∧
        StatementRun.outcome i ⟨effort, 0, .byBinding true "y" text .start, m⟩ =
          some (.ok (.next (some (.array []))), { m with store := s }) := by
  intro i m text
  have hx : isIdentifier "y" = true := rfl
  have hlabel : i.registry.find? text = none := rfl
  have hprocedure : m.store.procedure? 0 text = none := if_neg (by decide)
  have hplain : isPlainWord text = true := by decide +kernel
  have hangle : '<' ∉ text.toList := by decide
  have hsplice : ¬['.', '<'] <:+: text.toList := fun h => hangle (h.subset (by simp))
  have hannounce : ∀ s ∈
      [Statement.byCommand true "y" text .start, .byBinding true "y" text .start],
      (i.hooks.announce s).apply m = some (.ok (), m) := fun _ _ => rfl
  have hget : m.store.get 1 0 text = pure (.array []) := by
    have hresolve : m.store.resolve 1 0 text = pure ⟨"x", [.field "]["]⟩ :=
      Path.resolve_ofKey (by decide) (by decide) 0 _
    have hobject : m.store.find? 0 "x" = some (.object [("][", .array [])]) := rfl
    rw [Store.get_of_find?_eq_some hresolve hobject]
    rfl
  have hevaluate (effort : ℕ) (heffort : 1 < effort) :
      evaluate effort (m.store.environment 0) text = pure (.array []) :=
    evaluate_of_get hplain (expand_of_isPlainWord hplain hsplice _) hget heffort
  obtain ⟨hagree, hends, _⟩ :=
    command_and_binding_agree hx rfl hlabel hprocedure hsplice hannounce
  have hbinding : StatementRun.outcome i ⟨2, 0, .byBinding true "y" text .start, m⟩ ≠ none := by
    rw [StatementRun.outcome_byBinding hlabel hprocedure (hannounce _ (by simp)),
      Action.apply_assign_ne_none_iff hx, hevaluate 2 Nat.one_lt_two]
    exact Eval.pure_ne_exhausted _
  have hsearch : m.store.get 1 0 text ≠ Eval.exhausted := hget ▸ Eval.pure_ne_exhausted _
  have hgive (effort : ℕ) (v : Value) : m.store.give true effort 0 "y" v =
      pure (m.store.write 0 "y" v) := m.store.create_of_isIdentifier effort 0 hx v
  refine ⟨by decide, ?_⟩
  obtain ⟨enough, ⟨v, s, hok⟩ | ⟨fault, hfailed⟩⟩ :=
    hagree (hends.mpr ⟨⟨2, hbinding⟩, fun _ => ⟨1, hsearch⟩⟩)
  · obtain ⟨hv, hs, _⟩ := hok (max enough 2) (le_max_left enough 2)
    obtain rfl := Eval.pure_inj.mp ((hevaluate _ (le_max_right enough 2)).symm.trans hv)
    obtain rfl := Eval.pure_inj.mp ((hgive _ _).symm.trans hs)
    exact ⟨enough, _, rfl, fun effort heffort => (hok effort heffort).2.2⟩
  · obtain ⟨hthrow | ⟨v, _, hthrow⟩, _⟩ := hfailed (max enough 2) (le_max_left enough 2)
    · cases (hevaluate _ (le_max_right enough 2)).symm.trans hthrow
    · cases (hgive _ v).symm.trans hthrow

/-- Where `s` is the text `"][x["]<s>["]]["`, the path `x["]<s>["]` has itself as an index. -/
theorem evaluate_quoted_path_in_itself (effort : ℕ) :
    let s : Store :=
      { frames := [⟨0, none, none, [("s", .ofText "\"][x[\"]<s>[\"]][\"")]⟩], next := 1 }
    evaluate effort (s.environment 0) "x[\"]<s>[\"]" = Eval.exhausted := by
  intro s
  induction effort with
  | zero => rfl
  | succ effort ih =>
    have hcompile : compile "x[\"]<s>[\"]" = .ok [.load "x[\"]<s>[\"]"] := by rfl
    have hexpand : Path.expand (s.find? 0) "x[\"]<s>[\"]" =
        .ok "x[\"]\"][x[\"]<s>[\"]][\"[\"]".toList := by decide +kernel
    have hparts : Path.parts "[\"]\"][x[\"]<s>[\"]][\"[\"]".toList =
        [.index "\"]\"", .index "x[\"]<s>[\"]", .index "\"[\""] := by decide +kernel
    have hresolve : Path.resolve (s.find? 0) (evaluate effort (s.environment 0))
        "x[\"]<s>[\"]" = Eval.exhausted := by
      unfold Path.resolve
      rw [hexpand]
      change (Path.parts "[\"]\"][x[\"]<s>[\"]][\"[\"]".toList).mapM _ >>= _ = Eval.exhausted
      rw [hparts]
      simp only [List.mapM_cons, Path.Part.resolve]
      cases effort with
      | zero => rfl
      | succ effort =>
        have hfirst : evaluate (effort + 1) (s.environment 0) "\"]\"" = pure (.ofText "]") := rfl
        have haccessor : Path.indexAccessor "x[\"]<s>[\"]" (.ofText "]") = .ok (.field "]") := by
          decide +kernel
        simp only [hfirst, pure_bind, haccessor, Eval.liftM_ok_bind, ih, Eval.exhausted_bind]
    have hload : (s.environment 0).load (evaluate effort (s.environment 0)) "x[\"]<s>[\"]" =
        Eval.exhausted := by
      change Path.get _ _ _ = _
      rw [Path.get, hresolve, Eval.exhausted_bind]
    rw [Environment.evaluate_succ, Environment.step, hcompile, Eval.liftM_ok_bind]
    simp [Instruction.runAll, Instruction.run, hload]

/-- An index that is the text `x["]<s>["]` has no value, so the search for a variable with this
index has no end. The expression is malformed behind it. -/
theorem search_without_end :
    let i : Interpreter Unit := { registry := .standard }
    let m : Machine Unit :=
      { store := { frames := [⟨0, none, none, [("s", .ofText "\"][x[\"]<s>[\"]][\"")]⟩], next := 1 },
        outbox := { capacity := 64 }, host := () }
    let text := "x[x[\"]<s>[\"]][\"[\"]+*[\"]\"]"
    i.registry.find? text = none ∧ m.store.procedure? 0 text = none ∧
      ¬['.', '<'] <:+: text.toList ∧
      (∀ effort, StatementRun.outcome i ⟨effort, 0, .byCommand true "y" text .start, m⟩ = none) ∧
      ∀ effort, 0 < effort →
        StatementRun.outcome i ⟨effort, 0, .byBinding true "y" text .start, m⟩ =
          some (.error { fault := .malformedExpression text (.missingLeftOperand '*') }, m) := by
  intro i m text
  have hplain : isPlainWord text = true := by decide +kernel
  have hget (effort : ℕ) : m.store.get effort 0 text = Eval.exhausted := by
    have hparts : Path.parts "[x[\"]<s>[\"]][\"[\"]+*[\"]\"]".toList =
        [.index "x[\"]<s>[\"]", .index "\"[\"", .flawed (.unexpected '+')] := by decide +kernel
    have hexpand : Path.expand (m.store.find? 0) text = .ok text.toList :=
      Path.expandFrom_of_keepsInside (by decide)
    have hbase : text.toList = "x".toList ++ "[x[\"]<s>[\"]][\"[\"]+*[\"]\"]".toList := by decide
    have hindex : ∀ c ∈ "[x[\"]<s>[\"]][\"[\"]+*[\"]\"]".toList.head?, c = '.' ∨ c = '[' := by
      simp
    have htrim : Text.trim text.toList = text.toList := trim_of_isPlainWord hplain
    rw [Store.get, Path.get, Path.resolve_eq_mapM rfl hbase hindex hexpand htrim, hparts,
      List.mapM_cons, Path.Part.resolve, evaluate_quoted_path_in_itself effort]
    rfl
  have hprocedure : m.store.procedure? 0 text = none := if_neg (by decide)
  have hcompile : compile "x[x[\"]<s>[\"]][\"[\"]+*[\"]\"]" = .error (.malformedExpression
      "x[x[\"]<s>[\"]][\"[\"]+*[\"]\"]" (.missingLeftOperand '*')) := by rfl
  refine ⟨rfl, hprocedure, by decide, fun effort => ?_, fun effort heffort => ?_⟩
  · have hx : isIdentifier "y" = true := rfl
    by_contra hended
    rw [StatementRun.outcome_byCommand hx rfl rfl, ← ne_eq, Action.apply_assign_ne_none_iff hx,
      ne_eq, Eval.map_eq_exhausted_iff] at hended
    have hnamed : isPlainWord text = true → ∃ effort, m.store.get effort 0 text ≠ Eval.exhausted :=
      ((exists_checkText_ne_exhausted_iff rfl (by decide)).mp ⟨effort, hended⟩).2
    obtain ⟨search, hsearch⟩ := hnamed hplain
    exact hsearch (hget search)
  · obtain ⟨effort, rfl⟩ := Nat.exists_eq_succ_of_ne_zero (Nat.ne_of_gt heffort)
    rw [StatementRun.outcome_byBinding rfl hprocedure rfl, evaluate, hcompile]
    rfl

end Logo
