import Logo.Proofs.Interpreter.Atomic
import Logo.Proofs.Interpreter.Declared
import Logo.Proofs.Number.Counting

/-!
# Loops over items

`each` has its items before it runs anything. Its block runs for one item after the other, in a new
frame each time, and the first round that fails or leaves is the last one. `repeat` counts in
numbers instead of going through a list. Natural numbers up to `2 ^ 53` are counted exactly, so up
to there it is an `each` over the numbers below its limit.
-/

namespace Logo

variable {σ : Type}

/-! ## Counting -/

/-- The numbers below a natural number, from another one on. -/
def numbersFrom (start count : ℕ) : List Value :=
  (List.range' start count).map fun k => .number (Float.ofNat k)

section Counting

variable (round : Value → Action σ Flow) {start count rounds : ℕ} {m : Machine σ}

/-- A loop that counts goes on as one over a list does. -/
theorem countLoop_succ (hlimit : start + (count + 1) ≤ 2 ^ 53) :
    countLoop (Float.ofNat (start + (count + 1))) (fun x => round (.number x)) (rounds + 1)
        (Float.ofNat start) =
      round (.number (Float.ofNat start)) >>= fun flow =>
        if flow.isLeave then pure flow
        else countLoop (Float.ofNat (start + 1 + count)) (fun x => round (.number x)) rounds
          (Float.ofNat (start + 1)) := by
  have hless : Float.ofNat start < Float.ofNat (start + (count + 1)) :=
    (ofNat_lt_ofNat (by omega) hlimit).mpr (by omega)
  rw [countLoop, if_pos hless, ofNat_add_one (by omega), Nat.add_right_comm start 1 count]
  rfl

/-- A counter that has reached its limit ends the loop. -/
theorem countLoop_done (hlimit : start ≤ 2 ^ 53) :
    countLoop (Float.ofNat start) (fun x => round (.number x)) (rounds + 1) (Float.ofNat start) =
      proceed := by
  rw [countLoop, if_neg (mt (ofNat_lt_ofNat hlimit hlimit).mp (Nat.lt_irrefl start))]

/-- With effort for one round more than there are numbers, counting is going through the numbers. -/
theorem countLoop_eq_eachLoop (hlimit : start + count ≤ 2 ^ 53) (hrounds : count < rounds) :
    countLoop (Float.ofNat (start + count)) (fun x => round (.number x)) rounds
      (Float.ofNat start) = eachLoop round (numbersFrom start count) := by
  induction count generalizing start rounds with
  | zero =>
    obtain ⟨rounds, rfl⟩ := Nat.exists_eq_succ_of_ne_zero (Nat.ne_of_gt hrounds)
    exact countLoop_done round hlimit
  | succ count ih =>
    obtain ⟨rounds, rfl⟩ := Nat.exists_eq_succ_of_ne_zero (Nat.ne_of_gt (Nat.zero_lt_of_lt hrounds))
    rw [countLoop_succ round hlimit, ih (by omega) (by omega)]
    rfl

/-- With less effort, counting may come to no end. If it does, it is going through the numbers. -/
theorem apply_countLoop_of_ne_none (hlimit : start + count ≤ 2 ^ 53)
    (h : (countLoop (Float.ofNat (start + count)) (fun x => round (.number x)) rounds
      (Float.ofNat start)).apply m ≠ none) :
    (countLoop (Float.ofNat (start + count)) (fun x => round (.number x)) rounds
      (Float.ofNat start)).apply m = (eachLoop round (numbersFrom start count)).apply m := by
  induction rounds generalizing start count m with
  | zero => exact absurd rfl h
  | succ rounds ih =>
    cases count with
    | zero => exact congrArg (Action.apply · m) (countLoop_done round hlimit)
    | succ count =>
      have heach : eachLoop round (numbersFrom start (count + 1)) =
          round (.number (Float.ofNat start)) >>= fun flow =>
            if flow.isLeave then pure flow
            else eachLoop round (numbersFrom (start + 1) count) := rfl
      rw [countLoop_succ round hlimit, Action.apply_bind] at h ⊢
      rw [heach, Action.apply_bind]
      rcases hround : (round (.number (Float.ofNat start))).apply m with
        _ | ⟨_ | ⟨v | v⟩, m₁⟩
      · rfl
      · rfl
      · rw [hround] at h
        exact ih (by omega) h
      · rfl

end Counting

/-! ## Statements -/

/-- Without a return binding, a statement with checked arguments is what its command does. -/
theorem StatementRun.Accepts.outcome_eq {i : Interpreter σ} {st : StatementRun σ}
    {command : Command σ} {m : Machine σ} {arguments : List Actual}
    (h : st.Accepts i command m arguments) (htarget : st.statement.target = none) :
    st.outcome i = (command.handler.run (i.runner st.effort) st.frame arguments).apply m := by
  rw [outcome_of_command h.found htarget h.announce, h.checked, Action.apply_bind,
    Action.apply_ofEval_pure, Action.continueWith_ok]

namespace Command

variable (runner : Runner σ) (frame : FrameId) (name : String) (body : Code)

/-- An `each` over an array goes through the items of the array. -/
theorem run_eachItem (items : List Value) :
    (eachItem.handler : Handler σ).run runner frame
        [.word name, .value (.array items), .value (.code body)] =
      eachLoop (fun v => runner.invoke body (some [(name, v)]) false) items := rfl

/-- A `repeat` counts from zero up to a natural number, which numbers hold exactly up to `2 ^ 53`.
-/
theorem run_repeatTimes {n : ℕ} (hn : n ≤ 2 ^ 53) :
    (repeatTimes.handler : Handler σ).run runner frame
        [.word name, .value (.number (Float.ofNat n)), .value (.code body)] =
      countLoop (Float.ofNat (0 + n))
        (fun x => runner.invoke body (some [(name, .number x)]) false) runner.effort
        (Float.ofNat 0) := by
  rw [Nat.zero_add, ofNat_zero]
  conv_rhs => rw [← floor_ofNat hn]
  rfl

end Command

/-- A variable that an `each` goes through is an array with its items when the arguments are
checked. -/
theorem StatementRun.Accepts.find?_eq_array {i : Interpreter σ} {st : StatementRun σ}
    {m : Machine σ} {name array : String} {items : List Value} {body : Code} {v : Value}
    (h : st.Accepts i Command.eachItem m
      [.word name, .value (.array items), .value (.code body)])
    (hargument : st.statement.arguments[1]? = some (.text array))
    (harray : isIdentifier array = true) (hfind : m.store.find? st.frame array = some v) :
    v = .array items := by
  obtain ⟨a, b, c, harguments⟩ := List.length_eq_three.mp (length_of_validate h.checked).symm
  obtain ⟨_, hchecked⟩ := forall₂_of_validate h.checked
  rw [harguments] at hargument hchecked
  obtain rfl : b = .text array := Option.some.inj hargument
  rcases hchecked with _ | ⟨_, _ | ⟨hitems, _⟩⟩
  have haccept := (checkText_of_get (isPlainWord_of_isIdentifier harray) rfl rfl rfl
    (Store.get_of_isIdentifier harray hfind)).symm.trans hitems
  rw [Eval.liftM_eq_pure_iff, Demand.accept] at haccept
  split at haccept
  · exact Actual.value.inj (Except.ok.inj haccept)
  · cases haccept

/-- **A loop runs its block once for each item.** Let a statement be an `each` with a name, an array
and a block. Its items are those of the array when its arguments are checked, also if the array is
the value of a variable that the block changes. It runs the block for one item after the other, each
time in a new frame where the name has the item as its value, and stops after the first round that
fails or leaves. A `repeat` with the same name and block and a natural number up to `2 ^ 53` does
what an `each` over the numbers below it does. This holds whenever the `repeat` comes to an end, and
also if there is effort for more rounds than it has. -/
theorem loops_run_once_per_item {i : Interpreter σ} {st : StatementRun σ} {m : Machine σ}
    {name : String} {items : List Value} {body : Code} (htarget : st.statement.target = none)
    (h : st.Accepts i Command.eachItem m
      [.word name, .value (.array items), .value (.code body)]) :
    (∀ array v, st.statement.arguments[1]? = some (.text array) → isIdentifier array = true →
      m.store.find? st.frame array = some v → v = .array items) ∧
    (∀ r left, st.outcome i = some (r, left) ↔ Loops i st.effort name body items m r left) ∧
    ∀ n ≤ 2 ^ 53, items = numbersFrom 0 n → ∀ counting : StatementRun σ,
      counting.effort = st.effort → counting.statement.target = none →
      counting.Accepts i Command.repeatTimes m
        [.word name, .value (.number (Float.ofNat n)), .value (.code body)] →
      (counting.outcome i ≠ none → counting.outcome i = st.outcome i) ∧
        (n < counting.effort → counting.outcome i = st.outcome i) := by
  have heach := h.outcome_eq htarget
  rw [Command.run_eachItem] at heach
  refine ⟨fun array v hargument harray => h.find?_eq_array hargument harray,
    fun r left => by rw [heach, apply_eachLoop_iff], ?_⟩
  rintro n hn rfl counting heffort hcountingTarget hcounting
  have hlimit : 0 + n ≤ 2 ^ 53 := by omega
  have hrepeat := hcounting.outcome_eq hcountingTarget
  rw [Command.run_repeatTimes _ _ _ _ hn, heffort] at hrepeat
  let round (item : Value) := (i.runner st.effort).invoke body (some [(name, item)]) false
  rw [hrepeat, heach]
  constructor
  · exact apply_countLoop_of_ne_none round hlimit
  · intro hless
    exact congrArg (Action.apply · m) (countLoop_eq_eachLoop round hlimit (heffort ▸ hless))

/-- Loops that send a message in each of three rounds. -/
theorem loops_run_once_per_item_pen :
    let i : Interpreter Unit := { registry := .standard }
    let m : Machine Unit :=
      { store := { frames := [⟨0, none, none,
                     [("xs", .array (numbersFrom 0 3)), ("n", .number (Float.ofNat 3))]⟩],
                   next := 1 },
        outbox := { capacity := 64 }, host := () }
    let body : Argument := .block ⟨0, .start⟩ [⟨"penup", [], none, .start⟩]
    let each : StatementRun Unit := ⟨4, 0, ⟨"each", [.text "k", .text "xs", body], none, .start⟩, m⟩
    let counting : StatementRun Unit :=
      ⟨4, 0, ⟨"repeat", [.text "k", .text "n", body], none, .start⟩, m⟩
    ∃ left, each.outcome i = some (.ok (.next none), left) ∧
      counting.outcome i = some (.ok (.next none), left) ∧
      left.outbox.pending = List.replicate 3 ⟨"turtle.pen", .record [("down", .bool false)]⟩ := by
  intro i m body each counting
  let code : Code := ⟨⟨0, .start⟩, [⟨"penup", [], none, .start⟩], 0, []⟩
  have heach : each.Accepts i Command.eachItem m
      [.word "k", .value (.array (numbersFrom 0 3)), .value (.code code)] :=
    ⟨rfl, rfl, (validate_loop rfl rfl "each" 4 _ _ rfl rfl rfl rfl).1⟩
  have hcounting : counting.Accepts i Command.repeatTimes m
      [.word "k", .value (.number (Float.ofNat 3)), .value (.code code)] :=
    ⟨rfl, rfl, (validate_loop rfl rfl "repeat" 4 _ _ rfl rfl rfl rfl).1⟩
  obtain ⟨_, hloops, hequal⟩ := loops_run_once_per_item rfl heach
  obtain ⟨_, hequal⟩ := hequal 3 (by decide) rfl counting rfl rfl hcounting
  let sent (m : Machine Unit) (item : Value) : Machine Unit :=
    { m with
      store := m.store.push (some 0) (some [("k", item)])
      outbox := m.outbox.push ⟨"turtle.pen", .record [("down", .bool false)]⟩
      depth := m.depth + 1 }
  have hround (item : Value) {m : Machine Unit} (hlive : m.store.isLive 0 = true)
      (hdepth : m.depth < i.settings.maxDepth) :
      Round i 4 "k" code item m (.ok (.next none)) ((sent m item).rise.dropFrame m.store.next) :=
    .of_statement rfl hlive hdepth rfl rfl
  have hdepth : 0 < i.settings.maxDepth := by decide
  have hrounds : Rounds i 4 "k" code (numbersFrom 0 3) m _ :=
    .cons (hround _ rfl hdepth) (.cons (hround _ rfl hdepth) (.cons (hround _ rfl hdepth) (.nil _)))
  have houtcome := (hloops _ _).mpr (.finished hrounds)
  exact ⟨_, houtcome, (hequal (by decide)).trans houtcome, rfl⟩

end Logo
