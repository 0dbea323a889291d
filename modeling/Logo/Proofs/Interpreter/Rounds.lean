import Logo.Proofs.Interpreter.Dispatch

/-!
# Rounds of a loop over items

A loop over items runs its block for one item after the other, in a new frame each time, and the
first round that fails or leaves is the last one. What becomes of such a loop is said here without
the function that runs it, and the function is shown to do just that.
-/

namespace Logo

variable {σ : Type}

/-- Whether a round of a loop comes to a result. The block runs in a new frame, where the name of
the loop has the item as its value. The frame is dropped at the end. A block that outlives the frame
that it was written in does not run. -/
inductive Round (i : Interpreter σ) (effort : ℕ) (name : String) (body : Code) (item : Value)
    (m : Machine σ) : Except Failure Flow → Machine σ → Prop
  | block {r : Except Failure Flow} {left : Machine σ}
      (hlive : m.store.isLive body.frame = true)
      (hblock : (i.runBlock effort body.body m.store.next false).apply
        { m with store := m.store.push (some body.frame) (some [(name, item)]) } =
          some (r, left)) :
      Round i effort name body item m r (left.dropFrame m.store.next)
  | expired (hlive : ¬m.store.isLive body.frame = true) :
      Round i effort name body item m (.error { fault := .expiredScope }) m

/-- Whether the rounds of some items run in order and go on, all of them. -/
inductive Rounds (i : Interpreter σ) (effort : ℕ) (name : String) (body : Code) :
    List Value → Machine σ → Machine σ → Prop
  | nil (m : Machine σ) : Rounds i effort name body [] m m
  | cons {item : Value} {rest : List Value} {v : Option Value} {m m₁ left : Machine σ}
      (hfirst : Round i effort name body item m (.ok (.next v)) m₁)
      (hrest : Rounds i effort name body rest m₁ left) :
      Rounds i effort name body (item :: rest) m left

/-- What becomes of a loop. The rounds of its items run in order up to the first one that fails or
leaves, and the loop ends as this round does. If there is none, the loop ends after all items. -/
inductive Loops (i : Interpreter σ) (effort : ℕ) (name : String) (body : Code)
    (items : List Value) (m : Machine σ) : Except Failure Flow → Machine σ → Prop
  | stopped {before after : List Value} {item : Value} {m₁ left : Machine σ}
      {r : Except Failure Flow} (hitems : items = before ++ item :: after)
      (hbefore : Rounds i effort name body before m m₁)
      (hround : Round i effort name body item m₁ r left) (hstop : ∀ v, r ≠ .ok (.next v)) :
      Loops i effort name body items m r left
  | finished {left : Machine σ} (hrounds : Rounds i effort name body items m left) :
      Loops i effort name body items m (.ok (.next none)) left

section Loops

variable {i : Interpreter σ} {effort : ℕ} {name : String} {body : Code} {item : Value}
  {items : List Value} {r : Except Failure Flow} {m left : Machine σ}

/-- A round whose block is one statement goes on if the statement does. -/
theorem Round.of_statement {s : Statement} {v : Option Value} {entered : Machine σ}
    (hbody : body.body = [s]) (hlive : m.store.isLive body.frame = true)
    (hdepth : m.depth < i.settings.maxDepth)
    (hentered : entered = { m with store := m.store.push (some body.frame) (some [(name, item)]) })
    (hs : StatementRun.outcome i
      ⟨effort, m.store.next, s, { entered with depth := entered.depth + 1 }⟩ =
        some (.ok (.next v), left)) :
    Round i (effort + 1) name body item m (.ok (.next v)) (left.rise.dropFrame m.store.next) := by
  have hblock : (i.runBlock (effort + 1) [s] m.store.next false).apply entered =
      some (.ok (.next v), left.rise) := by
    rw [StatementRun.outcome] at hs
    rw [Interpreter.apply_runBlock (hentered ▸ hdepth), runStatements, Action.apply_bind,
      Action.apply_atLine, hs]
    rfl
  exact .block hlive (hbody ▸ hentered ▸ hblock)

/-- Code runs with an item bound to a name exactly as a round for this item does. -/
theorem apply_invoke_iff :
    ((i.runner effort).invoke body (some [(name, item)]) false).apply m = some (r, left) ↔
      Round i effort name body item m r left := by
  by_cases hlive : m.store.isLive body.frame = true
  · rw [Interpreter.apply_invoke hlive, Option.map_eq_some_iff]
    constructor
    · rintro ⟨⟨outcome, reached⟩, hblock, heq⟩
      cases heq
      exact .block hlive hblock
    · intro h
      cases h with
      | block _ hblock => exact ⟨_, hblock, rfl⟩
      | expired hexpired => exact absurd hlive hexpired
  · rw [Interpreter.apply_invoke_of_not_isLive hlive]
    constructor
    · intro h
      cases h
      exact .expired hlive
    · intro h
      cases h with
      | block hlive' => exact absurd hlive' hlive
      | expired => rfl

namespace Loops

/-- A loop over no items ends at once, with the machine as it was. -/
theorem nil_iff : Loops i effort name body [] m r left ↔ r = .ok (.next none) ∧ left = m := by
  constructor
  · intro h
    cases h with
    | stopped hitems => simp at hitems
    | finished hrounds =>
      cases hrounds
      exact ⟨rfl, rfl⟩
  · rintro ⟨rfl, rfl⟩
    exact .finished (.nil _)

/-- The first round is the last one, or the others follow after it. -/
theorem cons_iff : Loops i effort name body (item :: items) m r left ↔
    Round i effort name body item m r left ∧ (∀ v, r ≠ .ok (.next v)) ∨
      ∃ v m₁, Round i effort name body item m (.ok (.next v)) m₁ ∧
        Loops i effort name body items m₁ r left := by
  constructor
  · intro h
    cases h with
    | @stopped before after _ _ _ _ hitems hbefore hround hstop =>
      cases before with
      | nil =>
        cases hitems
        cases hbefore
        exact .inl ⟨hround, hstop⟩
      | cons _ before =>
        cases hitems
        cases hbefore with
        | cons hfirst hrest => exact .inr ⟨_, _, hfirst, .stopped rfl hrest hround hstop⟩
    | finished hrounds =>
      cases hrounds with
      | cons hfirst hrest => exact .inr ⟨_, _, hfirst, .finished hrest⟩
  · rintro (⟨hround, hstop⟩ | ⟨v, m₁, hfirst, hrest⟩)
    · exact .stopped (List.nil_append _).symm (.nil m) hround hstop
    · cases hrest with
      | @stopped before after item' _ _ _ hitems hbefore hround hstop =>
        have hitems' : item :: items = (item :: before) ++ item' :: after := by
          rw [hitems, List.cons_append]
        exact .stopped hitems' (.cons hfirst hbefore) hround hstop
      | finished hrounds => exact .finished (.cons hfirst hrounds)

end Loops

/-- A list is gone through item by item. -/
theorem apply_eachLoop_iff {m : Machine σ} :
    (eachLoop (fun v => (i.runner effort).invoke body (some [(name, v)]) false) items).apply m =
        some (r, left) ↔ Loops i effort name body items m r left := by
  induction items generalizing m with
  | nil =>
    rw [Loops.nil_iff]
    constructor
    · intro h
      cases h
      exact ⟨rfl, rfl⟩
    · rintro ⟨rfl, rfl⟩
      rfl
  | cons item items ih =>
    rw [Loops.cons_iff, eachLoop, Action.apply_bind]
    constructor
    · intro h
      rcases Action.cases_of_continueWith h with ⟨f, hfailed, rfl⟩ | ⟨flow, m₁, hround, hrest⟩
      · exact .inl ⟨apply_invoke_iff.mp hfailed, by simp⟩
      · cases flow with
        | next v => exact .inr ⟨v, m₁, apply_invoke_iff.mp hround, ih.mp hrest⟩
        | leave v =>
          cases hrest
          exact .inl ⟨apply_invoke_iff.mp hround, by simp⟩
    · rintro (⟨hround, hstop⟩ | ⟨v, m₁, hround, hrest⟩)
      · rw [apply_invoke_iff.mpr hround]
        rcases r with f | v | v
        · rfl
        · exact absurd rfl (hstop v)
        · rfl
      · rw [apply_invoke_iff.mpr hround]
        exact ih.mpr hrest

end Loops

end Logo
