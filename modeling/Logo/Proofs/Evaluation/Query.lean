import Logo.Proofs.Eval
import Logo.Value.Basic
import Mathlib.Logic.Function.Basic
import Mathlib.Tactic.Push

/-!
# Evaluations that ask for others

An evaluation may need the values of other texts. It asks for them one after the other, and a fault
of one of them is its own fault. When it cannot be finished, it has come to a text whose value is
not known. When it is finished, knowing the values of more texts changes nothing.
-/

namespace Logo

namespace Eval

variable {α β : Type}

/-- An evaluation that is finished did not run out of effort. -/
theorem ofExcept_ne_exhausted (r : Except Fault α) : ofExcept r ≠ exhausted := by
  intro h
  cases h

/-- An evaluation with a value did not run out of effort. -/
theorem pure_ne_exhausted (a : α) : (pure a : Eval α) ≠ exhausted := ofExcept_ne_exhausted (.ok a)

/-- An evaluation with a fault did not run out of effort. -/
theorem throw_ne_exhausted (f : Fault) : (throw f : Eval α) ≠ exhausted :=
  ofExcept_ne_exhausted (.error f)

/-- The outcomes of an evaluation. -/
theorem cases_outcome (e : Eval α) :
    e = exhausted ∨ (∃ fault, e = throw fault) ∨ ∃ a, e = pure a := by
  rcases e with _ | fault | a
  · exact .inl rfl
  · exact .inr (.inl ⟨fault, rfl⟩)
  · exact .inr (.inr ⟨a, rfl⟩)

/-- An evaluation that is not exhausted has a value or a fault. -/
theorem ne_exhausted_iff {e : Eval α} : e ≠ exhausted ↔ ∃ r, e = ofExcept r := by
  constructor
  · intro h
    cases e with
    | none => exact absurd rfl h
    | some r => exact ⟨r, rfl⟩
  · rintro ⟨r, rfl⟩
    exact ofExcept_ne_exhausted r

/-- Nothing follows an evaluation that ran out of effort. -/
@[simp] theorem exhausted_bind (f : α → Eval β) : (exhausted : Eval α) >>= f = exhausted := rfl

/-- Nothing follows a fault. -/
@[simp] theorem throw_bind (fault : Fault) (f : α → Eval β) :
    (throw fault : Eval α) >>= f = throw fault := rfl

/-- A result that is a success goes on with its value. -/
@[simp] theorem liftM_ok_bind (a : α) (f : α → Eval β) :
    (liftM (.ok a : Except Fault α) : Eval α) >>= f = f a := rfl

/-- No evaluation has every fault. -/
theorem exists_ne_throw (e : Eval α) : ∃ fault, e ≠ throw fault := by
  by_contra h
  push Not at h
  have hfaults : (throw (.missingVariable "a") : Eval α) = throw (.missingVariable "b") :=
    (h _).symm.trans (h _)
  have hnames := Except.error.inj (Option.some.inj hfaults)
  simp at hnames

end Eval

/-- Values of texts, as far as they are known. -/
abbrev Oracle := String → Eval Value

/-- Whether one oracle knows all that another one knows. -/
def Oracle.Extends (o' o : Oracle) : Prop := ∀ text, o text ≠ Eval.exhausted → o' text = o text

namespace Oracle.Extends

variable {o o' : Oracle} {text : String}

/-- Every oracle extends itself. -/
theorem refl (o : Oracle) : o.Extends o := fun _ _ => rfl

/-- What was not known may come to have any value. -/
theorem update_left (h : o'.Extends o) (hunknown : o text = Eval.exhausted) (e : Eval Value) :
    Oracle.Extends (Function.update o' text e) o := by
  intro other hother
  have hne : other ≠ text := by
    rintro rfl
    exact hother hunknown
  rw [Function.update_of_ne hne]
  exact h other hother

/-- Two oracles are extended alike by the same answer to one text. -/
theorem update (h : o'.Extends o) (text : String) (e : Eval Value) :
    Oracle.Extends (Function.update o' text e) (Function.update o text e) := by
  intro other hother
  by_cases hother' : other = text
  · subst hother'
    simp
  · rw [Function.update_of_ne hother'] at hother ⊢
    rw [Function.update_of_ne hother', h other hother]

end Oracle.Extends

/-- Whether an evaluation asks an oracle for texts of a kind only, one after the other. -/
structure Asks {α : Type} (P : String → Prop) (F : Oracle → Eval α) : Prop where
  /-- Other texts do not matter. -/
  only {o o' : Oracle} : (∀ text, P text → o text = o' text) → F o = F o'
  /-- What is finished stays so when more is known. -/
  stable {o o' : Oracle} : o'.Extends o → F o ≠ Eval.exhausted → F o' = F o
  /-- What is not finished has come to a text that is not known, and takes over its fault. -/
  first {o : Oracle} : F o = Eval.exhausted → ∃ text, P text ∧ o text = Eval.exhausted ∧
    ∀ fault, F (Function.update o text (throw fault)) = throw fault

namespace Asks

variable {α β : Type} {P : String → Prop}

/-- An evaluation that is finished by itself asks for nothing. -/
theorem const {e : Eval α} (he : e ≠ Eval.exhausted) : Asks P fun _ => e where
  only _ := rfl
  stable _ _ := rfl
  first h := absurd h he

/-- The value of a text is asked for. -/
theorem ask {text : String} (h : P text) : Asks P fun o => o text where
  only hsame := hsame text h
  stable hextends hknown := hextends text hknown
  first hunknown := ⟨text, h, hunknown, fun fault => by simp⟩

/-- What follows an evaluation asks after it. -/
theorem bind {F : Oracle → Eval α} {G : α → Oracle → Eval β} (hF : Asks P F)
    (hG : ∀ a, Asks P (G a)) : Asks P fun o => F o >>= fun a => G a o where
  only {o o'} hsame := by
    have hrest : (fun a => G a o) = fun a => G a o' := funext fun a => (hG a).only hsame
    rw [hF.only hsame, hrest]
  stable {o o'} hextends hknown := by
    rcases (F o).cases_outcome with hfirst | ⟨fault, hfirst⟩ | ⟨a, hfirst⟩
    · simp [hfirst] at hknown
    · have hfirst' := hF.stable hextends (hfirst ▸ Eval.throw_ne_exhausted fault)
      simp [hfirst', hfirst]
    · have hfirst' := hF.stable hextends (hfirst ▸ Eval.pure_ne_exhausted a)
      simp only [hfirst, hfirst', pure_bind] at hknown ⊢
      exact (hG a).stable hextends hknown
  first {o} hunknown := by
    rcases (F o).cases_outcome with hfirst | ⟨fault, hfirst⟩ | ⟨a, hfirst⟩
    · obtain ⟨text, htext, hnone, hfault⟩ := hF.first hfirst
      exact ⟨text, htext, hnone, fun fault => by simp [hfault fault]⟩
    · simp only [hfirst, Eval.throw_bind] at hunknown
      exact absurd hunknown (Eval.throw_ne_exhausted fault)
    · simp only [hfirst, pure_bind] at hunknown
      obtain ⟨text, htext, hnone, hfault⟩ := (hG a).first hunknown
      refine ⟨text, htext, hnone, fun fault => ?_⟩
      -- The first part is finished, so it does not notice the fault.
      have hsame := hF.stable ((Oracle.Extends.refl o).update_left hnone (throw fault))
        (hfirst ▸ Eval.pure_ne_exhausted a)
      simp [hsame, hfirst, hfault fault]

/-- A computation that only has a value or a fault asks for nothing. -/
theorem lift (r : Except Fault β) (f : β → α) : Asks P fun _ => (do return f (← r) : Eval α) :=
  (const (Eval.ofExcept_ne_exhausted r)).bind fun _ => const (Eval.pure_ne_exhausted _)

/-- A list is evaluated member by member. -/
theorem mapM {f : Oracle → β → Eval α} {bs : List β} (h : ∀ b ∈ bs, Asks P fun o => f o b) :
    Asks P fun o => bs.mapM (f o) := by
  induction bs with
  | nil => exact const (Eval.pure_ne_exhausted [])
  | cons b bs ih =>
    simp only [List.mapM_cons]
    have hrest := ih fun b hb => h b (List.mem_cons_of_mem _ hb)
    exact (h b List.mem_cons_self).bind fun _ => hrest.bind fun _ =>
      const (Eval.pure_ne_exhausted _)

/-- A result is built up member by member. -/
theorem foldlM {f : Oracle → α → β → Eval α} {bs : List β} {start : α}
    (h : ∀ a, ∀ b ∈ bs, Asks P fun o => f o a b) : Asks P fun o => bs.foldlM (f o) start := by
  induction bs generalizing start with
  | nil => exact const (Eval.pure_ne_exhausted start)
  | cons b bs ih =>
    simp only [List.foldlM_cons]
    exact (h start b List.mem_cons_self).bind fun a =>
      ih fun a b hb => h a b (List.mem_cons_of_mem _ hb)

/-- A text whose every fault would be taken over is one that is asked for. -/
theorem of_fault {F : Oracle → Eval α} (hF : Asks P F) {o : Oracle} {text : String}
    (h : ∀ fault, F (Function.update o text (throw fault)) = throw fault) : P text := by
  by_contra hother
  obtain ⟨fault, hne⟩ := Eval.exists_ne_throw (F o)
  refine hne (Eq.trans (hF.only fun asked hasked => ?_) (h fault))
  have hasked' : asked ≠ text := fun heq => hother (heq ▸ hasked)
  exact (Function.update_of_ne hasked' _ _).symm

end Asks

end Logo
