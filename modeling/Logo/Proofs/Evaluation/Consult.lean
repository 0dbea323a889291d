import Logo.Argument.Validate
import Logo.Proofs.Evaluation.Termination
import Mathlib.Order.Filter.AtTopBot.Basic

/-!
# Evaluations that wait for others

The check of arguments evaluates texts, and goes on when some of them have faults: a word that names
no variable may still have a value as an expression. It waits for a text if it cannot be finished
without the value of this text. If all texts that it waits for can be evaluated, it can be finished.
-/

namespace Logo

variable {α β : Type}

/-- Goes on after an evaluation, also after a fault. -/
def Eval.handle (e : Eval α) (k : Except Fault α → Eval β) : Eval β :=
  match e.run with
  | none => Eval.exhausted
  | some r => k r

/-- Nothing follows an evaluation that ran out of effort. -/
@[simp] theorem Eval.handle_exhausted {k : Except Fault α → Eval β} :
    (exhausted : Eval α).handle k = exhausted := rfl

/-- Whether an evaluation consults an oracle about texts of a kind only. -/
structure Consults (P : String → Prop) (F : Oracle → Eval α) : Prop where
  /-- Other texts do not matter. -/
  only {o o' : Oracle} : (∀ text, P text → o text = o' text) → F o = F o'
  /-- What is finished stays so when more is known. -/
  stable {o o' : Oracle} : o'.Extends o → F o ≠ Eval.exhausted → F o' = F o
  /-- What is not finished has come to a text that is not known. -/
  first {o : Oracle} : F o = Eval.exhausted → ∃ text, P text ∧ o text = Eval.exhausted

/-- An evaluation that asks about certain texts consults the oracle about no others. -/
theorem Asks.consults {P : String → Prop} {F : Oracle → Eval α} (h : Asks P F) : Consults P F where
  only := h.only
  stable := h.stable
  first hunknown := by
    obtain ⟨text, htext, hnone, _⟩ := h.first hunknown
    exact ⟨text, htext, hnone⟩

namespace Consults

variable {P : String → Prop}

/-- An evaluation that is finished by itself consults no oracle. -/
theorem const {e : Eval α} (he : e ≠ Eval.exhausted) : Consults P fun _ => e :=
  (Asks.const he).consults

/-- What follows an evaluation, or its fault, consults the oracle after it. -/
theorem handle {F : Oracle → Eval α} {G : Except Fault α → Oracle → Eval β} (hF : Consults P F)
    (hG : ∀ r, Consults P (G r)) : Consults P fun o => (F o).handle fun r => G r o where
  only {o o'} hsame := by
    have hrest : (fun r => G r o) = fun r => G r o' := funext fun r => (hG r).only hsame
    rw [hF.only hsame, hrest]
  stable {o o'} hextends hknown := by
    by_cases hfirst : F o = Eval.exhausted
    · simp [hfirst] at hknown
    · obtain ⟨r, hr⟩ := Eval.ne_exhausted_iff.mp hfirst
      rw [hF.stable hextends hfirst, hr]
      rw [hr] at hknown
      exact (hG r).stable hextends hknown
  first {o} hunknown := by
    by_cases hfirst : F o = Eval.exhausted
    · exact hF.first hfirst
    · obtain ⟨r, hr⟩ := Eval.ne_exhausted_iff.mp hfirst
      rw [hr] at hunknown
      exact (hG r).first hunknown

/-- Two evaluations in a row consult the oracle about what either of them does. -/
theorem bind {F : Oracle → Eval α} {G : α → Oracle → Eval β} (hF : Consults P F)
    (hG : ∀ a, Consults P (G a)) : Consults P fun o => F o >>= fun a => G a o := by
  have heq o : F o >>= (fun a => G a o) =
      (F o).handle fun r => r.rec (fun f => throw f) fun a => G a o := by
    rcases (F o).cases_outcome with h | ⟨fault, h⟩ | ⟨a, h⟩
    · rw [h]
      rfl
    · rw [h]
      rfl
    · rw [h]
      rfl
  simp only [heq]
  refine hF.handle fun r => ?_
  cases r with
  | error f => exact const (Eval.throw_ne_exhausted f)
  | ok a => exact hG a

/-- A list is evaluated member by member. -/
theorem mapM {f : Oracle → β → Eval α} {bs : List β} (h : ∀ b ∈ bs, Consults P fun o => f o b) :
    Consults P fun o => bs.mapM (f o) := by
  induction bs with
  | nil => exact const (Eval.pure_ne_exhausted [])
  | cons b bs ih =>
    simp only [List.mapM_cons]
    have hrest := ih fun b hb => h b (List.mem_cons_of_mem _ hb)
    exact (h b List.mem_cons_self).bind fun _ => hrest.bind fun _ =>
      const (Eval.pure_ne_exhausted _)

end Consults

/-! ## Texts that are waited for -/

open Filter

namespace Environment

variable {env : Environment} {F : Oracle → Eval α}

/-- Whether an evaluation cannot be finished without the value of a text, however much effort there
is for all others. -/
def Awaits (env : Environment) (F : Oracle → Eval α) (text : String) : Prop :=
  ∀ effort, F (Function.update (evaluate effort env) text Eval.exhausted) = Eval.exhausted

/-- What a finished evaluation has waited for is finished. -/
theorem Awaits.finishes {text : String} {effort : ℕ} (h : env.Awaits F text)
    (hended : F (evaluate effort env) ≠ Eval.exhausted) : env.Finishes text := by
  refine finishes_iff_ne_exhausted.mpr ⟨effort, fun hunknown => hended ?_⟩
  rw [← h effort, ← hunknown, Function.update_eq_self]

/-- An evaluation comes to its end if all texts that it waits for do. -/
theorem exists_eventually_eq {texts : List String} (hF : Consults (· ∈ texts) F)
    (h : ∀ text, env.Awaits F text → env.Finishes text) :
    ∃ r, ∀ᶠ effort in atTop, F (evaluate effort env) = Eval.ofExcept r := by
  obtain ⟨enough, henough⟩ := env.exists_effort texts
  have hunknown {text : String} (htext : text ∈ texts)
      (hnone : evaluate enough env text = Eval.exhausted) effort :
      evaluate effort env text = Eval.exhausted := by
    by_contra hne
    exact henough text htext (finishes_iff_ne_exhausted.mpr ⟨effort, hne⟩) hnone
  by_cases hknown : F (evaluate enough env) = Eval.exhausted
  · -- A text that is not known with enough effort is never known, and so it is waited for.
    have hnever effort : F (evaluate effort env) = Eval.exhausted := by
      by_contra hne
      refine hne ((hF.stable (evaluate_extends env (le_max_left effort enough)) hne).symm.trans
        (Eq.trans (hF.only fun text htext => ?_) hknown))
      by_cases hnone : evaluate enough env text = Eval.exhausted
      · rw [hunknown htext hnone, hnone]
      · exact evaluate_extends env (le_max_right effort enough) text hnone
    obtain ⟨text, htext, hnone⟩ := hF.first hknown
    refine absurd hnone (henough text htext (h text fun effort => ?_))
    rw [← hunknown htext hnone effort, Function.update_eq_self, hnever]
  · obtain ⟨r, hr⟩ := Eval.ne_exhausted_iff.mp hknown
    refine ⟨r, eventually_atTop.mpr ⟨enough, fun effort heffort => ?_⟩⟩
    rw [hF.stable (evaluate_extends env heffort) hknown, hr]

end Environment

/-! ## Checked arguments -/

/-- The check of a text by its value, given the values of texts. -/
def evaluateArgumentBy (o : Oracle) (d : Demand) (text : String) : Eval Actual :=
  if d.permitted.numeric || d.permitted.array then do
    let v ← o text
    d.accept text v
  else throw (d.reject (.text text))

/-- The check of a text, given the values of texts. -/
def checkTextBy (o : Oracle) (find? : String → Option Value) (d : Demand) (text : String) :
    Eval Actual :=
  if isPlainWord text && d.permitted.word then pure (.word text)
  else if d.permitted.expression then do
    let _ ← compile text
    return .word text
  else if isPlainWord text && (d.permitted.reference || d.permitted.code) then
    (Path.get find? o text).handle fun r =>
      match r with
      | .ok v => d.accept text v
      | .error _ => evaluateArgumentBy o d text
  else evaluateArgumentBy o d text

/-- The check of an argument, given the values of texts. -/
def checkArgumentBy (o : Oracle) (find? : String → Option Value) (frame : FrameId) (d : Demand) :
    Argument → Eval Actual
  | .block id body =>
    if d.permitted.code then return .value (.code { block := id, body, frame })
    else throw (d.reject .block)
  | .text text => checkTextBy o find? d text

/-- The check of the arguments of a command, given the values of texts. -/
def validateBy (o : Oracle) (find? : String → Option Value) (frame : FrameId) (command : String)
    (signature : Signature) (arguments : List Argument) : Eval (List Actual) := do
  signature.checkCount command arguments.length
  arguments.zipIdx.mapM fun p =>
    checkArgumentBy o find? frame ⟨command, p.2, signature.permitted p.2 arguments.length⟩ p.1

variable {store : Store} {frame : FrameId}

/-- A text is checked by evaluating it, or by looking it up where it may be a word. -/
theorem checkText_eq (effort : ℕ) (d : Demand) (text : String) :
    checkText effort store frame d text =
      checkTextBy (evaluate effort (store.environment frame)) (store.find? frame) d text := by
  unfold checkText checkTextBy
  dsimp only
  split
  · rfl
  · split
    · rfl
    · split
      · change _ = (store.get effort frame text).handle _
        rcases (store.get effort frame text).cases_outcome with h | ⟨fault, h⟩ | ⟨v, h⟩
        · rw [h]
          rfl
        · rw [h]
          rfl
        · rw [h]
          rfl
      · rfl

/-- The check of arguments evaluates texts in the frame, with all effort there is. -/
theorem validate_eq (effort : ℕ) (command : String) (signature : Signature)
    (arguments : List Argument) :
    validate effort store frame command signature arguments =
      validateBy (evaluate effort (store.environment frame)) (store.find? frame) frame command
        signature arguments := by
  have hcheck d a : checkArgument effort store frame d a = checkArgumentBy
      (evaluate effort (store.environment frame)) (store.find? frame) frame d a := by
    cases a with
    | text text => exact checkText_eq effort d text
    | block id body => rfl
  simp only [validate, validateBy, hcheck]

/-- The texts that an argument may have to be evaluated for: itself, and the indexes of the path
that it may be. -/
def Argument.texts (env : Environment) : Argument → List String
  | .text s => s :: env.indexes s
  | .block _ _ => []

section

variable {P : String → Prop} {find? : String → Option Value} {d : Demand}

/-- Evaluating an argument consults the oracle about its own text alone. -/
theorem consults_evaluateArgumentBy {text : String} (h : P text) :
    Consults P fun o => evaluateArgumentBy o d text := by
  unfold evaluateArgumentBy
  split
  · exact (Asks.ask h).consults.bind fun v => .const (Eval.ofExcept_ne_exhausted _)
  · exact .const (Eval.throw_ne_exhausted _)

/-- Checking a text consults the oracle about the text and about the indexes in it. -/
theorem consults_checkTextBy {text : String} (h : P text)
    (hindexes : ∀ expression ∈ (Environment.names find?).indexes text, P expression) :
    Consults P fun o => checkTextBy o find? d text := by
  unfold checkTextBy
  split
  · exact .const (Eval.pure_ne_exhausted _)
  · split
    · exact (Asks.lift _ _).consults
    · split
      · have hget : Asks P fun o => (Environment.names find?).load o text :=
          Environment.asks_load hindexes
        refine hget.consults.handle fun r => ?_
        cases r with
        | ok v => exact .const (Eval.ofExcept_ne_exhausted _)
        | error _ => exact consults_evaluateArgumentBy h
      · exact consults_evaluateArgumentBy h

/-- The check of arguments consults the oracle about texts of the arguments only. -/
theorem consults_validateBy (frame : FrameId) (command : String) (signature : Signature)
    (arguments : List Argument) :
    Consults (· ∈ arguments.flatMap (Argument.texts (.names find?))) fun o =>
      validateBy o find? frame command signature arguments := by
  refine (Consults.const (Eval.ofExcept_ne_exhausted _)).bind fun _ => .mapM ?_
  rintro ⟨argument, index⟩ hmem
  have hmem' : argument ∈ arguments := List.fst_mem_of_mem_zipIdx hmem
  cases argument with
  | text text =>
    refine consults_checkTextBy ?_ fun expression hexpression => ?_
    · exact List.mem_flatMap.mpr ⟨_, hmem', List.mem_cons_self⟩
    · exact List.mem_flatMap.mpr ⟨_, hmem', List.mem_cons_of_mem _ hexpression⟩
  | block id body =>
    simp only [checkArgumentBy]
    split
    · exact .const (Eval.pure_ne_exhausted _)
    · exact .const (Eval.throw_ne_exhausted _)

end

/-- The check of arguments comes to its end if all texts that it waits for do. -/
theorem eventually_validate {command : String} {signature : Signature} {arguments : List Argument}
    (h : ∀ text, (store.environment frame).Awaits
      (fun o => validateBy o (store.find? frame) frame command signature arguments) text →
        (store.environment frame).Finishes text) :
    ∃ r, ∀ᶠ effort in atTop, validate effort store frame command signature arguments =
      Eval.ofExcept r := by
  simp only [validate_eq]
  exact Environment.exists_eventually_eq (consults_validateBy _ _ _ _) h

/-! ## Variables -/

section

variable {path : String} {v : Value}

/-- Reading a path comes to its end if all texts that it waits for do. -/
theorem eventually_resolve
    (h : ∀ text, (store.environment frame).Awaits
      (fun o => Path.resolve (store.find? frame) o path) text →
        (store.environment frame).Finishes text) :
    ∃ r, ∀ᶠ effort in atTop, store.resolve effort frame path = Eval.ofExcept r := by
  have hasks : Asks (· ∈ (store.environment frame).indexes path) fun o =>
      Path.resolve (store.find? frame) o path := Path.asks_resolve fun _ hexpression => hexpression
  exact Environment.exists_eventually_eq hasks.consults h

/-- What follows the reading of a path needs no effort. -/
private theorem eventually_resolve_bind
    (h : ∀ text, (store.environment frame).Awaits
      (fun o => Path.resolve (store.find? frame) o path) text →
        (store.environment frame).Finishes text) {k : Path → Eval Store}
    (hk : ∀ resolved, k resolved ≠ Eval.exhausted) :
    ∃ r, ∀ᶠ effort in atTop, store.resolve effort frame path >>= k = Eval.ofExcept r := by
  obtain ⟨r, hr⟩ := eventually_resolve h
  cases r with
  | error fault =>
    refine ⟨.error fault, hr.mono fun effort heffort => ?_⟩
    rw [heffort]
    rfl
  | ok resolved =>
    obtain ⟨r, hr'⟩ := Eval.ne_exhausted_iff.mp (hk resolved)
    refine ⟨r, hr.mono fun effort heffort => ?_⟩
    rw [heffort, ← hr']
    rfl

/-- If each index that the path of a new member waits for comes to an end, then so does its
creation. -/
theorem eventually_create
    (h : ∀ text, (store.environment frame).Awaits
      (fun o => Path.resolve (store.find? frame) o path) text →
        (store.environment frame).Finishes text) :
    ∃ r, ∀ᶠ effort in atTop, store.create effort frame path v = Eval.ofExcept r := by
  refine eventually_resolve_bind h fun resolved hunknown => ?_
  dsimp only at hunknown
  cases hcell : Value.materialize path v
      ((store.own? frame resolved.base).getD (.number 0.0)) resolved.accessors with
  | error fault =>
    rw [hcell] at hunknown
    exact Eval.throw_ne_exhausted fault hunknown
  | ok cell =>
    rw [hcell] at hunknown
    exact Eval.pure_ne_exhausted _ hunknown

/-- If each index that the path of an assignment waits for comes to an end, then so does the
assignment. -/
theorem eventually_set
    (h : ∀ text, (store.environment frame).Awaits
      (fun o => Path.resolve (store.find? frame) o path) text →
        (store.environment frame).Finishes text) :
    ∃ r, ∀ᶠ effort in atTop, store.set effort frame path v = Eval.ofExcept r := by
  refine eventually_resolve_bind h fun resolved hunknown => ?_
  rcases hholder : store.holder? frame resolved.base with _ | f
  · rw [hholder] at hunknown
    exact Eval.throw_ne_exhausted _ hunknown
  · rw [hholder] at hunknown
    dsimp only at hunknown
    rcases hlookup : f.cells.lookup resolved.base with _ | old
    · rw [hlookup] at hunknown
      exact Eval.throw_ne_exhausted _ hunknown
    · rw [hlookup] at hunknown
      dsimp only at hunknown
      cases hcell : Value.assign path v old resolved.accessors with
      | error fault =>
        rw [hcell] at hunknown
        exact Eval.throw_ne_exhausted fault hunknown
      | ok cell =>
        rw [hcell] at hunknown
        exact Eval.pure_ne_exhausted _ hunknown

end

end Logo
