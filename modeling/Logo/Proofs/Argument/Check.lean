import Logo.Argument.Validate
import Logo.Proofs.Evaluation.Query
import Mathlib.Data.Nat.Notation

/-!
# Checked arguments

The arguments of a command are checked one by one, each against what is permitted in its place. What
comes out is of a kind that is permitted there: where only words are, plain words stand, and where
only code is, the argument is code.
-/

namespace Logo

/-! ## Kinds of arguments -/

namespace Categories

/-- Whether variables are permitted, and no kind of value is named. -/
def anyVariable (c : Categories) : Bool := c.reference && !(c.numeric || c.array || c.code)

/-- Whether an argument is of a kind that is permitted. -/
def admits (c : Categories) : Actual → Bool
  | .word _ => c.word || c.expression
  | .value (.number _) => c.numeric || c.anyVariable
  | .value (.array _) | .value (.object _) => c.array || c.anyVariable
  | .value (.code _) => c.code || c.anyVariable

variable {c : Categories} {x : Actual}

/-- A value that categories accept is admitted by them. -/
theorem admits_of_accepts {v : Value} (h : c.accepts v = true) : c.admits (.value v) = true := by
  unfold accepts at h
  split at h
  · cases v with
    | number | array | object | code => exact Bool.or_eq_true_iff.mpr (.inl h)
  · next hkinds =>
    have hany : c.anyVariable = true := by simp [anyVariable, h, hkinds]
    cases v with
    | number | array | object | code => exact Bool.or_eq_true_iff.mpr (.inr hany)

/-- Where only words are permitted, an argument that is admitted is a word. -/
theorem exists_word_of_admits (h : ({ word := true } : Categories).admits x = true) :
    ∃ word, x = .word word := by
  rcases x with word | (_ | _ | _ | _)
  · exact ⟨word, rfl⟩
  · cases h
  · cases h
  · cases h
  · cases h

/-- Where only code is permitted, an argument that is admitted is a piece of code. -/
theorem exists_code_of_admits (h : ({ code := true } : Categories).admits x = true) :
    ∃ code, x = .value (.code code) := by
  rcases x with _ | (_ | _ | _ | code)
  · cases h
  · cases h
  · cases h
  · cases h
  · exact ⟨code, rfl⟩

/-- Where only numbers are permitted, an argument that is admitted is a number, with or without
references. -/
theorem exists_number_of_admits {reference : Bool}
    (h : ({ numeric := true, reference } : Categories).admits x = true) :
    ∃ n, x = .value (.number n) := by
  rcases x with _ | (n | _ | _ | _)
  · cases h
  · exact ⟨n, rfl⟩
  · simp [admits, anyVariable] at h
  · simp [admits, anyVariable] at h
  · simp [admits, anyVariable] at h

/-- Where only arrays are permitted, an argument that is admitted is an array. -/
theorem exists_items_of_admits {reference : Bool}
    (h : ({ array := true, reference } : Categories).admits x = true) :
    (∃ items, x = .value (.array items)) ∨ ∃ fields, x = .value (.object fields) := by
  rcases x with _ | (_ | items | fields | _)
  · cases h
  · simp [admits, anyVariable] at h
  · exact .inl ⟨items, rfl⟩
  · exact .inr ⟨fields, rfl⟩
  · simp [admits, anyVariable] at h

end Categories

variable {s : Store} {id : FrameId} {effort index : ℕ} {command : String} {a : Argument}
  {x : Actual}

/-! ## One argument -/

/-- Where a word is asked for, a text is taken if it is a plain word. -/
theorem checkArgument_word (effort : ℕ) (s : Store) (id : FrameId) (command : String)
    (index : ℕ) (text : String) :
    checkArgument effort s id ⟨command, index, { word := true }⟩ (.text text) =
      if isPlainWord text then pure (.word text)
      else throw (.argumentCategory command (index + 1) { word := true } (.text text)) := by
  rw [checkArgument]
  cases hplain : isPlainWord text with
  | true => simp [checkText, hplain]
  | false => simp [checkText, evaluateArgument, Demand.reject, hplain]

/-- Where only a word is permitted, a plain word stands. -/
theorem exists_of_checkArgument_word
    (h : checkArgument effort s id ⟨command, index, { word := true }⟩ a = pure x) :
    ∃ word, a = .text word ∧ x = .word word ∧ isPlainWord word = true := by
  cases a with
  | block => cases h
  | text word =>
    rw [checkArgument_word] at h
    split at h
    · next hplain => exact ⟨word, rfl, (Eval.pure_inj.mp h).symm, hplain⟩
    · cases h

/-- What a demand makes of a value is admitted by the categories that it permits. -/
theorem Demand.admits_of_accept (d : Demand) {text : String} {v : Value}
    (h : d.accept text v = .ok x) : d.permitted.admits x = true := by
  unfold accept at h
  split at h
  · next haccepts =>
    cases h
    exact Categories.admits_of_accepts haccepts
  · cases h

/-- An argument that has been evaluated is admitted by the categories that its position permits. -/
theorem admits_of_evaluateArgument {d : Demand} {text : String}
    (h : evaluateArgument effort s id d text = pure x) : d.permitted.admits x = true := by
  unfold evaluateArgument at h
  split at h
  · obtain ⟨v, _, hv⟩ := Eval.bind_eq_pure_iff.mp h
    exact d.admits_of_accept (Eval.liftM_eq_pure_iff.mp hv)
  · cases h

/-- A checked argument is of a kind that is permitted. -/
theorem admits_of_checkArgument {d : Demand} (h : checkArgument effort s id d a = pure x) :
    d.permitted.admits x = true := by
  cases a with
  | block block body =>
    rw [checkArgument] at h
    split at h
    · next hcode =>
      cases Eval.pure_inj.mp h
      exact Bool.or_eq_true_iff.mpr (.inl hcode)
    · cases h
  | text text =>
    rw [checkArgument, checkText] at h
    split at h
    · next hword =>
      cases Eval.pure_inj.mp h
      exact Bool.or_eq_true_iff.mpr (.inl (Bool.and_eq_true_iff.mp hword).2)
    · split at h
      · next hexpression =>
        obtain ⟨_, _, hx⟩ := Eval.bind_eq_pure_iff.mp h
        cases Eval.pure_inj.mp hx
        exact Bool.or_eq_true_iff.mpr (.inr hexpression)
      · split at h
        · split at h
          · cases h
          · exact d.admits_of_accept (Eval.liftM_eq_pure_iff.mp h)
          · exact admits_of_evaluateArgument h
        · exact admits_of_evaluateArgument h

/-- Where only code is permitted, code stands or is in a variable. -/
theorem exists_of_checkArgument_code
    (h : checkArgument effort s id ⟨command, index, { code := true }⟩ a = pure x) :
    ∃ code, x = .value (.code code) :=
  Categories.exists_code_of_admits (admits_of_checkArgument h)

/-! ## All arguments -/

/-- Words with code behind them. -/
theorem exists_of_checkArgument_words (permitted : ℕ → Categories) {as : List Argument}
    {xs : List Actual} (hne : as ≠ [])
    (hword : ∀ k, k + 1 < index + as.length → permitted k = { word := true })
    (hcode : ∀ k, k + 1 = index + as.length → permitted k = { code := true })
    (h : List.Forall₂ (fun p x => checkArgument effort s id ⟨command, p.2, permitted p.2⟩ p.1 =
      pure x) (as.zipIdx index) xs) :
    ∃ (words : List String) (last : Argument) (code : Code), as = words.map .text ++ [last] ∧
      xs = words.map .word ++ [.value (.code code)] ∧ ∀ word ∈ words, isPlainWord word = true := by
  induction as generalizing index xs with
  | nil => exact absurd rfl hne
  | cons a as ih =>
    rw [List.zipIdx_cons] at h
    rw [List.length_cons] at hword hcode
    rcases h with _ | ⟨hx, hxs⟩
    cases as with
    | nil =>
      cases hxs
      rw [hcode index rfl] at hx
      obtain ⟨code, rfl⟩ := exists_of_checkArgument_code hx
      exact ⟨[], a, code, rfl, rfl, by simp⟩
    | cons b as =>
      rw [hword index (by simp)] at hx
      obtain ⟨word, rfl, rfl, hplain⟩ := exists_of_checkArgument_word hx
      obtain ⟨words, last, code, has, rfl, hwords⟩ := ih (by simp)
        (fun k hk => hword k (by omega)) (fun k hk => hcode k (by omega)) hxs
      rw [has]
      exact ⟨word :: words, last, code, rfl, rfl, List.forall_mem_cons.mpr ⟨hplain, hwords⟩⟩

variable {signature : Signature} {as : List Argument} {xs : List Actual}

/-- The number of arguments is right if it is within the bounds. -/
theorem Signature.checkCount_eq_ok_iff {count : ℕ} :
    signature.checkCount command count = .ok () ↔
      signature.bounds.least ≤ count ∧ signature.bounds.most.all (count ≤ ·) = true := by
  rw [← decide_eq_true_iff (p := _ ≤ _), ← Bool.and_eq_true, checkCount]
  split
  · next h => simp only [h]
  · next h => simp [h]

/-- The arguments are checked one by one. -/
theorem forall₂_of_validate (h : validate effort s id command signature as = pure xs) :
    signature.checkCount command as.length = .ok () ∧
      List.Forall₂ (fun p x => checkArgument effort s id
        ⟨command, p.2, signature.permitted p.2 as.length⟩ p.1 = pure x) as.zipIdx xs := by
  obtain ⟨_, hcount, hxs⟩ := Eval.bind_eq_pure_iff.mp h
  exact ⟨Eval.liftM_eq_pure_iff.mp hcount, Eval.forall₂_of_mapM_eq_pure hxs⟩

/-- What a signature permits in each place if there are `total` arguments. -/
def Signature.positions (signature : Signature) (total : ℕ) : List Categories :=
  (List.range total).map (signature.permitted · total)

/-- Checked arguments are of the kinds that are permitted in their places. -/
theorem forall₂_admits_of_validate (h : validate effort s id command signature as = pure xs) :
    List.Forall₂ (fun c x => c.admits x = true) (signature.positions as.length) xs := by
  have hindices : as.zipIdx.map Prod.snd = List.range as.length := by
    rw [List.zipIdx_map_snd, List.range_eq_range']
  rw [Signature.positions, ← hindices, List.map_map, List.forall₂_map_left_iff]
  exact (forall₂_of_validate h).2.imp fun _ _ hx => admits_of_checkArgument hx

/-- A signature with one argument for each position permits what is said there. -/
theorem Signature.positions_fixed (positions : List Categories) :
    (Signature.fixed positions).positions positions.length = positions := by
  refine List.ext_getElem (by simp [Signature.positions]) fun k hk hk' => ?_
  simp [Signature.positions, permitted, hk']

/-- With a fixed signature, each position admits the argument that has been checked against it. -/
theorem forall₂_admits_of_fixed {positions : List Categories}
    (h : validate effort s id command (.fixed positions) as = pure xs) :
    List.Forall₂ (fun c x => c.admits x = true) positions xs := by
  obtain ⟨hleast, hmost⟩ := Signature.checkCount_eq_ok_iff.mp (forall₂_of_validate h).1
  have hlength : as.length = positions.length := Nat.le_antisymm (of_decide_eq_true hmost) hleast
  have hadmits := forall₂_admits_of_validate h
  rwa [hlength, Signature.positions_fixed] at hadmits

/-- Checking keeps the number of the arguments. -/
theorem length_of_validate (h : validate effort s id command signature as = pure xs) :
    xs.length = as.length := by
  rw [← (forall₂_of_validate h).2.length_eq, List.length_zipIdx]

/-- Where all positions permit the same, checked arguments are of these categories. -/
theorem admits_of_variadic {c : Categories} {bounds : ArgumentBounds}
    (h : validate effort s id command (.variadic [] [] c bounds) as = pure xs) :
    ∀ x ∈ xs, c.admits x = true := by
  intro x hx
  obtain ⟨k, hk, rfl⟩ := List.mem_iff_getElem.mp hx
  obtain ⟨hlength, hadmits⟩ := List.forall₂_iff_get.mp (forall₂_admits_of_validate h)
  have hpermitted := hadmits k (hlength ▸ hk) hk
  rw [length_of_validate h] at hk
  simpa [Signature.positions, Signature.permitted, Nat.not_le.mpr hk] using hpermitted

end Logo
