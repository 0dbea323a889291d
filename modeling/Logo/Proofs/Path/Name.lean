import Logo.Proofs.Evaluation.Query
import Logo.Store
import Mathlib.Data.List.TakeWhile
import Mathlib.Data.Nat.Notation

/-!
# Paths that are names

A path that is an identifier leads to the variable of this name itself: it has nothing to replace,
no blanks and no parts.
-/

namespace Logo

/-- The characters of an identifier are not blank and have no meaning in a path. -/
theorem isIdentChar_spec {c : Char} (h : isIdentChar c = true) :
    Text.isBlank c = false ∧ c ≠ '<' ∧ c ≠ '.' ∧ c ≠ '[' := by
  have hcode : (48 ≤ c.toNat ∧ c.toNat ≤ 57) ∨ (65 ≤ c.toNat ∧ c.toNat ≤ 90) ∨
      (97 ≤ c.toNat ∧ c.toNat ≤ 122) ∨ c.toNat = 95 := by
    have halpha : c.isAlpha = (decide (c.val ≥ 'A'.val ∧ c.val ≤ 'Z'.val) ||
        (decide (c.val ≥ 'a'.val) && decide (c.val ≤ 'z'.val))) := rfl
    simp only [isIdentChar, Char.isAlphanum, halpha, Char.isDigit, Bool.or_eq_true,
      Bool.and_eq_true, decide_eq_true_eq, ge_iff_le, UInt32.le_iff_toNat_le] at h
    rcases h with ((hupper | hlower) | hdigit) | rfl
    · exact .inr (.inl hupper)
    · exact .inr (.inr (.inl hlower))
    · exact .inl hdigit
    · exact .inr (.inr (.inr rfl))
  refine ⟨?_, ?_, ?_, ?_⟩
  · simp only [Text.isBlank, Bool.or_eq_false_iff, Bool.and_eq_false_iff, decide_eq_false_iff_not]
    omega
  · rintro rfl
    revert hcode
    decide
  · rintro rfl
    revert hcode
    decide
  · rintro rfl
    revert hcode
    decide

/-- Each character of an identifier may stand inside one. -/
theorem isIdentChar_of_mem {cs : List Char} (h : isIdentifierChars cs = true) {c : Char}
    (hc : c ∈ cs) : isIdentChar c = true := by
  cases cs with
  | nil => cases h
  | cons first rest =>
    simp only [isIdentifierChars, isIdentStart, Bool.and_eq_true, Bool.or_eq_true,
      List.all_eq_true] at h
    rcases List.mem_cons.mp hc with rfl | hrest
    · simp only [isIdentChar, Char.isAlphanum, Bool.or_eq_true]
      exact h.1.imp_left .inl
    · exact h.2 c hrest

/-- A text that neither starts nor ends with a blank is left as it is. -/
theorem Text.trim_of_not_blank {cs : List Char} (h : ∀ c ∈ cs, isBlank c = false) :
    trim cs = cs := by
  have hdrop {cs : List Char} (h : ∀ c ∈ cs, isBlank c = false) : cs.dropWhile isBlank = cs := by
    cases cs with
    | nil => rfl
    | cons c rest => simp [h c List.mem_cons_self]
  rw [trim, hdrop h, hdrop fun c hc => h c (List.mem_reverse.mp hc), List.reverse_reverse]

namespace Path

/-- A text without `<` has nothing to replace. -/
theorem expandFrom_of_not_mem {path : String} {find? : String → Option Value} {depth : ℕ}
    {cs : List Char} (h : '<' ∉ cs) : expandFrom path find? depth none cs = .ok cs := by
  induction cs generalizing depth with
  | nil => rfl
  | cons c rest ih =>
    rw [List.mem_cons, not_or] at h
    simp only [expandFrom, Ne.symm h.1, decide_false, Bool.false_and, Bool.false_eq_true, if_false,
      ih h.2]
    rfl

/-- An empty text has no parts. -/
theorem parts_nil : parts [] = [] := by rw [parts]

/-- A path in which nothing is replaced is read as the name of a variable and its parts. -/
theorem resolve_eq_mapM {find? : String → Option Value} {evaluate : String → Eval Value}
    {path base : String} {rest : List Char} (hbase : isIdentifier base = true)
    (hpath : path.toList = base.toList ++ rest) (hrest : ∀ c ∈ rest.head?, c = '.' ∨ c = '[')
    (hexpand : expand find? path = .ok path.toList)
    (htrim : Text.trim path.toList = path.toList) :
    resolve find? evaluate path = do
      let accessors ← (parts rest).mapM (Part.resolve path evaluate)
      return ⟨base, accessors⟩ := by
  have hname : ∀ c ∈ base.toList, (c != '.' && c != '[') = true := fun c hc => by
    simp [(isIdentChar_spec (isIdentChar_of_mem hbase hc)).2.2]
  have htake : path.toList.takeWhile (fun c => c != '.' && c != '[') = base.toList := by
    rw [hpath, List.takeWhile_append_of_pos hname]
    cases rest with
    | nil => simp
    | cons c rest =>
      rcases hrest c rfl with rfl | rfl
      · simp
      · simp
  have hidentifier : isIdentifierChars base.toList = true := hbase
  simp only [resolve, hexpand, Eval.liftM_ok_bind, htrim, htake, hidentifier, if_true]
  rw [hpath, List.drop_left, String.ofList_toList]

/-- An identifier is the path of the variable of this name. -/
theorem resolve_of_isIdentifier (find? : String → Option Value) (evaluate : String → Eval Value)
    {name : String} (h : isIdentifier name = true) :
    resolve find? evaluate name = pure ⟨name, []⟩ := by
  have hspec c (hc : c ∈ name.toList) := isIdentChar_spec (isIdentChar_of_mem h hc)
  have hexpand : expand find? name = .ok name.toList :=
    expandFrom_of_not_mem fun hmem => (hspec _ hmem).2.1 rfl
  rw [resolve_eq_mapM h (List.append_nil _).symm (by simp) hexpand
    (Text.trim_of_not_blank fun c hc => (hspec c hc).1), parts_nil]
  rfl

end Path

/-- A variable that is made by its name gets the value as it is. -/
theorem Store.create_of_isIdentifier (s : Store) (effort : ℕ) (id : FrameId) {name : String}
    (h : isIdentifier name = true) (v : Value) :
    s.create effort id name v = pure (s.write id name v) := by
  rw [create, resolve, Path.resolve_of_isIdentifier _ _ h, pure_bind]
  simp only [Value.materialize, Eval.liftM_ok_bind]

end Logo
