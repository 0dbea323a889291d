import Logo.Expression.Atom
import Logo.Text.Literal
import Mathlib.Data.Nat.Notation

/-!
# Closed literals and brackets

A text that is escaped and put in quotes is a string literal, which is decoded to the text. A text
in which all literals and brackets are closed is passed over by every scanner, from the outside and
from inside further brackets: what stands in them neither ends a literal or a bracket nor separates
anything.
-/

namespace Logo

namespace Text

/-! ## Escapes -/

/-- A character is written as an escape of it, or as itself if it has no meaning in a literal. -/
theorem escapeChar_cases (c : Char) :
    (∃ e, escapeChar c = ['\\', e] ∧ escaped? e = some c) ∨
      escapeChar c = [c] ∧ c ≠ '"' ∧ c ≠ '\\' := by
  unfold escapeChar
  split
  · next h => exact .inl ⟨'"', rfl, by simp [escaped?, h]⟩
  · next hquote =>
    split
    · next h => exact .inl ⟨'\\', rfl, by simp [escaped?, h]⟩
    · next hbackslash =>
      split
      · next h => exact .inl ⟨'n', rfl, by simp [escaped?, h]⟩
      · split
        · next h => exact .inl ⟨'t', rfl, by simp [escaped?, h]⟩
        · split
          · next h => exact .inl ⟨'r', rfl, by simp [escaped?, h]⟩
          · exact .inr ⟨rfl, hquote, hbackslash⟩

/-- A character other than a backslash stands for itself. -/
theorem unescape_cons {c : Char} (hc : c ≠ '\\') (rest : List Char) :
    unescape (c :: rest) = (unescape rest).map (c :: ·) := by
  rw [unescape]
  · exact fun h => absurd h hc
  · exact fun _ _ h => absurd h hc

/-- What is escaped is decoded to what it was. -/
theorem unescape_escape (cs : List Char) : unescape (escape cs) = .ok cs := by
  induction cs with
  | nil => rfl
  | cons c cs ih =>
    have hcons : escape (c :: cs) = escapeChar c ++ escape cs := rfl
    rcases escapeChar_cases c with ⟨e, hescape, he⟩ | ⟨hself, _, hbackslash⟩
    · rw [hcons, hescape]
      simp [unescape, he, ih, Except.map]
    · rw [hcons, hself, List.singleton_append, unescape_cons hbackslash, ih]
      rfl

end Text

/-- An escaped text does not end a string literal. -/
theorem LiteralMode.closing?_escape (cs rest : List Char) :
    LiteralMode.string.closing? (Text.escape cs ++ '"' :: rest) = some (Text.escape cs).length := by
  induction cs with
  | nil => rfl
  | cons c cs ih =>
    have hcons : Text.escape (c :: cs) = Text.escapeChar c ++ Text.escape cs := rfl
    rcases Text.escapeChar_cases c with ⟨e, hescape, he⟩ | ⟨hself, hquote, hbackslash⟩
    · rw [hcons, hescape]
      simp [closing?, step, ih]
    · rw [hcons, hself]
      simp [closing?, step, hquote, hbackslash, ih]

namespace Text

/-! ## Texts that settle -/

/-- Whether a character opens or closes a literal or a group. -/
def isDelimiter (c : Char) : Bool :=
  c = '"' || c = '\'' || c = '(' || c = ')' || c = '[' || c = ']'

/-- A character that is no delimiter is no quote, parenthesis or bracket. -/
theorem ne_of_isDelimiter_eq_false {c : Char} (h : isDelimiter c = false) :
    c ≠ '"' ∧ c ≠ '\'' ∧ c ≠ '(' ∧ c ≠ ')' ∧ c ≠ '[' ∧ c ≠ ']' := by
  simpa [isDelimiter, and_assoc] using h

/-- Whether a text, read in a literal mode and inside so many square brackets, closes all of these
and leaves nothing open itself. It has no parentheses and no character literals. What stands outside
literals and brackets has a property. -/
inductive Settles (p : Char → Prop) : LiteralMode → ℕ → List Char → Prop
  | nil : Settles p .outside 0 []
  | literal {mode : LiteralMode} {depth : ℕ} {c : Char} {text : List Char} (hmode : mode ≠ .outside)
      (h : Settles p (mode.step c) depth text) : Settles p mode depth (c :: text)
  | quote {depth : ℕ} {text : List Char} (h : Settles p .string depth text) :
      Settles p .outside depth ('"' :: text)
  | opening {depth : ℕ} {text : List Char} (h : Settles p .outside (depth + 1) text) :
      Settles p .outside depth ('[' :: text)
  | closing {depth : ℕ} {text : List Char} (h : Settles p .outside depth text) :
      Settles p .outside (depth + 1) (']' :: text)
  | plain {depth : ℕ} {c : Char} {text : List Char} (hc : isDelimiter c = false)
      (hp : depth = 0 → p c) (h : Settles p .outside depth text) :
      Settles p .outside depth (c :: text)

namespace Settles

variable {p q : Char → Prop} {mode : LiteralMode} {depth base : ℕ} {text rest : List Char}

/-- A text that settles may stand before one that closes the brackets around both. -/
theorem append_inside (h : Settles q mode depth text) (hpq : base = 0 → ∀ c, q c → p c)
    (hrest : Settles p .outside base rest) : Settles p mode (depth + base) (text ++ rest) := by
  induction h with
  | nil => simpa using hrest
  | literal hmode _ ih => exact .literal hmode ih
  | quote _ ih => exact .quote ih
  | @opening depth text _ ih =>
    rw [Nat.add_right_comm] at ih
    exact .opening ih
  | @closing depth text _ ih =>
    rw [Nat.add_right_comm]
    exact .closing ih
  | plain hc hp _ ih => exact .plain hc (fun hzero => hpq (by omega) _ (hp (by omega))) ih

/-- A text that settles can be followed by one that does so outside of everything. -/
theorem append (h : Settles q mode depth text) (hpq : ∀ c, q c → p c)
    (hrest : Settles p .outside 0 rest) : Settles p mode depth (text ++ rest) :=
  h.append_inside (fun _ => hpq) hrest

/-- A literal settles with what stands after it. -/
theorem of_closing? {k : ℕ} (hmode : mode ≠ .outside) (h : mode.closing? text = some k)
    (hrest : Settles p .outside depth (text.drop (k + 1))) : Settles p mode depth text := by
  induction text generalizing mode k with
  | nil => cases h
  | cons c text ih =>
    unfold LiteralMode.closing? at h
    refine .literal hmode ?_
    split at h
    · next hend =>
      obtain rfl : 0 = k := Option.some.inj h
      rwa [hend]
    · next hinside =>
      obtain ⟨k, hk, rfl⟩ := Option.map_eq_some_iff.mp h
      exact ih hinside hk hrest

/-- A text without delimiters settles. -/
theorem of_plain (h : ∀ c ∈ text, isDelimiter c = false ∧ p c) : Settles p .outside 0 text := by
  induction text with
  | nil => exact .nil
  | cons c text ih =>
    obtain ⟨hc, htext⟩ := List.forall_mem_cons.mp h
    exact .plain hc.1 (fun _ => hc.2) (ih htext)

/-- A string literal settles. -/
theorem quoted (cs : List Char) : Settles p .outside 0 ('"' :: (escape cs ++ ['"'])) := by
  refine .quote (of_closing? (by decide) (LiteralMode.closing?_escape cs []) ?_)
  simpa using Settles.nil

/-- A text that settles also does so in brackets. -/
theorem bracketed (h : Settles q .outside 0 text) :
    Settles p .outside 0 ('[' :: (text ++ [']'])) :=
  .opening (by simpa using h.append_inside (by simp) (.closing .nil))

end Settles

/-! ## Scanners -/

variable {p : Char → Prop} {mode : LiteralMode} {depth : ℕ} {text rest : List Char}

/-- A text that settles is not cut at a separator that it does not have on the outside. -/
theorem splitTopLevelFrom_append {separator : Char} (h : Settles p mode depth text)
    (hseparator : ∀ c, p c → c ≠ separator) (part rest : List Char) :
    splitTopLevelFrom separator mode depth part (text ++ rest) =
      splitTopLevelFrom separator .outside 0 (text.reverse ++ part) rest := by
  induction h generalizing part with
  | nil => rfl
  | @literal mode depth c text hmode _ ih =>
    rw [List.cons_append, splitTopLevelFrom, ih]
    · simp
    · exact hmode
  | quote _ ih =>
    simp only [List.cons_append, splitTopLevelFrom]
    simpa [LiteralMode.step] using ih _
  | opening _ ih => simpa [splitTopLevelFrom] using ih _
  | closing _ ih => simpa [splitTopLevelFrom] using ih _
  | @plain depth c text hc hp _ ih =>
    have hne := ne_of_isDelimiter_eq_false hc
    have hsep : ¬(c = separator ∧ depth = 0) := fun hboth => hseparator c (hp hboth.2) hboth.1
    simp [splitTopLevelFrom, hne, hsep, ih]

/-- A text that settles in brackets does not close the bracket around it. -/
theorem bracketOffset?_append (h : Settles p mode depth text) :
    bracketOffset? mode (depth + 1) (text ++ rest) =
      (bracketOffset? .outside 1 rest).map (· + text.length) := by
  induction h with
  | nil => simp
  | @literal mode depth c text hmode _ ih =>
    rw [List.cons_append, bracketOffset?, ih]
    · simp [Function.comp_def, Nat.add_assoc]
    · exact hmode
  | quote _ ih =>
    simp [bracketOffset?, LiteralMode.step, ih, Function.comp_def, Nat.add_assoc]
  | opening _ ih => simp [bracketOffset?, ih, Function.comp_def, Nat.add_assoc]
  | closing _ ih => simp [bracketOffset?, ih, Function.comp_def, Nat.add_assoc]
  | @plain depth c text hc _ _ ih =>
    have hne := ne_of_isDelimiter_eq_false hc
    simp [bracketOffset?, LiteralMode.step, hne, ih, Function.comp_def, Nat.add_assoc]

/-- The brackets around a text that settles match. -/
theorem matchingBracket?_bracketed (h : Settles p .outside 0 text) :
    matchingBracket? ('[' :: (text ++ [']'])) 0 = some (text.length + 1) := by
  have hclose : bracketOffset? .outside 1 (text ++ [']']) =
      (bracketOffset? .outside 1 [']']).map (· + text.length) := bracketOffset?_append h
  simp [matchingBracket?, bracketOffset?, hclose]

end Text

/-! ## Atoms -/

variable {expression : String} {mode : LiteralMode} {atom text : List Char}

/-- A character that is neither a quote nor a bracket nor the point of a name starts nothing that
stays whole. -/
theorem AtomMode.opening?_eq_none_iff {c : Char} {next : Option Char} :
    opening? c next = none ↔ c ∉ ['"', '\'', '['] ∧ (c = '.' → next ≠ some '<') := by
  by_cases hquote : c = '"' ∨ c = '\''
  · rcases hquote with rfl | rfl <;> simp [opening?]
  by_cases hbracket : c = '['
  · simp [opening?, hbracket]
  · obtain ⟨hdouble, hsingle⟩ := not_or.mp hquote
    simp [opening?, hdouble, hsingle, hbracket]

/-- A character that starts nothing that stays whole ends the current atom or is put to it. -/
theorem splitAtomsFrom_loose {c : Char} {rest : List Char} (hc : c ∉ ['"', '\'', '[', ']'])
    (hname : c = '.' → rest.head? ≠ some '<') (atom : List Char) :
    splitAtomsFrom expression .free atom (c :: rest) =
      if Text.isBlank c then (splitAtomsFrom expression .free [] rest).map (consAtom atom)
      else if isPunctuation c then
        (splitAtomsFrom expression .free [] rest).map fun atoms =>
          consAtom atom (c.toString :: atoms)
      else splitAtomsFrom expression .free (c :: atom) rest := by
  have hopening : AtomMode.opening? c rest.head? = none :=
    AtomMode.opening?_eq_none_iff.mpr ⟨by simp_all, hname⟩
  have hclosing : c ≠ ']' := by simp_all
  rw [splitAtomsFrom, hopening]
  dsimp only
  rw [if_neg hclosing]

/-- A literal stays in one atom. -/
theorem splitAtomsFrom_literal {k : ℕ} (h : mode.closing? text = some k) :
    splitAtomsFrom expression (.literal mode) atom text =
      splitAtomsFrom expression .free ((text.take (k + 1)).reverse ++ atom)
        (text.drop (k + 1)) := by
  induction text generalizing mode atom k with
  | nil => cases h
  | cons c text ih =>
    unfold LiteralMode.closing? at h
    rw [splitAtomsFrom]
    · split at h
      · next hend =>
        obtain rfl : 0 = k := Option.some.inj h
        simp [AtomMode.step, hend]
      · next hinside =>
        obtain ⟨k, hk, rfl⟩ := Option.map_eq_some_iff.mp h
        simp [AtomMode.step, hinside, ih hk]
    · intro hfree
      cases hfree

/-- A text that settles in brackets stays in one atom with them. -/
theorem splitAtomsFrom_bracket {p : Char → Prop} {depth : ℕ} {rest : List Char}
    (h : Text.Settles p mode depth text) :
    splitAtomsFrom expression (.bracket mode (depth + 1)) atom (text ++ rest) =
      splitAtomsFrom expression (.bracket .outside 1) (text.reverse ++ atom) rest := by
  induction h generalizing atom with
  | nil => rfl
  | @literal mode depth c text hmode _ ih =>
    have hstep :
        (AtomMode.bracket mode (depth + 1)).step c = .bracket (mode.step c) (depth + 1) := by
      cases mode with
      | outside => exact absurd rfl hmode
      | _ => rfl
    rw [List.cons_append, splitAtomsFrom, hstep, ih]
    · simp
    · intro hfree
      cases hfree
  | quote _ ih => simp [splitAtomsFrom, AtomMode.step, LiteralMode.step, ih]
  | opening _ ih => simp [splitAtomsFrom, AtomMode.step, ih]
  | closing _ ih => simp [splitAtomsFrom, AtomMode.step, ih]
  | @plain depth c text hc _ _ ih =>
    have hne := Text.ne_of_isDelimiter_eq_false hc
    simp [splitAtomsFrom, AtomMode.step, LiteralMode.step, hne, ih]

/-- A string literal is one atom. -/
theorem splitAtoms_quoted (cs : List Char) :
    splitAtoms (String.ofList ('"' :: (Text.escape cs ++ ['"']))) =
      .ok [String.ofList ('"' :: (Text.escape cs ++ ['"']))] := by
  have htake : (Text.escape cs ++ ['"']).take ((Text.escape cs).length + 1) =
      Text.escape cs ++ ['"'] := List.take_of_length_le (by simp)
  rw [splitAtoms, String.toList_ofList, splitAtomsFrom, AtomMode.opening?]
  simp [splitAtomsFrom_literal (LiteralMode.closing?_escape cs []), htake, LiteralMode.step,
    splitAtomsFrom, AtomMode.unfinished?, consAtom]

/-- Brackets around a text that settles are one atom with it. -/
theorem splitAtoms_bracketed {p : Char → Prop} (h : Text.Settles p .outside 0 text) :
    splitAtoms (String.ofList ('[' :: (text ++ [']']))) =
      .ok [String.ofList ('[' :: (text ++ [']']))] := by
  have hbody (expression : String) (atom : List Char) :
      splitAtomsFrom expression (.bracket .outside 1) atom (text ++ [']']) =
        splitAtomsFrom expression (.bracket .outside 1) (text.reverse ++ atom) [']'] :=
    splitAtomsFrom_bracket h
  rw [splitAtoms, String.toList_ofList, splitAtomsFrom, AtomMode.opening?]
  simp [hbody, splitAtomsFrom, AtomMode.step, AtomMode.unfinished?, consAtom]

end Logo
