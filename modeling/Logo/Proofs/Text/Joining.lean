import Logo.Proofs.Text.Spans
import Logo.Proofs.Text.TopLevel

/-!
# Cutting and joining at the top level

The parts of a text at its top level, joined with the separator, are the text, whatever is wrong
with its literals and brackets. Parts that close their literals and brackets, and have the separator
only inside of them, are cut from each other again after they were joined.
-/

namespace Logo

/-- Parentheses and square brackets, which are not told apart. -/
def Brackets.roundAndSquare : Brackets := ⟨['(', '['], [')', ']'], by simp⟩

namespace Text

open Brackets

variable {separator c : Char} {mode : LiteralMode} {depth k : ℕ} {atoms : List Atom}
  {cs : List Char}

/-! ## Parts that stay whole -/

/-- Whether a bracket is open wherever a character stands outside of literals, with a number of
brackets open before the first atom. -/
def Inside (c : Char) (depth : ℕ) (atoms : List Atom) : Prop :=
  ∀ before after, atoms = before ++ .char c :: after →
    roundAndSquare.closed before < depth + roundAndSquare.opened before

/-- Whether a text ends outside of literals, never closes more brackets than it has opened, closes
all that it opens, and has a separator only in brackets and literals. -/
def StaysWhole (separator : Char) (cs : List Char) : Prop :=
  ∃ atoms, Atom.MakeUp atoms cs ∧ roundAndSquare.Balanced 0 atoms ∧ Inside separator 0 atoms

/-- Where no bracket is open, the character does not come first. -/
theorem Inside.ne_of_zero {a : Atom} (h : Inside c 0 (a :: atoms)) : a ≠ .char c := by
  rintro rfl
  exact absurd (h [] atoms rfl) (Nat.lt_irrefl 0)

/-- What the first atom does to the number of open brackets counts for all that is behind it. -/
theorem Inside.tail {a : Atom} {depth' : ℕ} (h : Inside c depth (a :: atoms))
    (hnext : depth' + roundAndSquare.closed [a] = depth + roundAndSquare.opened [a]) :
    Inside c depth' atoms := by
  rintro before after rfl
  have hlt := h (a :: before) after rfl
  rw [opened_cons, closed_cons] at hlt
  omega

/-! ## One atom -/

/-- A cut does not go through a literal. -/
theorem splitTopLevelFrom_literal (hmode : mode ≠ .outside) (h : mode.closing? cs = some k)
    (depth : ℕ) (part : List Char) :
    splitTopLevelFrom separator mode depth part cs =
      splitTopLevelFrom separator .outside depth ((cs.take (k + 1)).reverse ++ part)
        (cs.drop (k + 1)) := by
  induction cs generalizing mode k part with
  | nil => cases h
  | cons c cs ih =>
    rw [LiteralMode.closing?] at h
    rw [splitTopLevelFrom]
    · by_cases hend : mode.step c = .outside
      · rw [if_pos hend] at h
        cases h
        rw [hend]
        rfl
      · rw [if_neg hend] at h
        obtain ⟨k, hk, rfl⟩ := Option.map_eq_some_iff.mp h
        simp [ih hend hk]
    · exact hmode

/-- A character outside of literals leads on to the brackets that are open behind it. -/
theorem read_char (hc : (Atom.char c).Whole) (h : roundAndSquare.Balanced depth (.char c :: atoms)) :
    ∃ depth', Level.read ⟨.outside, depth⟩ c = ⟨.outside, depth'⟩ ∧
      depth' + roundAndSquare.closed [.char c] = depth + roundAndSquare.opened [.char c] := by
  obtain ⟨hdouble, hsingle⟩ := hc
  by_cases hopen : c = '(' ∨ c = '['
  · obtain ⟨hopened, hclosed⟩ : roundAndSquare.opened [.char c] = 1 ∧
        roundAndSquare.closed [.char c] = 0 := counts_opening (by simpa [roundAndSquare] using hopen)
    exact ⟨depth + 1, by simp [Level.read, hopen], by omega⟩
  by_cases hclose : c = ')' ∨ c = ']'
  · have hmem : c ∈ roundAndSquare.closing := by simpa [roundAndSquare] using hclose
    obtain ⟨hopened, hclosed⟩ := counts_closing hmem
    cases depth with
    | zero => exact absurd h (not_balanced_closing hmem)
    | succ depth => exact ⟨depth, by simp [Level.read, hopen, hclose], by omega⟩
  · obtain ⟨hopened, hclosed⟩ : roundAndSquare.opened [.char c] = 0 ∧
        roundAndSquare.closed [.char c] = 0 := by
      refine counts_other fun d hd => ?_
      cases hd
      rw [not_or] at hopen hclose
      simpa [roundAndSquare] using ⟨hopen, hclose⟩
    refine ⟨depth, ?_, by omega⟩
    simp [Level.read, hopen, hclose, LiteralMode.step, hdouble, hsingle]

/-- An atom is put to the current part, unless it is a separator outside of brackets. -/
theorem splitTopLevelFrom_atom {a : Atom} (ha : a.Whole)
    (hbalanced : roundAndSquare.Balanced depth (a :: atoms))
    (hinside : Inside separator depth (a :: atoms)) :
    ∃ depth', roundAndSquare.Balanced depth' atoms ∧ Inside separator depth' atoms ∧
      ∀ part rest, splitTopLevelFrom separator .outside depth part (a.text ++ rest) =
        splitTopLevelFrom separator .outside depth' (a.text.reverse ++ part) rest := by
  by_cases hchar : ∃ c, a = .char c
  · obtain ⟨c, rfl⟩ := hchar
    obtain ⟨depth', hread, hnext⟩ := read_char ha hbalanced
    refine ⟨depth', (balanced_cons_iff hnext).mp hbalanced, hinside.tail hnext, fun part rest => ?_⟩
    have hpasses : (⟨.outside, depth⟩ : Level) = .top → c ≠ separator := by
      rintro htop rfl
      cases htop
      exact hinside.ne_of_zero rfl
    have hpass := splitTopLevelFrom_of_passes hpasses part rest
    rwa [hread] at hpass
  · have hliteral : ∀ c, a ≠ .char c := fun c hc => hchar ⟨c, hc⟩
    have hcounts : roundAndSquare.opened [a] = 0 ∧ roundAndSquare.closed [a] = 0 :=
      counts_other fun c hc => absurd hc (hliteral c)
    have hnext : depth + roundAndSquare.closed [a] = depth + roundAndSquare.opened [a] := by omega
    refine ⟨depth, (balanced_cons_iff hnext).mp hbalanced, hinside.tail hnext, fun part rest => ?_⟩
    obtain ⟨quote, body, k, htext, hquote, hbody, hclosing⟩ := ha.closing?_eq hliteral
    have hstart (text : List Char) : splitTopLevelFrom separator .outside depth part (quote :: text) =
        splitTopLevelFrom separator (LiteralMode.outside.step quote) depth (quote :: part) text := by
      rcases hquote with rfl | rfl <;> rfl
    have hmode := LiteralMode.step_quote_ne hquote
    rw [htext, List.cons_append, hstart, splitTopLevelFrom_literal hmode (hclosing rest), ← hbody,
      List.take_left, List.drop_left]
    simp

/-! ## All atoms of a part, and all parts -/

/-- Whole atoms with balanced brackets and no separator outside of them all go to the part in hand.
-/
theorem splitTopLevelFrom_atoms (hwhole : ∀ a ∈ atoms, a.Whole)
    (hbalanced : roundAndSquare.Balanced depth atoms) (hinside : Inside separator depth atoms)
    (part rest : List Char) :
    splitTopLevelFrom separator .outside depth part (atoms.flatMap Atom.text ++ rest) =
      splitTopLevelFrom separator .outside 0 ((atoms.flatMap Atom.text).reverse ++ part) rest := by
  induction atoms generalizing depth part with
  | nil =>
    rw [balanced_nil_iff.mp hbalanced]
    rfl
  | cons a atoms ih =>
    obtain ⟨ha, hatoms⟩ := List.forall_mem_cons.mp hwhole
    obtain ⟨depth', hbalanced', hinside', hatom⟩ := splitTopLevelFrom_atom ha hbalanced hinside
    rw [List.flatMap_cons, List.append_assoc, hatom, ih hatoms hbalanced' hinside']
    simp

/-- A part that stays whole is put to the current part. -/
theorem StaysWhole.splitTopLevelFrom_append (h : StaysWhole separator cs) (part rest : List Char) :
    splitTopLevelFrom separator .outside 0 part (cs ++ rest) =
      splitTopLevelFrom separator .outside 0 (cs.reverse ++ part) rest := by
  obtain ⟨atoms, ⟨hwhole, rfl⟩, hbalanced, hinside⟩ := h
  exact splitTopLevelFrom_atoms hwhole hbalanced hinside part rest

/-- Parts that stay whole are cut from each other after they were joined. -/
theorem splitTopLevel_intercalate (hseparator : isDelimiter separator = false)
    {parts : List (List Char)} (hne : parts ≠ []) (h : ∀ part ∈ parts, StaysWhole separator part) :
    splitTopLevel separator ([separator].intercalate parts) = parts := by
  induction parts with
  | nil => exact absurd rfl hne
  | cons part parts ih =>
    obtain ⟨hpart, hparts⟩ := List.forall_mem_cons.mp h
    cases parts with
    | nil =>
      have hend := hpart.splitTopLevelFrom_append [] []
      rw [List.append_nil, List.append_nil] at hend
      rw [List.intercalate_singleton, splitTopLevel, hend, splitTopLevelFrom, List.reverse_reverse]
    | cons next parts =>
      rw [List.intercalate_cons_cons, List.append_assoc, List.singleton_append, splitTopLevel,
        hpart.splitTopLevelFrom_append, splitTopLevelFrom_separator hseparator,
        ih (by simp) hparts]
      simp

/-- The parts of a text, joined, are the text. Parts that stay whole are the parts of the text that
they make up when joined by a separator that is neither a quote nor a bracket. -/
theorem cutting_and_joining_are_inverse (separator : Char) :
    (∀ cs, [separator].intercalate (splitTopLevel separator cs) = cs) ∧
      (isDelimiter separator = false → ∀ parts, parts ≠ [] →
        (∀ part ∈ parts, StaysWhole separator part) →
          splitTopLevel separator ([separator].intercalate parts) = parts) :=
  ⟨fun cs => intercalate_splitTopLevelFrom separator .outside 0 [] cs,
    fun hseparator _ hne h => splitTopLevel_intercalate hseparator hne h⟩

/-- The parts `(,)`, `",("` and an empty one are found in `(,),",(",`. -/
theorem cutting_and_joining_are_inverse_group_literal :
    let parts := [['(', ',', ')'], ['"', ',', '(', '"'], []]
    isDelimiter ',' = false ∧ parts ≠ [] ∧ (∀ part ∈ parts, StaysWhole ',' part) ∧
      splitTopLevel ',' (['(', ',', ')'] ++ ',' :: ['"', ',', '(', '"'] ++ [',']) = parts := by
  intro parts
  have hgroup : StaysWhole ',' ['(', ',', ')'] := by
    refine ⟨[.char '(', .char ',', .char ')'], ⟨by simp [Atom.Whole], rfl⟩, ?_, ?_⟩
    · rw [balanced_opening_iff (by simp [roundAndSquare]),
        balanced_other_iff (by simp [roundAndSquare]),
        balanced_closing_iff (by simp [roundAndSquare]), balanced_nil_iff]
    · intro before after h
      rcases before with _ | ⟨a, _ | ⟨a', _ | ⟨a'', before⟩⟩⟩
      · simp at h
      · obtain rfl : .char '(' = a := (List.cons.inj h).1
        decide
      · simp at h
      · simp at h
  have hliteral : StaysWhole ',' ['"', ',', '(', '"'] := by
    refine ⟨[.string [',', '(']], ⟨by simp [Atom.Whole, Atom.IsStringBody], rfl⟩, ?_, ?_⟩
    · rw [balanced_other_iff (by simp), balanced_nil_iff]
    · intro before after h
      rcases before with _ | ⟨a, before⟩ <;> simp at h
  have hempty : StaysWhole ',' [] :=
    ⟨[], .nil, balanced_nil_iff.mpr rfl, fun before after h => by simp at h⟩
  have hparts : ∀ part ∈ parts, StaysWhole ',' part := by
    simpa [parts] using ⟨hgroup, hliteral, hempty⟩
  exact ⟨by decide, by simp [parts], hparts,
    (cutting_and_joining_are_inverse ',').2 (by decide) parts (by simp [parts]) hparts⟩

end Text

end Logo
