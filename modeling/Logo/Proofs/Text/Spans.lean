import Logo.Proofs.Path.Stray
import Logo.Proofs.Token.Scan

/-!
# Where literals and brackets end

A text without an open literal is a run of atoms, which are single characters and whole literals.
The search for the end of a literal or of a bracket looks at nothing behind this end, so that the
end is found again in the span alone and with any text behind it. What stands between a square
bracket and its partner is a run of atoms in which all brackets have partners of their own.
-/

namespace Logo

/-! ## Runs of atoms -/

namespace Atom

/-- Whether an atom is a whole literal, or a character that starts none. -/
def Whole : Atom → Prop
  | char c => c ≠ '"' ∧ c ≠ '\''
  | string body => IsStringBody body
  | character body => (∃ c, c ≠ '\\' ∧ body = [c]) ∨ ∃ c, body = ['\\', c]

/-- Whether some atoms are whole and make up a text. -/
structure MakeUp (atoms : List Atom) (cs : List Char) : Prop where
  whole : ∀ a ∈ atoms, a.Whole
  text_eq : atoms.flatMap text = cs

/-- No atoms make up the empty text. -/
theorem MakeUp.nil : MakeUp [] [] := ⟨by simp, rfl⟩

/-- A whole atom can be put in front. -/
theorem MakeUp.cons {a : Atom} {atoms : List Atom} {cs : List Char} (ha : a.Whole)
    (h : MakeUp atoms cs) : MakeUp (a :: atoms) (a.text ++ cs) where
  whole := List.forall_mem_cons.mpr ⟨ha, h.whole⟩
  text_eq := by rw [List.flatMap_cons, h.text_eq]

/-- No atom is empty. -/
theorem text_ne_nil (a : Atom) : a.text ≠ [] := by
  cases a <;> simp [text]

/-- A literal that can follow other atoms in a word is whole. -/
theorem whole_of_follows {a : Atom} (hliteral : ∀ c, a ≠ char c) {before : List Atom}
    (h : a.Follows before) : a.Whole := by
  cases a with
  | char c => exact absurd rfl (hliteral c)
  | string | character => exact h

end Atom

namespace LiteralMode

/-- A text that can stand between double quotes does not end a string literal. -/
theorem closing?_stringBody {body : List Char} (h : Atom.IsStringBody body) (rest : List Char) :
    string.closing? (body ++ '"' :: rest) = some body.length := by
  fun_induction Atom.IsStringBody body with
  | case1 => rfl
  | case2 => exact h.elim
  | case3 c body ih => simp [closing?, step, ih h]
  | case4 c body hescape hescapes ih =>
    have hc : c ≠ '\\' := by
      rintro rfl
      cases body with
      | nil => exact hescape rfl rfl
      | cons d body => exact hescapes d body rfl rfl
    simp [closing?, step, hc, h.1, ih h.2]

end LiteralMode

/-- A literal ends with its last character. -/
theorem Atom.Whole.closing?_eq {a : Atom} (h : a.Whole) (hliteral : ∀ c, a ≠ .char c) :
    ∃ quote body k, a.text = quote :: body ∧ (quote = '"' ∨ quote = '\'') ∧ body.length = k + 1 ∧
      ∀ rest, (LiteralMode.outside.step quote).closing? (body ++ rest) = some k := by
  cases a with
  | char c => exact absurd rfl (hliteral c)
  | string body =>
    refine ⟨'"', body ++ ['"'], body.length, rfl, .inl rfl, by simp, fun rest => ?_⟩
    rw [List.append_assoc]
    exact LiteralMode.closing?_stringBody h rest
  | character body =>
    obtain ⟨c, hc, rfl⟩ | ⟨c, rfl⟩ := h
    · exact ⟨'\'', [c], 0, rfl, .inr rfl, rfl,
        fun rest => by simp [LiteralMode.step, LiteralMode.closing?, hc]⟩
    · exact ⟨'\'', ['\\', c], 1, rfl, .inr rfl, rfl,
        fun rest => by simp [LiteralMode.step, LiteralMode.closing?]⟩

/-- What was read of a literal is a whole one with the characters up to its end. -/
theorem Scan.Begun.exists_atom {mode : LiteralMode} {tail cs : List Char} {k : ℕ}
    (hbegun : Begun mode tail) (h : mode.closing? cs = some k) :
    ∃ a : Atom, a.Whole ∧ (∀ c, a ≠ .char c) ∧ a.text = tail ++ cs.take (k + 1) := by
  induction cs generalizing mode tail k with
  | nil => cases h
  | cons c cs ih =>
    rw [LiteralMode.closing?] at h
    have hnext := hbegun.step c
    by_cases hend : mode.step c = .outside
    · rw [if_pos hend] at h hnext
      obtain ⟨a, htext, hliteral, hfollows⟩ := hnext
      cases h
      exact ⟨a, Atom.whole_of_follows hliteral (hfollows []), hliteral, by simpa using htext⟩
    · rw [if_neg hend] at h hnext
      obtain ⟨k, hk, rfl⟩ := Option.map_eq_some_iff.mp h
      obtain ⟨a, ha, hliteral, htext⟩ := ih hnext hk
      exact ⟨a, ha, hliteral, by simpa using htext⟩

/-- A quote leads into a literal. -/
theorem LiteralMode.step_quote_ne {quote : Char} (h : quote = '"' ∨ quote = '\'') :
    outside.step quote ≠ outside := by
  rcases h with rfl | rfl <;> decide

/-- A quote starts a literal. -/
theorem Scan.begun_quote {quote : Char} (h : quote = '"' ∨ quote = '\'') :
    Begun (LiteralMode.outside.step quote) [quote] := by
  rcases h with rfl | rfl
  · exact ⟨[], rfl, trivial⟩
  · rfl

/-! ## Brackets in a run -/

/-- The brackets that count, with those that open and those that close. -/
structure Brackets where
  opening : List Char
  closing : List Char
  disjoint : ∀ c ∈ opening, c ∉ closing

namespace Brackets

/-- Square brackets only. -/
def square : Brackets := ⟨['['], [']'], by simp⟩

/-- How many brackets some atoms open. Those in literals do not count. -/
def opened (b : Brackets) (atoms : List Atom) : ℕ :=
  atoms.countP fun a => a ∈ b.opening.map .char

/-- How many brackets some atoms close. -/
def closed (b : Brackets) (atoms : List Atom) : ℕ :=
  atoms.countP fun a => a ∈ b.closing.map .char

/-- Whether some atoms, with a number of brackets open before them, never close more brackets than
are open and close all of them in the end. -/
structure Balanced (b : Brackets) (depth : ℕ) (atoms : List Atom) : Prop where
  closed_le : ∀ before, before <+: atoms → b.closed before ≤ depth + b.opened before
  closed_eq : b.closed atoms = depth + b.opened atoms

variable {b : Brackets} {depth : ℕ} {a : Atom} {atoms : List Atom} {c : Char}

/-- No atoms are balanced only if no bracket is open. -/
theorem balanced_nil_iff : b.Balanced depth [] ↔ depth = 0 := by
  constructor
  · intro h
    simpa [opened, closed] using h.closed_eq.symm
  · rintro rfl
    exact ⟨by simp [opened, closed], rfl⟩

/-- The brackets that atoms open are counted from the first one on. -/
theorem opened_cons (b : Brackets) (a : Atom) (atoms : List Atom) :
    b.opened (a :: atoms) = b.opened [a] + b.opened atoms := by
  rw [← List.singleton_append]
  exact List.countP_append

/-- The brackets that atoms close are counted from the first one on. -/
theorem closed_cons (b : Brackets) (a : Atom) (atoms : List Atom) :
    b.closed (a :: atoms) = b.closed [a] + b.closed atoms := by
  rw [← List.singleton_append]
  exact List.countP_append

/-- What the first atom does to the number of open brackets, it does to all that is behind it. -/
theorem balanced_cons_iff {depth' : ℕ} (h : depth' + b.closed [a] = depth + b.opened [a]) :
    b.Balanced depth (a :: atoms) ↔ b.Balanced depth' atoms := by
  constructor
  · intro hall
    refine ⟨fun before hbefore => ?_, ?_⟩
    · have hle := hall.closed_le (a :: before) ((List.prefix_cons_inj a).mpr hbefore)
      rw [opened_cons, closed_cons] at hle
      omega
    · have heq := hall.closed_eq
      rw [opened_cons, closed_cons] at heq
      omega
  · intro hrest
    refine ⟨fun before hbefore => ?_, ?_⟩
    · cases before with
      | nil => simp [closed]
      | cons x before =>
        obtain ⟨rfl, htail⟩ := List.cons_prefix_cons.mp hbefore
        have hle := hrest.closed_le before htail
        rw [opened_cons, closed_cons]
        omega
    · have heq := hrest.closed_eq
      rw [opened_cons, closed_cons]
      omega

/-- An opening bracket opens one and closes none. -/
theorem counts_opening (hc : c ∈ b.opening) : b.opened [.char c] = 1 ∧ b.closed [.char c] = 0 := by
  simp [opened, closed, hc, b.disjoint c hc]

/-- A closing bracket closes one and opens none. -/
theorem counts_closing (hc : c ∈ b.closing) : b.opened [.char c] = 0 ∧ b.closed [.char c] = 1 := by
  have hne : c ∉ b.opening := fun h => b.disjoint c h hc
  simp [opened, closed, hc, hne]

/-- Atoms behind an opening bracket have to close one bracket more. -/
theorem balanced_opening_iff (hc : c ∈ b.opening) :
    b.Balanced depth (.char c :: atoms) ↔ b.Balanced (depth + 1) atoms := by
  obtain ⟨hopened, hclosed⟩ := counts_opening hc
  exact balanced_cons_iff (by omega)

/-- Atoms behind a closing bracket have to close one bracket less. -/
theorem balanced_closing_iff (hc : c ∈ b.closing) :
    b.Balanced (depth + 1) (.char c :: atoms) ↔ b.Balanced depth atoms := by
  obtain ⟨hopened, hclosed⟩ := counts_closing hc
  exact balanced_cons_iff (by omega)

/-- A closing bracket needs one that is open. -/
theorem not_balanced_closing (hc : c ∈ b.closing) : ¬b.Balanced 0 (.char c :: atoms) := by
  intro h
  have hle := h.closed_le [.char c] ⟨atoms, rfl⟩
  obtain ⟨hopened, hclosed⟩ := counts_closing hc
  omega

/-- An atom that is no bracket opens and closes none. -/
theorem counts_other (ha : ∀ c, a = .char c → c ∉ b.opening ∧ c ∉ b.closing) :
    b.opened [a] = 0 ∧ b.closed [a] = 0 := by
  constructor
  · simpa [opened] using fun c hc h => (ha c h.symm).1 hc
  · simpa [closed] using fun c hc h => (ha c h.symm).2 hc

/-- An atom that is no bracket can be left out of the balance. -/
theorem balanced_other_iff (ha : ∀ c, a = .char c → c ∉ b.opening ∧ c ∉ b.closing) :
    b.Balanced depth (a :: atoms) ↔ b.Balanced depth atoms := by
  obtain ⟨hopened, hclosed⟩ := counts_other ha
  exact balanced_cons_iff (by omega)

end Brackets

/-! ## Searches -/

namespace Text

/-- Whether a search in a text looks at nothing behind the place that it finds. -/
def LooksNoFurther (search : List Char → Option ℕ) : Prop :=
  ∀ cs k, search cs = some k → k < cs.length ∧ ∀ ds, cs.take (k + 1) <+: ds → search ds = some k

/-- A search that takes one character at a time looks no further than it has to. -/
theorem looksNoFurther_of_cons {σ : Type} (search : σ → List Char → Option ℕ)
    (hnil : ∀ s, search s [] = none)
    (hcons : ∀ s c, (∀ cs, search s (c :: cs) = none) ∨ (∀ cs, search s (c :: cs) = some 0) ∨
      ∃ t, ∀ cs, search s (c :: cs) = (search t cs).map (· + 1)) (s : σ) :
    LooksNoFurther (search s) := by
  intro cs k h
  induction cs generalizing s k with
  | nil =>
    rw [hnil] at h
    cases h
  | cons c cs ih =>
    obtain hnone | hfound | ⟨t, hnext⟩ := hcons s c
    · rw [hnone] at h
      cases h
    · rw [hfound] at h
      cases h
      refine ⟨Nat.succ_pos _, fun ds hds => ?_⟩
      obtain ⟨rest, rfl⟩ := hds
      exact hfound rest
    · rw [hnext] at h
      obtain ⟨j, hj, rfl⟩ := Option.map_eq_some_iff.mp h
      obtain ⟨hlt, hstays⟩ := ih t j hj
      refine ⟨Nat.succ_lt_succ hlt, fun ds hds => ?_⟩
      obtain ⟨rest, rfl⟩ := hds
      rw [List.take_succ_cons, List.cons_append, hnext, hstays _ (List.prefix_append _ _)]
      rfl

/-- The search for the end of a literal looks at nothing behind it. -/
theorem looksNoFurther_closing? (mode : LiteralMode) : LooksNoFurther mode.closing? := by
  refine looksNoFurther_of_cons LiteralMode.closing? (fun _ => by simp [LiteralMode.closing?])
    (fun mode c => ?_) mode
  by_cases hend : mode.step c = .outside
  · exact .inr (.inl fun cs => by rw [LiteralMode.closing?, if_pos hend])
  · exact .inr (.inr ⟨mode.step c, fun cs => by rw [LiteralMode.closing?, if_neg hend]⟩)

/-- The search for a closing bracket looks at nothing behind it. -/
theorem looksNoFurther_bracketOffset? (n : Enclosure) :
    LooksNoFurther (bracketOffset? n.mode n.depth) := by
  refine looksNoFurther_of_cons (fun n : Enclosure => bracketOffset? n.mode n.depth)
    (fun n => by simp [bracketOffset?]) (fun n c => ?_) n
  by_cases hlast : n.mode = .outside ∧ c = ']' ∧ n.depth ≤ 1
  · by_cases hone : n.depth = 1
    · exact .inr (.inl fun cs => by rw [bracketOffset?_cons_eq, if_pos hlast, if_pos hone])
    · exact .inl fun cs => by rw [bracketOffset?_cons_eq, if_pos hlast, if_neg hone]
  · exact .inr (.inr ⟨n.read c, fun cs => by rw [bracketOffset?_cons_eq, if_neg hlast]⟩)

/-- The end of a span that starts at `i` is found at `j` in a text, at its last character if the
span is cut out, and at `j` in every longer text. -/
structure FoundAgain (search : List Char → ℕ → Option ℕ) (cs : List Char) (i j : ℕ) : Prop where
  le : i ≤ j
  lt_length : j < cs.length
  alone : search (cs.extract i (j + 1)) 0 = some ((cs.extract i (j + 1)).length - 1)
  longer : ∀ ds, cs <+: ds → search ds i = some j

/-- A search that looks no further finds the end of a span again. -/
theorem LooksNoFurther.foundAgain {offset : List Char → Option ℕ} (hoffset : LooksNoFurther offset)
    {search : List Char → ℕ → Option ℕ} (skip : ℕ)
    (hsearch : ∀ cs i, search cs i = (offset (cs.drop (i + skip))).map (· + (i + skip)))
    {cs : List Char} {i j : ℕ} (h : search cs i = some j) : FoundAgain search cs i j := by
  rw [hsearch] at h
  obtain ⟨k, hk, rfl⟩ := Option.map_eq_some_iff.mp h
  obtain ⟨hlt, hstays⟩ := hoffset _ _ hk
  rw [List.length_drop] at hlt
  refine ⟨by omega, by omega, ?_, fun ds hds => ?_⟩
  · have hcount : k + (i + skip) + 1 - i - skip = k + 1 := by omega
    have hslice : (cs.extract i (k + (i + skip) + 1)).drop (0 + skip) =
        (cs.drop (i + skip)).take (k + 1) := by
      rw [List.extract_eq_take_drop, List.drop_take, List.drop_drop, Nat.zero_add, hcount]
    have hlength : (cs.extract i (k + (i + skip) + 1)).length - 1 = k + (0 + skip) := by
      rw [List.extract_eq_take_drop, List.length_take, List.length_drop]
      omega
    rw [hsearch, hslice, hstays _ List.prefix_rfl, Option.map_some, hlength]
  · have hrest := (List.take_prefix (k + 1) (cs.drop (i + skip))).trans (hds.drop (i + skip))
    rw [hsearch, hstays _ hrest, Option.map_some]

/-! ## Between brackets -/

variable {mode : LiteralMode} {depth k : ℕ} {cs : List Char} {atoms : List Atom}

/-- The search for the end of a bracket passes over the rest of a literal. -/
theorem bracketOffset?_literal (hmode : mode ≠ .outside) (depth : ℕ) (cs : List Char) :
    bracketOffset? mode depth cs = (mode.closing? cs).bind fun m =>
      (bracketOffset? .outside depth (cs.drop (m + 1))).map (· + (m + 1)) := by
  induction cs generalizing mode with
  | nil => simp [bracketOffset?, LiteralMode.closing?]
  | cons c cs ih =>
    rw [bracketOffset?, LiteralMode.closing?]
    · by_cases hend : mode.step c = .outside
      · simp [hend]
      · rw [if_neg hend, ih hend]
        cases (mode.step c).closing? cs with
        | none => rfl
        | some m => simp [Function.comp_def, Nat.add_assoc]
    · exact hmode

/-- From a quote on, it goes on behind the literal. -/
theorem bracketOffset?_quote {quote : Char} (h : quote = '"' ∨ quote = '\'') (depth : ℕ)
    (cs : List Char) :
    bracketOffset? .outside depth (quote :: cs) =
      ((LiteralMode.outside.step quote).closing? cs).bind fun m =>
        (bracketOffset? .outside depth (cs.drop (m + 1))).map (· + (m + 2)) := by
  have hstep : bracketOffset? .outside depth (quote :: cs) =
      (bracketOffset? (LiteralMode.outside.step quote) depth cs).map (· + 1) := by
    rcases h with rfl | rfl <;> rfl
  rw [hstep, bracketOffset?_literal (LiteralMode.step_quote_ne h)]
  cases (LiteralMode.outside.step quote).closing? cs with
  | none => rfl
  | some m => simp [Function.comp_def, Nat.add_assoc]

/-- An atom leads on to the brackets that are open behind it, unless it is the end itself. -/
theorem bracketOffset?_atom {a : Atom} (ha : a.Whole) (h : ¬(a = .char ']' ∧ depth = 0)) :
    ∃ depth', depth' + Brackets.square.closed [a] = depth + Brackets.square.opened [a] ∧
      ∀ rest, bracketOffset? .outside (depth + 1) (a.text ++ rest) =
        (bracketOffset? .outside (depth' + 1) rest).map (· + a.text.length) := by
  by_cases hchar : ∃ c, a = .char c
  · obtain ⟨c, rfl⟩ := hchar
    obtain ⟨hdouble, hsingle⟩ := ha
    by_cases hopen : c = '['
    · subst hopen
      exact ⟨depth + 1, rfl, fun rest => by simp [Atom.text, bracketOffset?]⟩
    by_cases hclose : c = ']'
    · subst hclose
      obtain ⟨depth, rfl⟩ := Nat.exists_eq_succ_of_ne_zero fun hzero => h ⟨rfl, hzero⟩
      exact ⟨depth, rfl, fun rest => by simp [Atom.text, bracketOffset?]⟩
    · obtain ⟨hopened, hclosed⟩ : Brackets.square.opened [.char c] = 0 ∧
          Brackets.square.closed [.char c] = 0 := by
        refine Brackets.counts_other fun d hd => ?_
        cases hd
        simp [Brackets.square, hopen, hclose]
      refine ⟨depth, by omega, fun rest => ?_⟩
      simp [Atom.text, bracketOffset?, hopen, hclose, LiteralMode.step, hdouble, hsingle]
  · have hliteral : ∀ c, a ≠ .char c := fun c hc => hchar ⟨c, hc⟩
    obtain ⟨hopened, hclosed⟩ : Brackets.square.opened [a] = 0 ∧ Brackets.square.closed [a] = 0 :=
      Brackets.counts_other fun c hc => absurd hc (hliteral c)
    obtain ⟨quote, body, m, htext, hquote, hbody, hclosing⟩ := ha.closing?_eq hliteral
    refine ⟨depth, by omega, fun rest => ?_⟩
    rw [htext, List.cons_append, bracketOffset?_quote hquote, hclosing, Option.bind_some, ← hbody,
      List.drop_left, List.length_cons, hbody]

/-- The search for the end of a bracket comes to an atom first. -/
theorem exists_atom_of_bracketOffset? (h : bracketOffset? .outside (depth + 1) cs = some k) :
    ∃ (a : Atom) (rest : List Char), a.Whole ∧ cs = a.text ++ rest := by
  cases cs with
  | nil => cases h
  | cons c cs =>
    by_cases hquote : c = '"' ∨ c = '\''
    · rw [bracketOffset?_quote hquote] at h
      obtain ⟨m, hm, _⟩ := Option.bind_eq_some_iff.mp h
      obtain ⟨a, ha, _, htext⟩ := (Scan.begun_quote hquote).exists_atom hm
      refine ⟨a, cs.drop (m + 1), ha, ?_⟩
      rw [htext, List.append_assoc, List.take_append_drop]
      rfl
    · exact ⟨.char c, cs, not_or.mp hquote, rfl⟩

/-- Up to the end of a bracket there is a run of atoms that closes all other brackets. -/
theorem exists_atoms_of_bracketOffset? (h : bracketOffset? .outside (depth + 1) cs = some k) :
    ∃ atoms, Atom.MakeUp atoms (cs.take k) ∧ Brackets.square.Balanced depth atoms := by
  induction hlength : cs.length using Nat.strong_induction_on generalizing cs depth k with
  | _ length ih =>
    -- The search goes on behind the first atom, in as many brackets as are open there.
    obtain ⟨a, rest, ha, rfl⟩ := exists_atom_of_bracketOffset? h
    by_cases hlast : a = .char ']' ∧ depth = 0
    · obtain ⟨rfl, rfl⟩ := hlast
      cases h
      exact ⟨[], .nil, Brackets.balanced_nil_iff.mpr rfl⟩
    · obtain ⟨depth', hnext, hatom⟩ := bracketOffset?_atom ha hlast
      rw [hatom] at h
      obtain ⟨j, hj, rfl⟩ := Option.map_eq_some_iff.mp h
      have hshorter : rest.length < length := by
        rw [← hlength, List.length_append]
        exact Nat.lt_add_of_pos_left (List.length_pos_iff.mpr a.text_ne_nil)
      obtain ⟨atoms, hmake, hbalanced⟩ := ih _ hshorter hj rfl
      refine ⟨a :: atoms, ?_, (Brackets.balanced_cons_iff hnext).mpr hbalanced⟩
      rw [Nat.add_comm j, List.take_length_add_append]
      exact hmake.cons ha

/-- A run of atoms that closes all other brackets leads to the end of a bracket. -/
theorem bracketOffset?_of_balanced (hwhole : ∀ a ∈ atoms, a.Whole)
    (h : Brackets.square.Balanced depth atoms) (rest : List Char) :
    bracketOffset? .outside (depth + 1) (atoms.flatMap Atom.text ++ ']' :: rest) =
      some (atoms.flatMap Atom.text).length := by
  induction atoms generalizing depth with
  | nil =>
    obtain rfl := Brackets.balanced_nil_iff.mp h
    rfl
  | cons a atoms ih =>
    obtain ⟨ha, hatoms⟩ := List.forall_mem_cons.mp hwhole
    have hlast : ¬(a = .char ']' ∧ depth = 0) := by
      rintro ⟨rfl, rfl⟩
      exact Brackets.not_balanced_closing (by simp [Brackets.square]) h
    obtain ⟨depth', hnext, hatom⟩ := bracketOffset?_atom ha hlast
    rw [List.flatMap_cons, List.append_assoc, hatom,
      ih hatoms ((Brackets.balanced_cons_iff hnext).mp h), List.length_append, Option.map_some,
      Nat.add_comm]

/-- Between a square bracket and its partner there is a run of atoms with balanced brackets. -/
theorem exists_atoms_of_matchingBracket? {i j : ℕ} (h : matchingBracket? cs i = some j)
    (hopen : cs[i]? = some '[') :
    ∃ atoms, Atom.MakeUp atoms (cs.extract (i + 1) j) ∧ Brackets.square.Balanced 0 atoms := by
  obtain ⟨hi, hget⟩ := List.getElem?_eq_some_iff.mp hopen
  rw [matchingBracket?, List.drop_eq_getElem_cons hi, hget] at h
  obtain ⟨_, hrest, rfl⟩ := Option.map_eq_some_iff.mp h
  obtain ⟨k, hk, rfl⟩ := Option.map_eq_some_iff.mp hrest
  have hcount : k + 1 + i - (i + 1) = k := by omega
  rw [List.extract_eq_take_drop, hcount]
  exact exists_atoms_of_bracketOffset? hk

/-- The end of a literal or of a bracket that is found from a place on in a text is found again in
the span that is cut out, at its last character, and in all longer texts. What stands in a bracket
is a run of atoms that at no point closes more square brackets than it has opened, and in the end as
many. -/
theorem ends_are_found_again (cs : List Char) (i j : ℕ) :
    (stringEnd? cs i = some j → FoundAgain stringEnd? cs i j) ∧
      (characterEnd? cs i = some j → FoundAgain characterEnd? cs i j) ∧
      (matchingBracket? cs i = some j → FoundAgain matchingBracket? cs i j ∧
        (cs[i]? = some '[' → ∃ atoms, Atom.MakeUp atoms (cs.extract (i + 1) j) ∧
          Brackets.square.Balanced 0 atoms)) := by
  refine ⟨fun h => ?_, fun h => ?_, fun h => ⟨?_, exists_atoms_of_matchingBracket? h⟩⟩
  · exact (looksNoFurther_closing? .string).foundAgain 1 (fun _ _ => rfl) h
  · exact (looksNoFurther_closing? .character).foundAgain 1 (fun _ _ => rfl) h
  · exact (looksNoFurther_bracketOffset? .top).foundAgain 0 (fun _ _ => rfl) h

/-- In `["]"+'[]` neither the bracket in the string literal nor the one in the character literal
counts. -/
theorem ends_are_found_again_mixed :
    let cs := ['[', '"', ']', '"', '+', '\'', '[', ']']
    (stringEnd? cs 1 = some 3 ∧ FoundAgain stringEnd? cs 1 3) ∧
      (characterEnd? cs 5 = some 6 ∧ FoundAgain characterEnd? cs 5 6) ∧
      matchingBracket? cs 0 = some 7 ∧ FoundAgain matchingBracket? cs 0 7 ∧ cs[0]? = some '[' ∧
      ∃ atoms, Atom.MakeUp atoms (cs.extract 1 7) ∧ Brackets.square.Balanced 0 atoms := by
  intro cs
  have hstring : stringEnd? cs 1 = some 3 := by decide
  have hcharacter : characterEnd? cs 5 = some 6 := by decide
  have hbracket : matchingBracket? cs 0 = some 7 := by decide
  obtain ⟨hfound, hatoms⟩ := (ends_are_found_again cs 0 7).2.2 hbracket
  exact ⟨⟨hstring, (ends_are_found_again cs 1 3).1 hstring⟩,
    ⟨hcharacter, (ends_are_found_again cs 5 6).2.1 hcharacter⟩, hbracket, hfound, rfl, hatoms rfl⟩

end Text

end Logo
