import Logo.Token.Basic
import Mathlib.Data.List.Destutter
import Mathlib.Data.List.DropRight
import Mathlib.Data.Prod.Lex

/-!
# The layout of a program text

A program text is made up of pieces that follow each other without a gap: words, block delimiters,
separators, blanks and comments. A word is a run of atoms, which are single characters and whole
literals. The characters that end words elsewhere are part of a word where a parenthesis or square
bracket is open. The tokens of a text are those of its pieces, each at the place of its first
character, without the separators that follow another one and without the one at the end.
-/

namespace Logo

/-! ## Places -/

namespace Position

/-- Places are ordered by their lines, and on a line by their columns. -/
instance : PartialOrder Position :=
  PartialOrder.lift (fun p => toLex (p.line, p.column)) fun p q h => by
    obtain ⟨hline, hcolumn⟩ := Prod.mk.inj (toLex_inj.mp h)
    cases p
    cases q
    simp_all

/-- Places are in the order of their lines, and of their columns on one line. -/
theorem lt_iff {p q : Position} :
    p < q ↔ p.line < q.line ∨ p.line = q.line ∧ p.column < q.column :=
  Prod.Lex.toLex_lt_toLex

/-- The place after a character comes later. -/
theorem lt_after (p : Position) (c : Char) : p < p.after c := by
  rw [lt_iff, after]
  split
  · exact .inl (Nat.lt_succ_self _)
  · exact .inr ⟨rfl, Nat.lt_succ_self _⟩

/-- The place after a text that starts at `p`. -/
def advance (p : Position) (text : List Char) : Position := text.foldl after p

/-- No text leads to the same place. -/
@[simp] theorem advance_nil (p : Position) : p.advance [] = p := rfl

/-- The place after a text is the one after the rest, from behind its first character on. -/
@[simp] theorem advance_cons (p : Position) (c : Char) (text : List Char) :
    p.advance (c :: text) = (p.after c).advance text := rfl

/-- The place after two texts in a row is the one after the second, from behind the first. -/
@[simp] theorem advance_append (p : Position) (text rest : List Char) :
    p.advance (text ++ rest) = (p.advance text).advance rest :=
  List.foldl_append

/-- The place after a text does not come earlier. -/
theorem le_advance (p : Position) (text : List Char) : p ≤ p.advance text := by
  induction text generalizing p with
  | nil => exact le_refl p
  | cons c text ih => exact le_trans (le_of_lt (p.lt_after c)) (ih (p.after c))

/-- The place after a text that is not empty comes later. -/
theorem lt_advance (p : Position) {text : List Char} (h : text ≠ []) : p < p.advance text := by
  cases text with
  | nil => exact absurd rfl h
  | cons c text => exact lt_of_lt_of_le (p.lt_after c) (le_advance _ text)

end Position

/-! ## Words -/

/-- A part of a word. -/
inductive Atom where
  /-- A character that is not part of a literal. -/
  | char (c : Char)
  /-- A string literal, with what stands between its quotes. -/
  | string (body : List Char)
  /-- A character literal, with what stands after its apostrophe. -/
  | character (body : List Char)
deriving DecidableEq

namespace Atom

/-- The characters of an atom. -/
def text : Atom → List Char
  | char c => [c]
  | string body => '"' :: (body ++ ['"'])
  | character body => '\'' :: body

/-- Whether a text can stand between double quotes: a double quote stands only after a backslash
that escapes it, and a backslash always escapes the character after it. -/
def IsStringBody : List Char → Prop
  | [] => True
  | ['\\'] => False
  | '\\' :: _ :: rest => IsStringBody rest
  | c :: rest => c ≠ '"' ∧ IsStringBody rest

/-- Two texts that can stand between double quotes can stand there one after the other. -/
theorem IsStringBody.append {body rest : List Char} (h : IsStringBody body)
    (hrest : IsStringBody rest) : IsStringBody (body ++ rest) := by
  fun_induction IsStringBody body with
  | case1 => exact hrest
  | case2 => exact h.elim
  | case3 c body ih => exact ih h
  | case4 c body hescape hescapes ih =>
    have hc : c ≠ '\\' := by
      rintro rfl
      cases body with
      | nil => exact hescape rfl rfl
      | cons d body => exact hescapes d body rfl rfl
    rw [List.cons_append, IsStringBody]
    · exact ⟨h.1, ih h.2⟩
    · exact fun hc' => absurd hc' hc
    · exact fun _ _ hc' => absurd hc' hc

/-- Whether a parenthesis or square bracket is open after some atoms. The two kinds of brackets are
counted apart. -/
def Grouped (atoms : List Atom) : Prop :=
  atoms.count (char ')') < atoms.count (char '(') ∨ atoms.count (char ']') < atoms.count (char '[')

/-- Whether so many parentheses and square brackets are open after some atoms. -/
def Depth (atoms : List Atom) (parens brackets : ℕ) : Prop :=
  parens + atoms.count (char ')') = atoms.count (char '(') ∧
    brackets + atoms.count (char ']') = atoms.count (char '[')

namespace Depth

variable {atoms : List Atom} {parens brackets : ℕ}

/-- After no atoms nothing is open. -/
theorem nil : Depth [] 0 0 := ⟨rfl, rfl⟩

/-- A group is open exactly if a parenthesis or a square bracket is. -/
theorem grouped_iff (h : Depth atoms parens brackets) :
    Grouped atoms ↔ 0 < parens ∨ 0 < brackets := by
  obtain ⟨hparens, hbrackets⟩ := h
  rw [Grouped]
  omega

/-- One more atom changes the open brackets by its own. -/
theorem snoc (h : Depth atoms parens brackets) {a : Atom} {parens' brackets' : ℕ}
    (hparens : parens' + [a].count (char ')') = parens + [a].count (char '('))
    (hbrackets : brackets' + [a].count (char ']') = brackets + [a].count (char '[')) :
    Depth (atoms ++ [a]) parens' brackets' := by
  obtain ⟨hparens', hbrackets'⟩ := h
  simp only [Depth, List.count_append]
  omega

/-- An atom that is no bracket leaves the groups as they are. -/
theorem snoc_of_not_mem (h : Depth atoms parens brackets) {a : Atom}
    (ha : a ∉ [char '(', char ')', char '[', char ']']) : Depth (atoms ++ [a]) parens brackets := by
  simp only [List.mem_cons, List.not_mem_nil, or_false, not_or] at ha
  obtain ⟨hopenParen, hcloseParen, hopenBracket, hcloseBracket⟩ := ha
  refine h.snoc ?_ ?_
  · simp [hopenParen, hcloseParen]
  · simp [hopenBracket, hcloseBracket]

end Depth

/-- Whether an atom can follow others in a word. Blanks and curly brackets need an open group, and a
closing bracket needs one that it can close. A line feed, a semicolon or a `#` is never part of a
word, other than in a literal. -/
def Follows (before : List Atom) : Atom → Prop
  | char c => c ∉ ['"', '\'', '\n', ';', '#'] ∧
      (c ∈ [' ', '\t', '\r', '\x7b', '\x7d'] → Grouped before) ∧
      (c = ')' → before.count (char ')') < before.count (char '(')) ∧
      (c = ']' → before.count (char ']') < before.count (char '['))
  | string body => IsStringBody body
  | character body => (∃ c, c ≠ '\\' ∧ body = [c]) ∨ ∃ c, body = ['\\', c]

/-- A bracket follows a word if the brackets are in order behind it. -/
theorem Depth.follows {atoms : List Atom} {parens brackets : ℕ} {c : Char}
    (h : Depth (atoms ++ [char c]) parens brackets) (hc : c ∈ ['(', ')', '[', ']']) :
    (char c).Follows atoms := by
  obtain ⟨hparens, hbrackets⟩ := h
  rw [List.count_append, List.count_append] at hparens hbrackets
  simp only [List.mem_cons, List.not_mem_nil, or_false] at hc
  refine ⟨?_, ?_, ?_, ?_⟩
  · rcases hc with rfl | rfl | rfl | rfl <;> decide
  · rcases hc with rfl | rfl | rfl | rfl <;> exact fun hblank => absurd hblank (by decide)
  · rintro rfl
    have hone : [char ')'].count (char ')') = 1 ∧ [char ')'].count (char '(') = 0 := by decide
    omega
  · rintro rfl
    have hone : [char ']'].count (char ']') = 1 ∧ [char ']'].count (char '[') = 0 := by decide
    omega

end Atom

/-- Whether each atom can follow those before it. -/
def Spelled (word : List Atom) : Prop :=
  ∀ before a after, word = before ++ a :: after → a.Follows before

namespace Spelled

/-- No atoms are spelled as they should be. -/
theorem nil : Spelled [] := by
  intro before a after h
  simp at h

/-- A word can be spelled out atom by atom. -/
theorem snoc {word : List Atom} (h : Spelled word) {a : Atom} (ha : a.Follows word) :
    Spelled (word ++ [a]) := by
  intro before b after hword
  rcases List.eq_nil_or_concat after with rfl | ⟨init, last, rfl⟩
  · obtain ⟨rfl, hb⟩ := List.append_inj' hword rfl
    cases hb
    exact ha
  · have hsplit : word ++ [a] = (before ++ b :: init) ++ [last] := by simpa using hword
    exact h before b init (List.append_inj' hsplit rfl).1

end Spelled

/-! ## Pieces -/

/-- A piece of a program text. -/
inductive Piece where
  /-- A word, with the start of a character literal that the end of the text cuts off. -/
  | word (atoms : List Atom) (cut : List Char)
  | blockOpen
  | blockClose
  | separator (c : Char)
  | blank (c : Char)
  /-- A comment, with what stands after its `#`. -/
  | comment (body : List Char)
deriving DecidableEq

namespace Piece

/-- The characters of a piece. -/
def text : Piece → List Char
  | word atoms cut => atoms.flatMap Atom.text ++ cut
  | blockOpen => ['\x7b']
  | blockClose => ['\x7d']
  | separator c | blank c => [c]
  | comment body => '#' :: body

/-- What token a piece is. Blanks and comments are none. -/
def kind? : Piece → Option TokenKind
  | word atoms cut => some (.word (String.ofList (text (word atoms cut))))
  | blockOpen => some .blockOpen
  | blockClose => some .blockClose
  | separator _ => some .separator
  | blank _ | comment _ => none

/-- Whether a piece has the form of its kind. The groups of a word are closed. -/
def Fits : Piece → Prop
  | word atoms cut => Spelled atoms ∧ ¬Atom.Grouped atoms ∧ cut ∈ [[], ['\''], ['\'', '\\']] ∧
      text (word atoms cut) ≠ []
  | blockOpen | blockClose => True
  | separator c => c ∈ ['\n', ';']
  | blank c => c ∈ [' ', '\t', '\r']
  | comment body => '\n' ∉ body

/-- Whether a piece can stand right before another one. A word goes on as long as it can, and a
comment up to the end of its line. Only at the end of the text a literal is cut off. -/
def Precedes : Piece → Piece → Prop
  | word _ cut, p => cut = [] ∧ ∀ atoms cut, p ≠ word atoms cut
  | comment _, p => p = separator '\n'
  | _, _ => True

/-- What a comment says makes no difference to what can stand before it. -/
theorem Precedes.comment {q : Piece} {body : List Char} (h : q.Precedes (.comment body))
    (body' : List Char) : q.Precedes (.comment body') := by
  cases q with
  | word atoms cut => exact ⟨h.1, by simp⟩
  | comment => cases h
  | blockOpen | blockClose | separator | blank => trivial

/-- The tokens of pieces that stand one after the other from a place on. -/
def tokens (p : Position) : List Piece → List Token
  | [] => []
  | piece :: rest => (piece.kind?.map (⟨·, p⟩)).toList ++ tokens (p.advance piece.text) rest

end Piece

/-- Whether pieces can make up a program text. -/
structure Layout (pieces : List Piece) : Prop where
  fits : ∀ piece ∈ pieces, piece.Fits
  precedes : pieces.IsChain Piece.Precedes

/-- No pieces make up the empty text. -/
theorem Layout.nil : Layout [] := ⟨by simp, .nil⟩

/-- A piece can be added at the end if it fits and the last one can stand right before it. -/
theorem Layout.snoc {pieces : List Piece} (h : Layout pieces) {piece : Piece} (hfits : piece.Fits)
    (hlast : ∀ q ∈ pieces.getLast?, q.Precedes piece) : Layout (pieces ++ [piece]) where
  fits := by
    intro q hq
    rcases List.mem_append.mp hq with hq | hq
    · exact h.fits q hq
    · rw [List.mem_singleton.mp hq]
      exact hfits
  precedes := List.isChain_append.mpr ⟨h.precedes, .singleton piece, by simpa using hlast⟩

/-- The last piece of a layout can stand after the ones before it. -/
theorem Layout.of_snoc {pieces : List Piece} {piece : Piece} (h : Layout (pieces ++ [piece])) :
    Layout pieces ∧ ∀ q ∈ pieces.getLast?, q.Precedes piece := by
  obtain ⟨hchain, _, hlast⟩ := List.isChain_append.mp h.precedes
  refine ⟨⟨fun q hq => h.fits q (List.mem_append_left _ hq), hchain⟩, ?_⟩
  simpa using hlast

/-- Whether a separator does not follow another one. -/
def Token.Apart (t u : Token) : Prop := ¬(t.kind = .separator ∧ u.kind = .separator)

instance : DecidableRel Token.Apart := fun t u =>
  inferInstanceAs (Decidable (¬(t.kind = .separator ∧ u.kind = .separator)))

/-- Tokens without the separators that follow another one, and without those at the end. -/
def Token.condense (tokens : List Token) : List Token :=
  (tokens.destutter Apart).rdropWhile (·.kind = .separator)

/-! ## The tokens of a layout -/

namespace Piece

/-- The tokens of two rows of pieces are those of the first, and those of the second from behind it
on. -/
theorem tokens_append (p : Position) (pieces rest : List Piece) :
    tokens p (pieces ++ rest) =
      tokens p pieces ++ tokens (p.advance (pieces.flatMap text)) rest := by
  induction pieces generalizing p with
  | nil => rfl
  | cons piece pieces ih => simp [tokens, ih]

/-- A piece that is no token adds none. -/
theorem tokens_concat_of_none {piece : Piece} (h : piece.kind? = none) (p : Position)
    (pieces : List Piece) : tokens p (pieces ++ [piece]) = tokens p pieces := by
  simp [tokens_append, tokens, h]

/-- A piece that is a token adds it, at its own place. -/
theorem tokens_concat_of_some {piece : Piece} {kind : TokenKind} (h : piece.kind? = some kind)
    (p : Position) (pieces : List Piece) :
    tokens p (pieces ++ [piece]) =
      tokens p pieces ++ [⟨kind, p.advance (pieces.flatMap text)⟩] := by
  simp [tokens_append, tokens, h]

/-- A token of a layout is that of a piece, at the place of this piece. -/
theorem exists_of_mem_tokens {p : Position} {pieces : List Piece} {t : Token}
    (h : t ∈ tokens p pieces) :
    ∃ before piece after, pieces = before ++ piece :: after ∧ piece.kind? = some t.kind ∧
      t.pos = p.advance (before.flatMap text) := by
  induction pieces generalizing p with
  | nil => simp [tokens] at h
  | cons piece pieces ih =>
    rcases List.mem_append.mp h with hfirst | hrest
    · obtain ⟨kind, hkind, rfl⟩ : ∃ kind, piece.kind? = some kind ∧ ⟨kind, p⟩ = t := by
        simpa using hfirst
      exact ⟨[], piece, pieces, rfl, hkind, rfl⟩
    · obtain ⟨before, found, after, rfl, hkind, hpos⟩ := ih hrest
      exact ⟨piece :: before, found, after, rfl, hkind, by simpa using hpos⟩

/-- No piece is empty. -/
theorem Fits.text_ne_nil {piece : Piece} (h : piece.Fits) : piece.text ≠ [] := by
  cases piece with
  | word atoms cut => exact h.2.2.2
  | blockOpen | blockClose | separator | blank | comment => simp [text]

/-- The token of a piece has the text of the piece, unless it is a separator. -/
theorem toList_value {piece : Piece} {kind : TokenKind} (h : piece.kind? = some kind)
    (hkind : kind ≠ .separator) : kind.value.toList = piece.text := by
  cases piece with
  | word atoms cut =>
    cases h
    simp [TokenKind.value]
  | blockOpen | blockClose =>
    cases h
    rfl
  | separator c =>
    cases h
    exact absurd rfl hkind
  | blank | comment => cases h

/-- The tokens of pieces stand in order, and none begins before the one before it has come to its
end. -/
theorem pairwise_tokens {pieces : List Piece} (h : ∀ piece ∈ pieces, piece.Fits) (p : Position) :
    (tokens p pieces).Pairwise fun t u =>
      t.pos < u.pos ∧ (t.kind ≠ .separator → t.pos.advance t.value.toList ≤ u.pos) := by
  induction pieces generalizing p with
  | nil => exact .nil
  | cons piece pieces ih =>
    obtain ⟨hpiece, hpieces⟩ := List.forall_mem_cons.mp h
    refine List.pairwise_append.mpr ⟨?_, ih hpieces _, fun t ht u hu => ?_⟩
    · cases piece.kind? with
      | none => exact .nil
      | some kind => exact List.pairwise_singleton _ _
    · obtain ⟨kind, hkind, rfl⟩ : ∃ kind, piece.kind? = some kind ∧ ⟨kind, p⟩ = t := by
        simpa using ht
      obtain ⟨before, _, _, _, _, hpos⟩ := exists_of_mem_tokens hu
      have hle : p.advance piece.text ≤ u.pos := hpos ▸ Position.le_advance _ _
      refine ⟨lt_of_lt_of_le (p.lt_advance hpiece.text_ne_nil) hle, fun hne => ?_⟩
      have hvalue : kind.value.toList = piece.text := toList_value hkind hne
      exact le_of_eq_of_le (congrArg p.advance hvalue) hle

/-- A word begins with a character that neither separates statements nor delimits blocks. -/
theorem Fits.exists_head {atoms : List Atom} {cut : List Char} (h : (word atoms cut).Fits) :
    ∃ c rest, (word atoms cut).text = c :: rest ∧ c ∉ ['\x7b', '\x7d', '\n'] := by
  obtain ⟨hspelled, _, hcut, hne⟩ := h
  cases atoms with
  | nil =>
    simp only [List.mem_cons, List.not_mem_nil, or_false] at hcut
    rcases hcut with rfl | rfl | rfl
    · exact absurd rfl hne
    · exact ⟨'\'', [], rfl, by decide⟩
    · exact ⟨'\'', ['\\'], rfl, by decide⟩
  | cons a atoms =>
    have ha := hspelled [] a atoms rfl
    cases a with
    | char c =>
      obtain ⟨hc, hgrouped, _⟩ := ha
      refine ⟨c, atoms.flatMap Atom.text ++ cut, rfl, fun hmem => ?_⟩
      have hnone : ¬Atom.Grouped [] := by simp [Atom.Grouped]
      simp only [List.mem_cons, List.not_mem_nil, or_false] at hmem
      rcases hmem with rfl | rfl | rfl
      · exact hnone (hgrouped (by decide))
      · exact hnone (hgrouped (by decide))
      · exact hc (by decide)
    | string body => exact ⟨'"', _, rfl, by decide⟩
    | character body => exact ⟨'\'', _, rfl, by decide⟩

/-- A word is not empty, and it cannot be taken for a delimiter or a separator. -/
theorem Fits.not_mem_of_word {piece : Piece} {text : String} (h : piece.Fits)
    (hkind : piece.kind? = some (.word text)) : text ∉ ["", "\x7b", "\x7d", "\n"] := by
  cases piece with
  | word atoms cut =>
    obtain ⟨c, rest, htext, hc⟩ := h.exists_head
    have hlist : text.toList = c :: rest := by rw [← htext, ← toList_value hkind (by simp)]; rfl
    intro hmem
    have hmem' : text.toList ∈ [[], ['\x7b'], ['\x7d'], ['\n']] :=
      List.mem_map_of_mem (f := String.toList) hmem
    rw [hlist] at hmem'
    refine hc ?_
    simp only [List.mem_cons, List.not_mem_nil, or_false, List.cons.injEq, reduceCtorEq,
      false_or] at hmem' ⊢
    exact hmem'.imp And.left (Or.imp And.left And.left)
  | blockOpen | blockClose | separator | blank | comment => cases hkind

end Piece

namespace Token

/-- Of tokens that come one by one, a separator is dropped if the last one that was kept is one. -/
theorem exists_destutter'_concat (first : Token) (tokens : List Token) (t : Token) :
    ∃ kept last, tokens.destutter' Apart first = kept ++ [last] ∧
      (tokens ++ [t]).destutter' Apart first =
        kept ++ [last] ++ if last.Apart t then [t] else [] := by
  induction tokens generalizing first with
  | nil =>
    refine ⟨[], first, rfl, ?_⟩
    rw [List.nil_append, List.destutter'_singleton]
    split
    · rfl
    · rfl
  | cons u tokens ih =>
    rw [List.cons_append, List.destutter'_cons, List.destutter'_cons]
    split
    · obtain ⟨kept, last, hkept, hconcat⟩ := ih u
      exact ⟨first :: kept, last, by simp [hkept], by simp [hconcat]⟩
    · exact ih first

/-- A token that is apart from the last one is kept. -/
theorem destutter_concat_of_apart {tokens : List Token} {t : Token}
    (h : ∀ u ∈ (tokens.destutter Apart).getLast?, u.Apart t) :
    (tokens ++ [t]).destutter Apart = tokens.destutter Apart ++ [t] := by
  cases tokens with
  | nil => rfl
  | cons first tokens =>
    obtain ⟨kept, last, hkept, hconcat⟩ := exists_destutter'_concat first tokens t
    rw [List.destutter_cons', hkept] at h ⊢
    rw [List.cons_append, List.destutter_cons', hconcat, if_pos (h last (by simp))]

/-- A separator that follows another one is dropped. -/
theorem destutter_concat_of_not_apart {tokens : List Token} {t u : Token}
    (hu : u ∈ (tokens.destutter Apart).getLast?) (h : ¬u.Apart t) :
    (tokens ++ [t]).destutter Apart = tokens.destutter Apart := by
  cases tokens with
  | nil => simp at hu
  | cons first tokens =>
    obtain ⟨kept, last, hkept, hconcat⟩ := exists_destutter'_concat first tokens t
    rw [List.destutter_cons', hkept] at hu ⊢
    obtain rfl : last = u := by simpa using hu
    rw [List.cons_append, List.destutter_cons', hconcat, if_neg h, List.append_nil]

/-- What is dropped at last stands at the end. -/
theorem exists_destutter_eq_condense_append (tokens : List Token) :
    ∃ dropped, tokens.destutter Apart = condense tokens ++ dropped :=
  ⟨_, List.rdropWhile_append_rtakeWhile.symm⟩

/-- Condensing only drops tokens. -/
theorem condense_sublist (tokens : List Token) : (condense tokens).Sublist tokens := by
  obtain ⟨dropped, hdropped⟩ := exists_destutter_eq_condense_append tokens
  have hkept : (condense tokens).Sublist (tokens.destutter Apart) :=
    hdropped ▸ List.sublist_append_left _ _
  exact hkept.trans (List.destutter_sublist Apart tokens)

/-- Condensed tokens have no separator that follows another one. -/
theorem isChain_condense (tokens : List Token) : (condense tokens).IsChain Apart := by
  obtain ⟨dropped, hdropped⟩ := exists_destutter_eq_condense_append tokens
  have hchain : (condense tokens ++ dropped).IsChain Apart :=
    hdropped ▸ List.isChain_destutter Apart tokens
  exact hchain.left_of_append

/-- Condensed tokens do not end in a separator. -/
theorem kind_ne_of_mem_getLast?_condense {tokens : List Token} {t : Token}
    (h : t ∈ (condense tokens).getLast?) : t.kind ≠ .separator := by
  obtain ⟨hne, rfl⟩ := List.mem_getLast?_eq_getLast h
  exact fun hkind => List.rdropWhile_last_not _ _ hne (decide_eq_true hkind)

/-- A list of kept tokens is condensed by dropping the separator at its end. -/
theorem condense_eq_of_last {raw tokens : List Token}
    (h : raw.destutter Apart = tokens) (hlast : ∀ t ∈ tokens.getLast?, t.kind ≠ .separator) :
    condense raw = tokens := by
  rw [condense, h, List.rdropWhile_eq_self_iff]
  intro hne hkind
  exact hlast _ (List.getLast_mem_getLast? hne) (of_decide_eq_true hkind)

/-- A separator at the end is dropped. -/
theorem condense_eq_of_concat {raw tokens : List Token} {t : Token}
    (h : raw.destutter Apart = tokens ++ [t]) (ht : t.kind = .separator) :
    condense raw = tokens := by
  have hchain : (tokens ++ [t]).IsChain Apart := h ▸ List.isChain_destutter Apart raw
  obtain ⟨_, _, hlast⟩ := List.isChain_append.mp hchain
  rw [condense, h, List.rdropWhile_concat, if_pos (decide_eq_true ht),
    List.rdropWhile_eq_self_iff]
  intro hne hkind
  exact hlast _ (List.getLast_mem_getLast? hne) t rfl ⟨of_decide_eq_true hkind, ht⟩

end Token

namespace Piece

/-- The tokens that are kept of pieces one after the other, last first. -/
def kept (pieces : List Piece) : List Token :=
  ((tokens .start pieces).destutter Token.Apart).reverse

variable {pieces : List Piece} {piece : Piece} {kind : TokenKind}

/-- A piece that is no token leaves the tokens that are kept as they are. -/
theorem kept_concat_of_none (h : piece.kind? = none) (pieces : List Piece) :
    kept (pieces ++ [piece]) = kept pieces := by
  rw [kept, tokens_concat_of_none h, kept]

/-- A piece whose token is apart from the last one is kept. -/
theorem kept_concat_of_apart (h : piece.kind? = some kind)
    (hapart : ∀ u ∈ (kept pieces).head?,
      u.Apart ⟨kind, Position.start.advance (pieces.flatMap text)⟩) :
    kept (pieces ++ [piece]) =
      ⟨kind, Position.start.advance (pieces.flatMap text)⟩ :: kept pieces := by
  rw [kept, List.head?_reverse] at hapart
  rw [kept, tokens_concat_of_some h, Token.destutter_concat_of_apart hapart, List.reverse_concat,
    kept]

/-- A piece whose token follows another separator is not kept. -/
theorem kept_concat_of_not_apart {u : Token} (h : piece.kind? = some kind)
    (hu : u ∈ (kept pieces).head?)
    (hapart : ¬u.Apart ⟨kind, Position.start.advance (pieces.flatMap text)⟩) :
    kept (pieces ++ [piece]) = kept pieces := by
  rw [kept, List.head?_reverse] at hu
  rw [kept, tokens_concat_of_some h, Token.destutter_concat_of_not_apart hu hapart, kept]

end Piece

end Logo
