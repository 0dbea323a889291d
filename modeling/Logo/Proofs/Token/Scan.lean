import Logo.Proofs.Eval
import Logo.Proofs.Token.Layout
import Logo.Token.Scan

/-!
# What a scan has read

At each point of a scan the text that was read so far falls into pieces, which have their tokens,
and the start of a word, which may end within a literal. Reading one more character adds it to the
word or to a comment, or ends the word and adds a piece. A comment in an open group is the only
exception, and no text with one comes to an end.
-/

namespace Logo

/-- Whether any piece can follow. -/
def Piece.Open (pieces : List Piece) : Prop := ∀ q ∈ pieces.getLast?, ∀ p, q.Precedes p

namespace Scan

variable {s t : Scan} {pieces : List Piece} {word : List Atom} {tail read : List Char} {c : Char}

/-- Whether the tokens and the word of a scan are those of pieces, of atoms and of the start of a
literal. -/
structure Reads (s : Scan) (pieces : List Piece) (word : List Atom) (tail : List Char) : Prop where
  word_eq : s.word.reverse = word.flatMap Atom.text ++ tail
  wordStart_eq : s.word ≠ [] → s.wordStart = Position.start.advance (pieces.flatMap Piece.text)
  tokens_eq : s.tokens = Piece.kept pieces
  layout : Layout pieces
  spelled : Spelled word
  depth : Atom.Depth word s.parens.length s.brackets.length

/-- A scan is in a group exactly if a parenthesis or a square bracket is open. -/
theorem grouped_eq_true_iff : s.grouped = true ↔ 0 < s.parens.length ∨ 0 < s.brackets.length := by
  simp [grouped, List.length_pos_iff]

/-- No group is left unclosed exactly if the scan is in none. -/
theorem unclosedGroup?_eq_none_iff : s.unclosedGroup? = none ↔ s.grouped = false := by
  rw [unclosedGroup?, grouped]
  rcases s.parens with _ | ⟨p, parens⟩
  · rcases s.brackets with _ | ⟨p, brackets⟩
    · simp
    · simp
  · simp

namespace Reads

/-- A scan is in a group exactly if its word is. -/
theorem grouped_iff (h : s.Reads pieces word tail) : s.grouped = true ↔ Atom.Grouped word := by
  rw [grouped_eq_true_iff, h.depth.grouped_iff]

/-- Only some parts of a scan are bound to what it has read. -/
theorem congr (h : s.Reads pieces word tail) (hword : t.word = s.word)
    (hwordStart : t.wordStart = s.wordStart) (htokens : t.tokens = s.tokens)
    (hparens : t.parens = s.parens) (hbrackets : t.brackets = s.brackets) :
    t.Reads pieces word tail where
  word_eq := hword ▸ h.word_eq
  wordStart_eq := by rw [hword, hwordStart]; exact h.wordStart_eq
  tokens_eq := htokens.trans h.tokens_eq
  layout := h.layout
  spelled := h.spelled
  depth := by rw [hparens, hbrackets]; exact h.depth

/-- A character of a literal is added to what was read of it. -/
theorem push (h : s.Reads pieces word tail)
    (hpos : s.pos = Position.start.advance
      (pieces.flatMap Piece.text ++ word.flatMap Atom.text ++ tail)) (c : Char) :
    (s.push c).Reads pieces word (tail ++ [c]) where
  word_eq := by simp [Scan.push, h.word_eq]
  wordStart_eq := by
    intro _
    cases hword : s.word with
    | nil =>
      have hnothing : word.flatMap Atom.text ++ tail = [] := by simpa [hword] using h.word_eq.symm
      simp [Scan.push, hword, hpos, hnothing]
    | cons d rest => simpa [Scan.push, hword] using h.wordStart_eq (by simp [hword])
  tokens_eq := h.tokens_eq
  layout := h.layout
  spelled := h.spelled
  depth := h.depth

/-- What was read of an atom makes the atom, once it is complete. -/
theorem atom {a : Atom} (h : s.Reads pieces word a.text) (ha : a.Follows word)
    (hword : t.word = s.word) (hwordStart : t.wordStart = s.wordStart)
    (htokens : t.tokens = s.tokens)
    (hdepth : Atom.Depth (word ++ [a]) t.parens.length t.brackets.length) :
    t.Reads pieces (word ++ [a]) [] where
  word_eq := by simp [hword, h.word_eq]
  wordStart_eq := by rw [hword, hwordStart]; exact h.wordStart_eq
  tokens_eq := htokens.trans h.tokens_eq
  layout := h.layout
  spelled := h.spelled.snoc ha
  depth := hdepth

/-- A word that ends becomes a piece. -/
theorem flush {cut : List Char} (h : s.Reads pieces word cut) (hopen : Piece.Open pieces)
    (hcut : cut ∈ [[], ['\''], ['\'', '\\']]) (hgroup : ¬Atom.Grouped word) :
    ∃ pieces', s.flush.Reads pieces' [] [] ∧
      pieces'.flatMap Piece.text =
        pieces.flatMap Piece.text ++ word.flatMap Atom.text ++ cut ∧
      (cut = [] → ∀ q ∈ pieces'.getLast?, ∀ p, (∀ atoms cut, p ≠ .word atoms cut) →
        q.Precedes p) := by
  have hclosed : Atom.Depth [] s.parens.length s.brackets.length := by
    rw [h.depth.grouped_iff] at hgroup
    obtain ⟨hparens, hbrackets⟩ : s.parens.length = 0 ∧ s.brackets.length = 0 := by omega
    rw [hparens, hbrackets]
    exact .nil
  by_cases hword : s.word = []
  · have hnothing : word.flatMap Atom.text ++ cut = [] := by simpa [hword] using h.word_eq.symm
    refine ⟨pieces, ?_, by simp [hnothing], fun _ q hq p _ => hopen q hq p⟩
    rw [Scan.flush, if_pos (by simp [hword])]
    exact ⟨by simp [hword], h.wordStart_eq, h.tokens_eq, h.layout, .nil, hclosed⟩
  · have hne : (Piece.word word cut).text ≠ [] := by
      rw [Piece.text, ← h.word_eq]
      simpa using hword
    have hlayout : Layout (pieces ++ [.word word cut]) :=
      h.layout.snoc ⟨h.spelled, hgroup, hcut, hne⟩ fun q hq => hopen q hq _
    refine ⟨pieces ++ [.word word cut], ?_, by simp [Piece.text], ?_⟩
    · rw [Scan.flush, if_neg (by simpa using hword)]
      refine ⟨rfl, by simp, ?_, hlayout, .nil, hclosed⟩
      rw [Piece.kept_concat_of_apart rfl (by simp [Token.Apart]), h.tokens_eq, h.word_eq,
        h.wordStart_eq hword]
      rfl
    · simpa [Piece.Precedes] using fun hcut p hp => ⟨hcut, hp⟩

/-- A piece can be added between words. -/
theorem piece {p : Piece} (h : s.Reads pieces [] []) (hfits : p.Fits)
    (hlast : ∀ q ∈ pieces.getLast?, q.Precedes p) (hword : t.word = s.word)
    (htokens : t.tokens = Piece.kept (pieces ++ [p])) (hparens : t.parens = s.parens)
    (hbrackets : t.brackets = s.brackets) : t.Reads (pieces ++ [p]) [] [] where
  word_eq := hword ▸ h.word_eq
  wordStart_eq := by
    intro hne
    have hnothing : s.word = [] := by simpa using h.word_eq
    exact absurd (hword.trans hnothing) hne
  tokens_eq := htokens
  layout := h.layout.snoc hfits hlast
  spelled := .nil
  depth := by rw [hparens, hbrackets]; exact h.depth

end Reads

/-- What was read of a literal in a mode. -/
def Begun : LiteralMode → List Char → Prop
  | .outside, _ => False
  | .string, tail => ∃ body, tail = '"' :: body ∧ Atom.IsStringBody body
  | .stringEscape, tail => ∃ body, tail = '"' :: (body ++ ['\\']) ∧ Atom.IsStringBody body
  | .character, tail => tail = ['\'']
  | .characterEscape, tail => tail = ['\'', '\\']

/-- A literal goes on, or is complete with one more character. -/
theorem Begun.step {mode : LiteralMode} (h : Begun mode tail) (c : Char) :
    if mode.step c = .outside then ∃ a : Atom, a.text = tail ++ [c] ∧ (∀ d, a ≠ .char d) ∧
      ∀ before, a.Follows before
    else Begun (mode.step c) (tail ++ [c]) := by
  cases mode with
  | outside => exact h.elim
  | string =>
    obtain ⟨body, rfl, hbody⟩ := h
    by_cases hescape : c = '\\'
    · subst hescape
      exact ⟨body, rfl, hbody⟩
    · by_cases hquote : c = '"'
      · subst hquote
        exact ⟨.string body, rfl, by simp, fun _ => hbody⟩
      · have hnext : LiteralMode.string.step c = .string := by
          simp [LiteralMode.step, hescape, hquote]
        rw [hnext, if_neg (by decide)]
        refine ⟨body ++ [c], rfl, hbody.append ?_⟩
        simp [Atom.IsStringBody, hescape, hquote]
  | stringEscape =>
    obtain ⟨body, rfl, hbody⟩ := h
    refine ⟨body ++ ['\\', c], by simp, hbody.append ?_⟩
    simp [Atom.IsStringBody]
  | character =>
    subst h
    by_cases hescape : c = '\\'
    · subst hescape
      rfl
    · have hnext : LiteralMode.character.step c = .outside := by
        simp [LiteralMode.step, hescape]
      rw [hnext, if_pos rfl]
      exact ⟨.character [c], rfl, by simp, fun _ => .inl ⟨c, hescape, rfl⟩⟩
  | characterEscape =>
    subst h
    exact ⟨.character ['\\', c], rfl, by simp, fun _ => .inr ⟨c, rfl⟩⟩

/-- Where a scan stands, once some text was read. -/
inductive At (s : Scan) (read : List Char) : Prop
  | text {pieces : List Piece} {word : List Atom} (hmode : s.mode = .text)
      (hreads : s.Reads pieces word []) (hopen : Piece.Open pieces)
      (hread : read = pieces.flatMap Piece.text ++ word.flatMap Atom.text)
  | literal {pieces : List Piece} {word : List Atom} {tail : List Char} {mode : LiteralMode}
      {opened : Position} (hmode : s.mode = .literal mode opened) (hbegun : Begun mode tail)
      (hreads : s.Reads pieces word tail) (hopen : Piece.Open pieces)
      (hread : read = pieces.flatMap Piece.text ++ word.flatMap Atom.text ++ tail)
  | comment {pieces : List Piece} {body : List Char} (hmode : s.mode = .comment)
      (hreads : s.Reads (pieces ++ [.comment body]) [] [])
      (hread : read = pieces.flatMap Piece.text ++ '#' :: body)
  /-- A comment in a group cannot end. -/
  | stuck (hmode : s.mode = .comment) (hgrouped : s.grouped = true)

/-! ## Reading a character -/

/-- The place of the next character does not matter. -/
theorem At.withPos (h : s.At read) (p : Position) : At { s with pos := p } read := by
  cases h with
  | text hmode hreads hopen hread =>
    exact .text hmode (hreads.congr rfl rfl rfl rfl rfl) hopen hread
  | literal hmode hbegun hreads hopen hread =>
    exact .literal hmode hbegun (hreads.congr rfl rfl rfl rfl rfl) hopen hread
  | comment hmode hreads hread => exact .comment hmode (hreads.congr rfl rfl rfl rfl rfl) hread
  | stuck hmode hgrouped => exact .stuck hmode hgrouped

/-- A separator changes nothing but the tokens, other than that the word ends. -/
theorem exists_separate_eq (s : Scan) : ∃ tokens, s.separate = { s.flush with tokens } := by
  unfold separate
  split
  · exact ⟨_, rfl⟩
  · exact ⟨_, rfl⟩

/-- The token of a delimiter is kept. -/
theorem tokens_delimit {p : Piece} {kind : TokenKind} (hkind : p.kind? = some kind)
    (hpos : s.pos = Position.start.advance (pieces.flatMap Piece.text))
    (htokens : s.flush.tokens = Piece.kept pieces)
    (hapart : ∀ u ∈ (Piece.kept pieces).head?, u.Apart ⟨kind, s.pos⟩) :
    (s.delimit kind).tokens = Piece.kept (pieces ++ [p]) := by
  rw [Piece.kept_concat_of_apart hkind (hpos ▸ hapart), ← hpos, ← htokens]
  rfl

/-- The token of a separator is kept unless it follows another one. -/
theorem tokens_separate (c : Char)
    (hpos : s.pos = Position.start.advance (pieces.flatMap Piece.text))
    (htokens : s.flush.tokens = Piece.kept pieces) :
    s.separate.tokens = Piece.kept (pieces ++ [.separator c]) := by
  have hkind : (Piece.separator c).kind? = some .separator := rfl
  rcases hkept : Piece.kept pieces with _ | ⟨⟨kind, place⟩, rest⟩
  · have hseparate : s.separate = s.delimit .separator := by
      simp only [separate, htokens, hkept]
    rw [hseparate, tokens_delimit hkind hpos htokens (by simp [hkept])]
  · cases kind with
    | separator =>
      have hseparate : s.separate = s.flush := by simp only [separate, htokens, hkept]
      rw [hseparate, htokens,
        Piece.kept_concat_of_not_apart hkind (u := ⟨.separator, place⟩) (by simp [hkept])
          (by simp [Token.Apart])]
    | word | blockOpen | blockClose =>
      have hseparate : s.separate = s.delimit .separator := by
        simp only [separate, htokens, hkept]
      rw [hseparate, tokens_delimit hkind hpos htokens (by simp [hkept, Token.Apart])]

/-- A bracket is added to the word, unless it closes none. An opening bracket is noted, and a
closing one takes the last of its kind back. -/
theorem readText_bracket (hdepth : Atom.Depth word s.parens.length s.brackets.length)
    (hc : c ∈ ['(', ')', '[', ']']) :
    (∃ fault, s.readText c = .error fault ∧ ¬(Atom.char c).Follows word) ∨
      ∃ parens brackets, s.readText c = .ok { s.push c with parens, brackets } ∧
        Atom.Depth (word ++ [.char c]) parens.length brackets.length := by
  simp only [List.mem_cons, List.not_mem_nil, or_false] at hc
  rcases hc with rfl | rfl | rfl | rfl
  · exact .inr ⟨s.pos :: s.parens, s.brackets, rfl, hdepth.snoc rfl rfl⟩
  · cases hparens : s.parens with
    | nil =>
      rw [hparens] at hdepth
      refine .inl ⟨.excessBracket ')' s.pos, by simp [readText, hparens], fun hfollows => ?_⟩
      exact absurd (hfollows.2.2.1 rfl) (by rw [← hdepth.1]; simp)
    | cons place parens =>
      rw [hparens] at hdepth
      exact .inr ⟨parens, s.brackets, by simp [readText, push, hparens], hdepth.snoc rfl rfl⟩
  · exact .inr ⟨s.parens, s.pos :: s.brackets, rfl, hdepth.snoc rfl rfl⟩
  · cases hbrackets : s.brackets with
    | nil =>
      rw [hbrackets] at hdepth
      refine .inl ⟨.excessBracket ']' s.pos, by simp [readText, hbrackets], fun hfollows => ?_⟩
      exact absurd (hfollows.2.2.2 rfl) (by rw [← hdepth.2]; simp)
    | cons place brackets =>
      rw [hbrackets] at hdepth
      exact .inr ⟨s.parens, brackets, by simp [readText, push, hbrackets], hdepth.snoc rfl rfl⟩

section Text

variable (hreads : s.Reads pieces word []) (hopen : Piece.Open pieces)
  (hpos : s.pos = Position.start.advance (pieces.flatMap Piece.text ++ word.flatMap Atom.text))

include hreads hopen hpos

/-- A character is added to the word. -/
theorem at_char (hfollows : (Atom.char c).Follows word) (hmode : t.mode = .text)
    (hword : t.word = (s.push c).word) (hwordStart : t.wordStart = (s.push c).wordStart)
    (htokens : t.tokens = s.tokens)
    (hdepth : Atom.Depth (word ++ [.char c]) t.parens.length t.brackets.length) :
    t.At (pieces.flatMap Piece.text ++ word.flatMap Atom.text ++ [c]) := by
  have hpushed : (s.push c).Reads pieces word (Atom.char c).text :=
    hreads.push (by simpa using hpos) c
  exact .text hmode (hpushed.atom hfollows hword hwordStart htokens hdepth) hopen
    (by simp [Atom.text])

/-- A character that is no bracket is added to the word. -/
theorem at_plain (hmode : s.mode = .text) (hc : c ∉ ['"', '\'', '\n', ';', '#'])
    (hbracket : c ∉ ['(', ')', '[', ']'])
    (hgroup : c ∈ [' ', '\t', '\r', '\x7b', '\x7d'] → s.grouped = true) :
    (s.push c).At (pieces.flatMap Piece.text ++ word.flatMap Atom.text ++ [c]) := by
  have hfollows : (Atom.char c).Follows word :=
    ⟨hc, fun hblank => hreads.grouped_iff.mp (hgroup hblank),
      fun hclose => absurd (by simp [hclose]) hbracket,
      fun hclose => absurd (by simp [hclose]) hbracket⟩
  exact at_char hreads hopen hpos hfollows hmode rfl rfl rfl
    (hreads.depth.snoc_of_not_mem (by simpa using hbracket))

/-- The word ends, and a piece follows that is no word. -/
theorem reads_piece {p : Piece} (hgroup : s.grouped = false) (hfits : p.Fits)
    (hnoword : ∀ atoms cut, p ≠ .word atoms cut) (hword : t.word = s.flush.word)
    (htokens : ∀ pieces', s.pos = Position.start.advance (pieces'.flatMap Piece.text) →
      s.flush.tokens = Piece.kept pieces' → t.tokens = Piece.kept (pieces' ++ [p]))
    (hparens : t.parens = s.flush.parens) (hbrackets : t.brackets = s.flush.brackets) :
    ∃ pieces', t.Reads (pieces' ++ [p]) [] [] ∧
      pieces'.flatMap Piece.text = pieces.flatMap Piece.text ++ word.flatMap Atom.text := by
  have hungrouped : ¬Atom.Grouped word := by
    rw [← hreads.grouped_iff, hgroup]
    exact Bool.false_ne_true
  obtain ⟨pieces', hflush, htext, hlast⟩ := hreads.flush hopen (by simp) hungrouped
  rw [List.append_nil] at htext
  exact ⟨pieces', hflush.piece hfits (fun q hq => hlast rfl q hq p hnoword) hword
    (htokens pieces' (htext ▸ hpos) hflush.tokens_eq) hparens hbrackets, htext⟩

/-- The word ends, and a piece of one character follows. -/
theorem at_piece {p : Piece} (hgroup : s.grouped = false) (hfits : p.Fits) (htext : p.text = [c])
    (hfollow : ∀ q, p.Precedes q) (hnoword : ∀ atoms cut, p ≠ .word atoms cut)
    (hmode : t.mode = .text) (hword : t.word = s.flush.word)
    (htokens : ∀ pieces', s.pos = Position.start.advance (pieces'.flatMap Piece.text) →
      s.flush.tokens = Piece.kept pieces' → t.tokens = Piece.kept (pieces' ++ [p]))
    (hparens : t.parens = s.flush.parens) (hbrackets : t.brackets = s.flush.brackets) :
    t.At (pieces.flatMap Piece.text ++ word.flatMap Atom.text ++ [c]) := by
  obtain ⟨pieces', hreads', htext'⟩ :=
    reads_piece hreads hopen hpos hgroup hfits hnoword hword htokens hparens hbrackets
  refine .text hmode hreads' ?_ ?_
  · simpa [Piece.Open] using hfollow
  · simp [htext, htext']

/-- A `#` outside groups ends the word and starts a comment. -/
theorem at_comment (hgroup : s.grouped = false) :
    At { s.flush with mode := .comment }
      (pieces.flatMap Piece.text ++ word.flatMap Atom.text ++ ['#']) := by
  obtain ⟨pieces', hreads', htext⟩ := reads_piece hreads hopen hpos
    (t := { s.flush with mode := .comment }) (p := .comment []) hgroup (by simp [Piece.Fits])
    (by simp) rfl (fun _ _ htokens => htokens.trans (Piece.kept_concat_of_none rfl _).symm) rfl rfl
  exact .comment rfl hreads' (by simp [htext])

/-- A blank outside of groups ends the word and is a piece of its own. -/
theorem at_blank (hmode : s.flush.mode = .text) (hgroup : s.grouped = false)
    (hc : c ∈ [' ', '\t', '\r']) :
    s.flush.At (pieces.flatMap Piece.text ++ word.flatMap Atom.text ++ [c]) :=
  at_piece hreads hopen hpos (p := .blank c) hgroup hc rfl (fun _ => trivial) (by simp) hmode rfl
    (fun _ _ htokens => htokens.trans (Piece.kept_concat_of_none rfl _).symm) rfl rfl

/-- A separator outside of groups ends the word and is a token of its own. -/
theorem at_separator (hmode : s.flush.mode = .text) (hgroup : s.grouped = false)
    (hc : c ∈ ['\n', ';']) :
    s.separate.At (pieces.flatMap Piece.text ++ word.flatMap Atom.text ++ [c]) := by
  obtain ⟨tokens, hseparate⟩ := s.exists_separate_eq
  exact at_piece hreads hopen hpos (p := .separator c) hgroup hc rfl (fun _ => trivial) (by simp)
    (by rw [hseparate]; exact hmode) (by rw [hseparate]) (fun _ => tokens_separate c)
    (by rw [hseparate]) (by rw [hseparate])

/-- A block delimiter ends the word. -/
theorem at_delimiter {p : Piece} {kind : TokenKind} (hkind : p.kind? = some kind)
    (hp : p = .blockOpen ∨ p = .blockClose) (htext : p.text = [c]) (hmode : s.flush.mode = .text)
    (hgroup : s.grouped = false) (braces : List Position) :
    At { s.delimit kind with braces }
      (pieces.flatMap Piece.text ++ word.flatMap Atom.text ++ [c]) := by
  rcases hp with rfl | rfl
  · cases hkind
    exact at_piece hreads hopen hpos (p := .blockOpen) hgroup trivial htext (fun _ => trivial)
      (by simp) hmode rfl
      (fun _ hpos' htokens => tokens_delimit rfl hpos' htokens (by simp [Token.Apart])) rfl rfl
  · cases hkind
    exact at_piece hreads hopen hpos (p := .blockClose) hgroup trivial htext (fun _ => trivial)
      (by simp) hmode rfl
      (fun _ hpos' htokens => tokens_delimit rfl hpos' htokens (by simp [Token.Apart])) rfl rfl

/-- A `#` starts a comment, which in a group does not end. -/
theorem at_hash : At { (if s.grouped then s else s.flush) with mode := .comment }
    (pieces.flatMap Piece.text ++ word.flatMap Atom.text ++ ['#']) := by
  cases hgroup : s.grouped with
  | true => exact .stuck rfl hgroup
  | false => exact at_comment hreads hopen hpos hgroup

/-- A quotation mark starts a literal within the word. -/
theorem at_quote (hc : c = '"' ∨ c = '\'') :
    At { s.push c with mode := .literal (LiteralMode.outside.step c) s.pos }
      (pieces.flatMap Piece.text ++ word.flatMap Atom.text ++ [c]) := by
  have hpushed := hreads.push (by simpa using hpos) c
  refine .literal rfl ?_ (hpushed.congr rfl rfl rfl rfl rfl) hopen rfl
  rcases hc with rfl | rfl
  · exact ⟨[], rfl, trivial⟩
  · rfl

/-- A blank is part of the word in a group, and ends it elsewhere. -/
theorem at_space (hmode : s.mode = .text) (hflush : s.flush.mode = .text)
    (hc : c ∈ [' ', '\t', '\r']) :
    At (if s.grouped then s.push c else s.flush)
      (pieces.flatMap Piece.text ++ word.flatMap Atom.text ++ [c]) := by
  cases hgroup : s.grouped with
  | true =>
    have hplain : c ∉ ['"', '\'', '\n', ';', '#'] ∧ c ∉ ['(', ')', '[', ']'] := by
      simp only [List.mem_cons, List.not_mem_nil, or_false] at hc
      rcases hc with rfl | rfl | rfl
      all_goals decide
    exact at_plain hreads hopen hpos hmode hplain.1 hplain.2 fun _ => hgroup
  | false => exact at_blank hreads hopen hpos hflush hgroup hc

/-- A bracket is added to the word if it closes one, or is not there to close any. -/
theorem at_bracket (hmode : s.mode = .text) (hc : c ∈ ['(', ')', '[', ']'])
    (h : s.readText c = .ok t) :
    t.At (pieces.flatMap Piece.text ++ word.flatMap Atom.text ++ [c]) := by
  rcases readText_bracket hreads.depth hc with ⟨fault, hfault, _⟩ | ⟨parens, brackets, hok, hdepth⟩
  · cases hfault.symm.trans h
  · cases hok.symm.trans h
    exact at_char hreads hopen hpos (hdepth.follows hc) hmode rfl rfl rfl hdepth

/-- Blanks, separators and block delimiters are told apart from what is part of a word. -/
theorem at_readText (hmode : s.mode = .text) (h : s.readText c = .ok t) :
    t.At (pieces.flatMap Piece.text ++ word.flatMap Atom.text ++ [c]) := by
  have hflush : s.flush.mode = .text := by
    unfold Scan.flush
    split
    · exact hmode
    · exact hmode
  by_cases hbracket : c ∈ ['(', ')', '[', ']']
  · exact at_bracket hreads hopen hpos hmode hbracket h
  -- The tests for other characters, in the order in which they are made.
  unfold readText at h
  by_cases hhash : c = '#'
  · subst hhash
    cases h
    exact at_hash hreads hopen hpos
  by_cases hquote : (c = '"' || c = '\'') = true
  · rw [if_neg hhash, if_pos hquote] at h
    cases h
    exact at_quote hreads hopen hpos (by simpa using hquote)
  by_cases hblank : (c = ' ' || c = '\t' || c = '\r') = true
  · rw [if_neg hhash, if_neg hquote, if_pos hblank] at h
    cases h
    exact at_space hreads hopen hpos hmode hflush (by simpa [or_assoc] using hblank)
  rw [if_neg hhash, if_neg hquote, if_neg hblank] at h
  by_cases hseparator : (c = '\n' || c = ';') = true
  · rw [if_pos hseparator] at h
    split at h
    · cases h
    · next hnone =>
      cases h
      exact at_separator hreads hopen hpos hflush (unclosedGroup?_eq_none_iff.mp hnone)
        (by simpa using hseparator)
  rw [if_neg hseparator] at h
  by_cases hblockOpen : (c = '\x7b' && !s.grouped) = true
  · rw [if_pos hblockOpen] at h
    cases h
    obtain ⟨rfl, hgroup⟩ : c = '\x7b' ∧ s.grouped = false := by simpa using hblockOpen
    exact at_delimiter hreads hopen hpos rfl (.inl rfl) rfl hflush hgroup _
  rw [if_neg hblockOpen] at h
  by_cases hblockClose : (c = '\x7d' && !s.grouped) = true
  · rw [if_pos hblockClose] at h
    split at h
    · cases h
    · cases h
      obtain ⟨rfl, hgroup⟩ : c = '\x7d' ∧ s.grouped = false := by simpa using hblockClose
      exact at_delimiter hreads hopen hpos rfl (.inr rfl) rfl hflush hgroup _
  rw [if_neg hblockClose] at h
  obtain ⟨hopenParen, hcloseParen, hopenBracket, hcloseBracket⟩ :
      c ≠ '(' ∧ c ≠ ')' ∧ c ≠ '[' ∧ c ≠ ']' := by simpa using hbracket
  rw [if_neg hopenParen, if_neg hopenBracket, if_neg hcloseParen, if_neg hcloseBracket] at h
  cases h
  simp only [Bool.or_eq_true, decide_eq_true_eq, not_or] at hquote hblank hseparator
  simp only [Bool.and_eq_true, decide_eq_true_eq, Bool.not_eq_true', not_and,
    Bool.not_eq_false] at hblockOpen hblockClose
  refine at_plain hreads hopen hpos hmode ?_ hbracket fun hc => ?_
  · simp [hhash, hquote, hseparator]
  · have hbrace : c = '\x7b' ∨ c = '\x7d' := by simpa [hblank] using hc
    exact hbrace.elim hblockOpen hblockClose

end Text

/-- A line feed separates statements where no group is open. -/
theorem eq_separate_of_readText (h : s.readText '\n' = .ok t) :
    s.grouped = false ∧ s.separate = t := by
  unfold readText at h
  rw [if_neg (by decide), if_neg (by decide), if_neg (by decide), if_pos (by decide)] at h
  split at h
  · cases h
  · next hnone => exact ⟨unclosedGroup?_eq_none_iff.mp hnone, Except.ok.inj h⟩

/-- A comment goes on to the end of its line. -/
theorem at_readComment {body : List Char} (hmode : s.mode = .comment)
    (hreads : s.Reads (pieces ++ [.comment body]) [] [])
    (hpos : s.pos = Position.start.advance (pieces.flatMap Piece.text ++ '#' :: body))
    (h : s.read c = .ok t) : t.At (pieces.flatMap Piece.text ++ '#' :: body ++ [c]) := by
  rw [Scan.read, hmode] at h
  dsimp only at h
  by_cases hc : c = '\n'
  · subst hc
    -- The scan goes on as at the end of a word, and there is no word.
    let s' : Scan := { s with mode := .text }
    have hreads' : s'.Reads (pieces ++ [.comment body]) [] [] := hreads.congr rfl rfl rfl rfl rfl
    have hflush : s'.flush = s' := if_pos (by simpa using hreads'.word_eq)
    obtain ⟨tokens, hseparate⟩ := s'.exists_separate_eq
    rw [hflush] at hseparate
    have hplace : s'.pos =
        Position.start.advance ((pieces ++ [Piece.comment body]).flatMap Piece.text) := by
      simpa [Piece.text] using hpos
    have htokens := tokens_separate '\n' hplace (by rw [hflush]; exact hreads'.tokens_eq)
    have hseparated : s'.separate.Reads (pieces ++ [.comment body] ++ [.separator '\n']) [] [] :=
      hreads'.piece (by simp [Piece.Fits]) (by simp [Piece.Precedes]) (by rw [hseparate]) htokens
        (by rw [hseparate]) (by rw [hseparate])
    obtain ⟨_, rfl⟩ := eq_separate_of_readText h
    exact .text (by rw [hseparate]) hseparated (by simp [Piece.Open, Piece.Precedes])
      (by simp [Piece.text])
  · rw [if_neg hc] at h
    cases h
    obtain ⟨hlayout, hlast⟩ := hreads.layout.of_snoc
    have hbody : '\n' ∉ body := hreads.layout.fits (.comment body) (by simp)
    have hlayout' : Layout (pieces ++ [.comment (body ++ [c])]) :=
      hlayout.snoc (by simpa [Piece.Fits, hbody] using Ne.symm hc)
        fun q hq => (hlast q hq).comment (body ++ [c])
    have hnothing : s.word = [] := by simpa using hreads.word_eq
    have htokens : s.tokens = Piece.kept (pieces ++ [.comment (body ++ [c])]) := by
      rw [hreads.tokens_eq, Piece.kept_concat_of_none rfl, Piece.kept_concat_of_none rfl]
    exact .comment hmode ⟨hreads.word_eq, fun hne => absurd hnothing hne, htokens, hlayout', .nil,
      hreads.depth⟩ (by simp)

/-- A literal goes on until it is complete. -/
theorem at_readLiteral {mode : LiteralMode} {opened : Position}
    (hmode : s.mode = .literal mode opened) (hbegun : Begun mode tail)
    (hreads : s.Reads pieces word tail) (hopen : Piece.Open pieces)
    (hpos : s.pos = Position.start.advance
      (pieces.flatMap Piece.text ++ word.flatMap Atom.text ++ tail))
    (h : s.read c = .ok t) :
    t.At (pieces.flatMap Piece.text ++ word.flatMap Atom.text ++ tail ++ [c]) := by
  rw [Scan.read, hmode] at h
  cases h
  have hpushed := hreads.push hpos c
  have hnext := hbegun.step c
  by_cases hdone : mode.step c = .outside
  · rw [if_pos hdone] at hnext
    obtain ⟨a, htext, hliteral, hfollows⟩ := hnext
    rw [← htext] at hpushed
    refine .text (by simp [hdone]) (hpushed.atom (hfollows word) rfl rfl rfl
      (hreads.depth.snoc_of_not_mem (by simp [hliteral]))) hopen (by simp [htext])
  · rw [if_neg hdone] at hnext
    exact .literal (by simp [hdone]; rfl) hnext (hpushed.congr rfl rfl rfl rfl rfl) hopen (by simp)

/-- A scan that is stuck in a comment stays there. -/
theorem at_readStuck (hmode : s.mode = .comment) (hgrouped : s.grouped = true)
    (h : s.read c = .ok t) : t.mode = .comment ∧ t.grouped = true := by
  rw [Scan.read, hmode] at h
  dsimp only at h
  by_cases hc : c = '\n'
  · subst hc
    obtain ⟨hnone, _⟩ := eq_separate_of_readText h
    exact absurd (hgrouped.symm.trans hnone) (by decide)
  · rw [if_neg hc] at h
    cases h
    exact ⟨hmode, hgrouped⟩

/-- What one character changes. -/
theorem At.step (h : s.At read) (hpos : s.pos = Position.start.advance read)
    (hstep : s.step c = .ok t) :
    t.At (read ++ [c]) ∧ t.pos = Position.start.advance (read ++ [c]) := by
  obtain ⟨t', hread, rfl⟩ := map_eq_ok_iff.mp hstep
  refine ⟨At.withPos ?_ _, by simp [hpos]⟩
  cases h with
  | text hmode hreads hopen htext =>
    subst htext
    refine at_readText hreads hopen hpos hmode ?_
    rw [← hread, Scan.read, hmode]
  | literal hmode hbegun hreads hopen htext =>
    subst htext
    exact at_readLiteral hmode hbegun hreads hopen hpos hread
  | comment hmode hreads htext =>
    subst htext
    exact at_readComment hmode hreads hpos hread
  | stuck hmode hgrouped =>
    obtain ⟨hmode', hgrouped'⟩ := at_readStuck hmode hgrouped hread
    exact .stuck hmode' hgrouped'

/-- What a whole text changes. -/
theorem At.foldlM {text : List Char} (h : s.At read) (hpos : s.pos = Position.start.advance read)
    (hrun : text.foldlM Scan.step s = .ok t) : t.At (read ++ text) := by
  induction text generalizing s read with
  | nil =>
    cases hrun
    simpa using h
  | cons c text ih =>
    rw [List.foldlM_cons] at hrun
    cases hstep : s.step c with
    | error fault =>
      rw [hstep] at hrun
      cases hrun
    | ok t' =>
      rw [hstep] at hrun
      obtain ⟨hat, hpos'⟩ := h.step hpos hstep
      simpa using ih hat hpos' hrun

end Scan

end Logo
