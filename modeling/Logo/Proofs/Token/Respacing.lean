import Logo.Proofs.Statement.Nesting

/-!
# Tokens with single blanks between them

The tokens of a text can be written down again, one after the other, with a blank between any two.
The text that results has tokens of the same kinds. For a word is read as it stands, whatever blanks
and delimiters its groups and literals hold, and a literal that breaks off is part of the last word,
so that no blank is added to it.
-/

namespace Logo

/-! ## Pieces that do not break off -/

/-- Whether a piece is a word that ends within a literal. -/
def Piece.IsCut : Piece → Prop
  | word _ cut => cut ≠ []
  | _ => False

namespace TokenKind

/-- Whether a token is that of a piece of a text. -/
def IsWritten (kind : TokenKind) : Prop := ∃ piece : Piece, piece.Fits ∧ piece.kind? = some kind

/-- Whether a token is that of a piece of a text that does not break off. -/
def IsWhole (kind : TokenKind) : Prop :=
  ∃ piece : Piece, piece.Fits ∧ piece.kind? = some kind ∧ ¬piece.IsCut

end TokenKind

/-- A word that ends within a literal stands before no other piece. -/
theorem Piece.Precedes.not_isCut {p q : Piece} (h : p.Precedes q) : ¬p.IsCut := by
  cases p with
  | word atoms cut => exact not_not.mpr h.1
  | blockOpen | blockClose | separator | blank | comment => exact not_false

namespace Layout

variable {pieces : List Piece}

/-- Each token of a layout is that of a piece. -/
theorem isWritten (h : Layout pieces) {p : Position} {t : Token} (ht : t ∈ Piece.tokens p pieces) :
    t.kind.IsWritten := by
  obtain ⟨before, piece, after, rfl, hkind, _⟩ := Piece.exists_of_mem_tokens ht
  exact ⟨piece, h.fits piece (by simp), hkind⟩

/-- Only the last token of a text can break off. -/
theorem pairwise_isWhole (h : Layout pieces) (p : Position) :
    (Piece.tokens p pieces).Pairwise fun t _ => t.kind.IsWhole := by
  obtain ⟨hfits, hchain⟩ := h
  induction pieces generalizing p with
  | nil => exact .nil
  | cons piece rest ih =>
    obtain ⟨hpiece, hrest⟩ := List.forall_mem_cons.mp hfits
    refine List.pairwise_append.mpr ⟨?_, ih _ hrest hchain.tail, fun t ht u hu => ?_⟩
    · cases piece.kind? with
      | none => exact .nil
      | some kind => exact List.pairwise_singleton _ _
    · obtain ⟨kind, hkind, rfl⟩ : ∃ kind, piece.kind? = some kind ∧ ⟨kind, p⟩ = t := by
        simpa using ht
      cases rest with
      | nil => cases hu
      | cons next rest =>
        exact ⟨piece, hpiece, hkind, (List.isChain_cons_cons.mp hchain).1.not_isCut⟩

end Layout

namespace Scan

variable {s t u : Scan} {c : Char} {word : List Atom} {text : List Char} {kind : TokenKind}
  {kinds : List TokenKind} {depth depth' : ℕ}

/-! ## Reading a literal -/

/-- Whether a scan has come to another one by adding a text to its word. -/
structure Copies (s t : Scan) (text : List Char) : Prop where
  word_eq : t.word = text.reverse ++ s.word
  tokens_eq : t.tokens = s.tokens
  braces_eq : t.braces = s.braces
  parens_eq : t.parens = s.parens
  brackets_eq : t.brackets = s.brackets

/-- A scan that has read nothing has added nothing to its word. -/
theorem Copies.refl (s : Scan) : s.Copies s [] := ⟨rfl, rfl, rfl, rfl, rfl⟩

/-- Two texts that are added one after the other are added together. -/
theorem Copies.trans {rest : List Char} (h : s.Copies t text) (hrest : t.Copies u rest) :
    s.Copies u (text ++ rest) where
  word_eq := by rw [hrest.word_eq, h.word_eq, List.reverse_append, List.append_assoc]
  tokens_eq := hrest.tokens_eq.trans h.tokens_eq
  braces_eq := hrest.braces_eq.trans h.braces_eq
  parens_eq := hrest.parens_eq.trans h.parens_eq
  brackets_eq := hrest.brackets_eq.trans h.brackets_eq

/-- Two texts can be read one after the other. -/
theorem foldlM_append_ok {rest : List Char} (h : text.foldlM step s = .ok t)
    (hrest : rest.foldlM step t = .ok u) : (text ++ rest).foldlM step s = .ok u := by
  rw [List.foldlM_append, h]
  exact hrest

/-- A character and a text behind it can be read one after the other. -/
theorem foldlM_cons_ok {rest : List Char} (h : s.step c = .ok t)
    (hrest : rest.foldlM step t = .ok u) : (c :: rest).foldlM step s = .ok u := by
  rw [List.foldlM_cons, h]
  exact hrest

/-- In a literal every character is copied. -/
theorem step_literal {mode : LiteralMode} {opened : Position} (h : s.mode = .literal mode opened)
    (c : Char) :
    ∃ t, s.step c = .ok t ∧ s.Copies t [c] ∧
      t.mode = if mode.step c = .outside then .text else .literal (mode.step c) opened := by
  have hread : s.read c = .ok { s.push c with
      mode := if mode.step c = .outside then .text else .literal (mode.step c) opened } := by
    rw [Scan.read, h]
  refine ⟨_, congrArg (Except.map _) hread, ⟨rfl, rfl, rfl, rfl, rfl⟩, rfl⟩

/-- What can stand between double quotes is copied. -/
theorem foldlM_stringBody {body : List Char} {opened : Position} (hbody : Atom.IsStringBody body)
    (h : s.mode = .literal .string opened) :
    ∃ t, body.foldlM step s = .ok t ∧ s.Copies t body ∧ t.mode = .literal .string opened := by
  fun_induction Atom.IsStringBody body generalizing s with
  | case1 => exact ⟨s, rfl, .refl s, h⟩
  | case2 => exact hbody.elim
  | case3 c body ih =>
    obtain ⟨t, hescape, hcopies, hmode⟩ := step_literal h '\\'
    obtain ⟨t', hc, hcopies', hmode'⟩ := step_literal hmode c
    obtain ⟨u, hrest, hcopiesRest, hmodeRest⟩ := ih hbody hmode'
    exact ⟨u, foldlM_cons_ok hescape (foldlM_cons_ok hc hrest),
      hcopies.trans (hcopies'.trans hcopiesRest), hmodeRest⟩
  | case4 c body hescape hescapes ih =>
    have hc : c ≠ '\\' := by
      rintro rfl
      cases body with
      | nil => exact hescape rfl rfl
      | cons d body => exact hescapes d body rfl rfl
    obtain ⟨t, hstep, hcopies, hmode⟩ := step_literal h c
    have hnext : LiteralMode.string.step c = .string := by simp [LiteralMode.step, hc, hbody.1]
    rw [hnext] at hmode
    obtain ⟨u, hrest, hcopiesRest, hmodeRest⟩ := ih hbody.2 hmode
    exact ⟨u, foldlM_cons_ok hstep hrest, hcopies.trans hcopiesRest, hmodeRest⟩

/-- A quote starts a literal. -/
theorem step_quote (h : s.mode = .text) (hc : c = '"' ∨ c = '\'') :
    ∃ t, s.step c = .ok t ∧ s.Copies t [c] ∧
      t.mode = .literal (LiteralMode.outside.step c) s.pos := by
  have hread : s.read c = .ok { s.push c with
      mode := .literal (LiteralMode.outside.step c) s.pos } := by
    rw [Scan.read, h]
    dsimp only
    rw [readText, if_neg (by rcases hc with rfl | rfl <;> decide), if_pos (by simpa using hc)]
  exact ⟨_, congrArg (Except.map _) hread, ⟨rfl, rfl, rfl, rfl, rfl⟩, rfl⟩

/-- A literal is copied from end to end. -/
theorem foldlM_literal {a : Atom} (ha : a.Follows word) (hliteral : ∀ c, a ≠ .char c)
    (h : s.mode = .text) :
    ∃ t, a.text.foldlM step s = .ok t ∧ s.Copies t a.text ∧ t.mode = .text := by
  cases a with
  | char c => exact absurd rfl (hliteral c)
  | string body =>
    obtain ⟨t, hquote, hcopies, hmode⟩ := step_quote h (.inl rfl)
    obtain ⟨t', hbody, hcopies', hmode'⟩ := foldlM_stringBody ha hmode
    obtain ⟨u, hclose, hcopies'', hmode''⟩ := step_literal hmode' '"'
    exact ⟨u, foldlM_cons_ok hquote (foldlM_append_ok hbody (foldlM_cons_ok hclose rfl)),
      hcopies.trans (hcopies'.trans hcopies''), hmode''⟩
  | character body =>
    obtain ⟨t, hquote, hcopies, hmode⟩ := step_quote h (.inr rfl)
    rcases ha with ⟨c, hc, rfl⟩ | ⟨c, rfl⟩
    · obtain ⟨u, hstep, hcopies', hmode'⟩ := step_literal hmode c
      have hnext : LiteralMode.character.step c = .outside := by simp [LiteralMode.step, hc]
      refine ⟨u, foldlM_cons_ok hquote (foldlM_cons_ok hstep rfl), hcopies.trans hcopies', ?_⟩
      rw [hmode']
      exact if_pos hnext
    · obtain ⟨t', hescape, hcopies', hmode'⟩ := step_literal hmode '\\'
      obtain ⟨u, hstep, hcopies'', hmode''⟩ := step_literal hmode' c
      exact ⟨u, foldlM_cons_ok hquote (foldlM_cons_ok hescape (foldlM_cons_ok hstep rfl)),
        hcopies.trans (hcopies'.trans hcopies''), hmode''⟩

/-! ## Reading a word -/

/-- Whether a scan has come to another one by reading the atoms of a word, from its start on. -/
structure Spells (s : Scan) (word : List Atom) (t : Scan) : Prop where
  mode_eq : t.mode = .text
  word_eq : t.word = (word.flatMap Atom.text).reverse
  tokens_eq : t.tokens = s.tokens
  braces_eq : t.braces = s.braces
  depth : Atom.Depth word t.parens.length t.brackets.length

/-- A group of the scan is open exactly if one of the word is. -/
theorem Spells.grouped_iff (h : s.Spells word t) : t.grouped = true ↔ Atom.Grouped word := by
  rw [grouped_eq_true_iff, h.depth.grouped_iff]

/-- A character that is read as part of a word. -/
theorem Spells.of_readText (h : s.Spells word t) (hread : t.readText c = .ok u)
    (hmode : u.mode = t.mode) (hword : u.word = c :: t.word) (htokens : u.tokens = t.tokens)
    (hbraces : u.braces = t.braces)
    (hdepth : Atom.Depth (word ++ [.char c]) u.parens.length u.brackets.length) :
    ∃ u, t.step c = .ok u ∧ s.Spells (word ++ [.char c]) u := by
  have hread' : t.read c = .ok u := by rw [Scan.read, h.mode_eq, hread]
  refine ⟨_, congrArg (Except.map _) hread', hmode.trans h.mode_eq, ?_, htokens.trans h.tokens_eq,
    hbraces.trans h.braces_eq, hdepth⟩
  simp [hword, h.word_eq, Atom.text]

/-- A character that is no bracket is pushed to the word that it can follow. -/
theorem Spells.readText_of_not_mem (h : s.Spells word t) (hc : (Atom.char c).Follows word)
    (hbracket : c ∉ ['(', ')', '[', ']']) : t.readText c = .ok (t.push c) := by
  obtain ⟨hplain, hblank, -, -⟩ := hc
  rw [← h.grouped_iff] at hblank
  simp only [List.mem_cons, List.not_mem_nil, or_false, not_or] at hplain hblank hbracket
  obtain ⟨hquote, hmark, hfeed, hsemicolon, hhash⟩ := hplain
  obtain ⟨hopenParen, hcloseParen, hopenBracket, hcloseBracket⟩ := hbracket
  have hbrace : c = '\x7b' ∨ c = '\x7d' → t.grouped = true :=
    fun hc => hblank (.inr (.inr (.inr hc)))
  rw [readText, if_neg hhash, if_neg (by simp [hquote, hmark])]
  by_cases hspace : (c = ' ' || c = '\t' || c = '\r') = true
  · have hgroup : t.grouped = true := by
      simp only [Bool.or_eq_true, decide_eq_true_eq, or_assoc] at hspace
      exact hblank (hspace.imp_right (.imp_right .inl))
    rw [if_pos hspace, if_pos hgroup]
  · have hopen : ¬(c = '\x7b' && !t.grouped) = true := by simpa using fun hc => hbrace (.inl hc)
    have hclose : ¬(c = '\x7d' && !t.grouped) = true := by simpa using fun hc => hbrace (.inr hc)
    rw [if_neg hspace, if_neg (by simp [hfeed, hsemicolon]), if_neg hopen, if_neg hclose,
      if_neg hopenParen, if_neg hopenBracket, if_neg hcloseParen, if_neg hcloseBracket]

/-- One more character of a word. -/
theorem Spells.char (h : s.Spells word t) (hc : (Atom.char c).Follows word) :
    ∃ u, t.step c = .ok u ∧ s.Spells (word ++ [.char c]) u := by
  by_cases hbracket : c ∈ ['(', ')', '[', ']']
  · rcases readText_bracket h.depth hbracket with ⟨_, _, hnot⟩ | ⟨parens, brackets, hread, hdepth⟩
    · exact absurd hc hnot
    · exact h.of_readText hread rfl rfl rfl rfl hdepth
  · refine h.of_readText (h.readText_of_not_mem hc hbracket) rfl rfl rfl rfl ?_
    exact h.depth.snoc_of_not_mem (by simpa using hbracket)

/-- One more atom of a word. -/
theorem Spells.atom {a : Atom} (h : s.Spells word t) (ha : a.Follows word) :
    ∃ u, a.text.foldlM step t = .ok u ∧ s.Spells (word ++ [a]) u := by
  by_cases hchar : ∃ c, a = .char c
  · obtain ⟨c, rfl⟩ := hchar
    obtain ⟨u, hstep, hspells⟩ := h.char ha
    exact ⟨u, foldlM_cons_ok hstep rfl, hspells⟩
  · have hliteral : ∀ c, a ≠ .char c := not_exists.mp hchar
    obtain ⟨u, hread, hcopies, hmode⟩ := foldlM_literal ha hliteral h.mode_eq
    refine ⟨u, hread, hmode, ?_, hcopies.tokens_eq.trans h.tokens_eq,
      hcopies.braces_eq.trans h.braces_eq, ?_⟩
    · simp [hcopies.word_eq, h.word_eq]
    · rw [hcopies.parens_eq, hcopies.brackets_eq]
      exact h.depth.snoc_of_not_mem (by simp [hliteral])

/-- A word is read atom by atom. -/
theorem exists_spells (hword : Spelled word) (hmode : s.mode = .text) (hnone : s.word = [])
    (hparens : s.parens = []) (hbrackets : s.brackets = []) :
    ∃ t, (word.flatMap Atom.text).foldlM step s = .ok t ∧ s.Spells word t := by
  induction word using List.reverseRecOn with
  | nil => exact ⟨s, rfl, hmode, hnone, rfl, rfl, by rw [hparens, hbrackets]; exact .nil⟩
  | append_singleton word a ih =>
    obtain ⟨t, hread, hspells⟩ := ih fun before b after h =>
      hword before b (after ++ [a]) (by rw [h, List.append_assoc, List.cons_append])
    obtain ⟨u, hread', hspells'⟩ := hspells.atom (hword word a [] rfl)
    refine ⟨u, ?_, hspells'⟩
    rw [List.flatMap_append, List.flatMap_singleton]
    exact foldlM_append_ok hread hread'

/-! ## Reading a token -/

/-- Whether a scan stands between words, after tokens of some kinds and with some blocks open. -/
structure Between (s : Scan) (kinds : List TokenKind) (depth : ℕ) : Prop where
  mode_eq : s.mode = .text
  word_eq : s.word = []
  parens_eq : s.parens = []
  brackets_eq : s.brackets = []
  length_braces : s.braces.length = depth
  kinds_eq : s.tokens.reverse.map Token.kind = kinds

/-- Whether a scan stands after tokens of some kinds, where the last one may be a word that has not
ended yet. -/
structure Behind (s : Scan) (kinds : List TokenKind) (depth : ℕ) : Prop where
  not_string : ∀ opened, s.mode ≠ .literal .string opened ∧ s.mode ≠ .literal .stringEscape opened
  parens_eq : s.parens = []
  brackets_eq : s.brackets = []
  length_braces : s.braces.length = depth
  kinds_eq : s.flush.tokens.reverse.map Token.kind = kinds

/-- Where there is no word, none is ended. -/
theorem flush_of_word_eq_nil (h : s.word = []) : s.flush = s := if_pos (by simp [h])

/-- A scan that stands between words stands after its tokens. -/
theorem Between.behind (h : s.Between kinds depth) : s.Behind kinds depth where
  not_string _ := by simp [h.mode_eq]
  parens_eq := h.parens_eq
  brackets_eq := h.brackets_eq
  length_braces := h.length_braces
  kinds_eq := by rw [flush_of_word_eq_nil h.word_eq, h.kinds_eq]

/-- A blank ends the word before it. -/
theorem Behind.blank (h : s.Behind kinds depth) (hmode : s.mode = .text) :
    ∃ t, s.step ' ' = .ok t ∧ t.Between kinds depth := by
  have hgroup : s.grouped = false := by simp [grouped, h.parens_eq, h.brackets_eq]
  have hread : s.read ' ' = .ok s.flush := by
    rw [Scan.read, hmode]
    simp [readText, hgroup]
  have hflush : s.flush = { s with word := [], tokens := s.flush.tokens } := by
    unfold flush
    split
    · next hword => rw [← List.isEmpty_iff.mp hword]
    · rfl
  refine ⟨_, congrArg (Except.map _) hread, ?_⟩
  rw [hflush]
  exact ⟨hmode, rfl, h.parens_eq, h.brackets_eq, h.length_braces, h.kinds_eq⟩

/-- The text may end after a token. -/
theorem Behind.finish (h : s.Behind kinds 0) (hlast : ∀ kind ∈ kinds.getLast?, kind ≠ .separator) :
    ∃ tokens, s.finish = .ok tokens ∧ tokens.map Token.kind = kinds := by
  have hgroup : s.unclosedGroup? = none := by
    rw [unclosedGroup?_eq_none_iff]
    simp [grouped, h.parens_eq, h.brackets_eq]
  have hbraces : s.braces = [] := List.eq_nil_of_length_eq_zero h.length_braces
  refine ⟨s.flush.tokens.reverse, ?_, h.kinds_eq⟩
  unfold Scan.finish
  split
  · next opened hmode => exact absurd hmode (h.not_string opened).1
  · next opened hmode => exact absurd hmode (h.not_string opened).2
  · rw [hgroup, hbraces]
    dsimp only
    split
    · next place tokens hflush =>
      refine absurd rfl (hlast .separator ?_)
      simp [← h.kinds_eq, hflush]
    · rfl

/-- A word is read up to its end, and it goes on if it does not break off. -/
theorem Between.read_word {cut : List Char} (h : s.Between kinds depth)
    (hfits : (Piece.word word cut).Fits) :
    ∃ t, (Piece.word word cut).text.foldlM step s = .ok t ∧
      t.Behind (kinds ++ [.word (String.ofList (Piece.word word cut).text)]) depth ∧
      (cut = [] → t.mode = .text) := by
  obtain ⟨hspelled, hgroup, hcut, hne⟩ := hfits
  obtain ⟨t, hread, hspells⟩ :=
    exists_spells hspelled h.mode_eq h.word_eq h.parens_eq h.brackets_eq
  have hclosed : t.parens = [] ∧ t.brackets = [] := by
    simpa [hspells.depth.grouped_iff] using hgroup
  have htokens (u : Scan) (hcopies : t.Copies u cut) :
      u.flush.tokens.reverse.map Token.kind =
        kinds ++ [.word (String.ofList (Piece.word word cut).text)] := by
    have hword : u.word.reverse = (Piece.word word cut).text := by
      simp [hcopies.word_eq, hspells.word_eq, Piece.text]
    have hsome : u.word.isEmpty = false := by
      rw [List.isEmpty_eq_false_iff, ← List.reverse_ne_nil_iff, hword]
      exact hne
    simp [flush, hsome, hword, hcopies.tokens_eq, hspells.tokens_eq, ← h.kinds_eq]
  have hbehind (u : Scan) (hcopies : t.Copies u cut)
      (hstring : ∀ opened, u.mode ≠ .literal .string opened ∧
        u.mode ≠ .literal .stringEscape opened) :
      u.Behind (kinds ++ [.word (String.ofList (Piece.word word cut).text)]) depth :=
    ⟨hstring, hcopies.parens_eq.trans hclosed.1, hcopies.brackets_eq.trans hclosed.2,
      by rw [hcopies.braces_eq, hspells.braces_eq, h.length_braces], htokens u hcopies⟩
  simp only [List.mem_cons, List.not_mem_nil, or_false] at hcut
  rcases hcut with rfl | rfl | rfl
  · refine ⟨t, by rw [Piece.text, List.append_nil]; exact hread, hbehind t (.refl t) ?_,
      fun _ => hspells.mode_eq⟩
    simp [hspells.mode_eq]
  · obtain ⟨u, hquote, hcopies, hmode⟩ := step_quote hspells.mode_eq (.inr rfl)
    refine ⟨u, foldlM_append_ok hread (foldlM_cons_ok hquote rfl), hbehind u hcopies ?_, by simp⟩
    simp [hmode, LiteralMode.step]
  · obtain ⟨t', hquote, hcopies, hmode⟩ := step_quote hspells.mode_eq (.inr rfl)
    obtain ⟨u, hescape, hcopies', hmode'⟩ := step_literal hmode '\\'
    refine ⟨u, foldlM_append_ok hread (foldlM_cons_ok hquote (foldlM_cons_ok hescape rfl)),
      hbehind u (hcopies.trans hcopies') ?_, by simp⟩
    simp [hmode', LiteralMode.step]

/-- The piece of a token is read as it stands. A separator must not follow another one, and a block
must be open where one is closed. -/
theorem Between.read_piece {piece : Piece} (h : s.Between kinds depth) (hfits : piece.Fits)
    (hkind : piece.kind? = some kind) (hdepth : kind.depthAfter? depth = some depth')
    (hapart : ∀ last ∈ kinds.getLast?, ¬(last = .separator ∧ kind = .separator)) :
    ∃ t, kind.value.toList.foldlM step s = .ok t ∧ t.Behind (kinds ++ [kind]) depth' ∧
      (¬piece.IsCut → t.mode = .text) := by
  have hgroup : s.grouped = false := by simp [grouped, h.parens_eq, h.brackets_eq]
  have hflush := flush_of_word_eq_nil h.word_eq
  -- What a delimiter of one character leaves, if it adds its token and changes the blocks.
  have hdelimit (c : Char) (braces : List Position) (hlength : braces.length = depth')
      (hread : s.readText c = .ok { s.delimit kind with braces }) :
      ∃ t, [c].foldlM step s = .ok t ∧ t.Behind (kinds ++ [kind]) depth' ∧
        (¬piece.IsCut → t.mode = .text) := by
    have hread' : s.read c = .ok { s.delimit kind with braces } := by
      rw [Scan.read, h.mode_eq, hread]
    have hbetween : Between { s.delimit kind with braces, pos := s.pos.after c } (kinds ++ [kind])
        depth' := by
      simp only [delimit, hflush]
      exact ⟨h.mode_eq, h.word_eq, h.parens_eq, h.brackets_eq, hlength, by simp [← h.kinds_eq]⟩
    exact ⟨_, foldlM_cons_ok (congrArg (Except.map _) hread') rfl, hbetween.behind,
      fun _ => hbetween.mode_eq⟩
  cases piece with
  | blank | comment => cases hkind
  | word atoms cut =>
    cases hkind
    cases hdepth
    obtain ⟨t, hread, hbehind, hmode⟩ := h.read_word hfits
    refine ⟨t, by simpa [TokenKind.value] using hread, hbehind, fun hcut => hmode ?_⟩
    exact not_not.mp hcut
  | blockOpen =>
    cases hkind
    cases hdepth
    exact hdelimit '\x7b' (s.pos :: s.braces) (by simp [h.length_braces])
      (by simp [readText, hgroup])
  | blockClose =>
    cases hkind
    rw [TokenKind.depthAfter?] at hdepth
    split at hdepth
    · cases hdepth
    · next hdeep =>
      cases hdepth
      obtain ⟨p, braces, hbraces⟩ : ∃ p braces, s.braces = p :: braces :=
        List.exists_cons_of_length_pos (by rw [h.length_braces]; omega)
      have hlength := h.length_braces
      rw [hbraces, List.length_cons] at hlength
      exact hdelimit '\x7d' braces (by omega) (by simp [readText, hgroup, hbraces])
  | separator c =>
    cases hkind
    cases hdepth
    have hseparate : s.separate = s.delimit .separator := by
      unfold separate
      split
      · next place rest htokens =>
        refine absurd ⟨rfl, rfl⟩ (hapart .separator ?_)
        rw [hflush] at htokens
        simp [← h.kinds_eq, htokens]
      · rfl
    have hbraces : (s.delimit .separator).braces = s.braces := by rw [delimit, hflush]
    refine hdelimit '\n' s.braces h.length_braces ?_
    have hclosed := unclosedGroup?_eq_none_iff.mpr hgroup
    simp only [readText, hclosed, hseparate, ← hbraces]
    rfl

/-! ## Reading tokens in order -/

/-- Tokens that are written with single blanks between them are read back one by one. -/
theorem Between.read_tokens {tokens : List Token} (h : s.Between kinds depth) (hne : tokens ≠ [])
    (hwritten : ∀ t ∈ tokens, t.kind.IsWritten)
    (hwhole : tokens.Pairwise fun t _ => t.kind.IsWhole)
    (hapart : (kinds ++ tokens.map Token.kind).IsChain
      fun k l => ¬(k = .separator ∧ l = .separator))
    (hdepth : Token.depthAfter? depth tokens = some depth') :
    ∃ t, ([' '].intercalate (tokens.map fun t => t.value.toList)).foldlM step s = .ok t ∧
      t.Behind (kinds ++ tokens.map Token.kind) depth' := by
  induction tokens generalizing s kinds depth with
  | nil => exact absurd rfl hne
  | cons first rest ih =>
    rw [Token.depthAfter?_cons, Option.bind_eq_some_iff] at hdepth
    obtain ⟨inner, hinner, hrest⟩ := hdepth
    have hlast : ∀ last ∈ kinds.getLast?, ¬(last = .separator ∧ first.kind = .separator) :=
      fun last hlast => (List.isChain_append.mp hapart).2.2 last hlast first.kind rfl
    cases rest with
    | nil =>
      cases hrest
      obtain ⟨piece, hfits, hkind⟩ := hwritten first (by simp)
      obtain ⟨t, hread, hbehind, _⟩ := h.read_piece hfits hkind hinner hlast
      have hsingle : [' '].intercalate [first.value.toList] = first.value.toList := by
        simp [List.intercalate]
      exact ⟨t, by rw [List.map_singleton, hsingle]; exact hread, hbehind⟩
    | cons second rest =>
      obtain ⟨piece, hfits, hkind, hcut⟩ := (List.pairwise_cons.mp hwhole).1 second (by simp)
      obtain ⟨t, hread, hbehind, hmode⟩ := h.read_piece hfits hkind hinner hlast
      obtain ⟨t', hblank, hbetween⟩ := hbehind.blank (hmode hcut)
      rw [List.map_cons, List.append_cons] at hapart
      obtain ⟨u, hread', hbehind'⟩ := ih hbetween (by simp)
        (fun t ht => hwritten t (List.mem_cons_of_mem _ ht)) hwhole.tail hapart hrest
      refine ⟨u, ?_, by simpa using hbehind'⟩
      rw [List.map_cons, List.map_cons, List.intercalate_cons_cons, List.append_assoc]
      exact foldlM_append_ok hread (foldlM_append_ok (foldlM_cons_ok hblank rfl) hread')

end Scan

/-- **Tokens can be read again.** If a text has tokens, then these, written down one after the other
with a single blank between any two and a line feed for each separator, are a text with tokens of
the same kinds and values. -/
theorem tokenize_respaced {source : String} {tokens : List Token}
    (h : tokenize source = .ok tokens) :
    ∃ tokens', tokenize (" ".intercalate (tokens.map Token.value)) = .ok tokens' ∧
      tokens'.map Token.kind = tokens.map Token.kind ∧
      tokens'.map Token.value = tokens.map Token.value := by
  obtain ⟨pieces, hlayout, _, htokens⟩ := exists_layout_of_tokenize h
  have hsublist : tokens.Sublist (Piece.tokens .start pieces) :=
    htokens ▸ Token.condense_sublist _
  by_cases hnone : tokens = []
  · subst hnone
    exact ⟨[], rfl, rfl, rfl⟩
  have hbetween : Scan.Between {} [] 0 := ⟨rfl, rfl, rfl, rfl, rfl, rfl⟩
  have hapart : (tokens.map Token.kind).IsChain fun k l => ¬(k = .separator ∧ l = .separator) :=
    (List.isChain_map _).mpr (htokens ▸ Token.isChain_condense _)
  obtain ⟨s, hread, hbehind⟩ := hbetween.read_tokens hnone
    (fun t ht => hlayout.isWritten (hsublist.subset ht))
    ((hlayout.pairwise_isWhole _).sublist hsublist) hapart (depthAfter?_of_tokenize h)
  obtain ⟨tokens', hfinish, hkinds⟩ := hbehind.finish (fun kind hkind hseparator => by
    obtain ⟨t, ht, rfl⟩ : ∃ t ∈ tokens.getLast?, t.kind = kind := by simpa using hkind
    exact Token.kind_ne_of_mem_getLast?_condense (htokens ▸ ht) hseparator)
  refine ⟨tokens', bind_eq_ok_iff.mpr ⟨s, ?_, hfinish⟩, hkinds, ?_⟩
  · rw [String.toList_intercalate, List.map_map]
    exact hread
  · have hvalues := congrArg (List.map TokenKind.value) hkinds
    rwa [List.nil_append, List.map_map, List.map_map] at hvalues

/-- A text with several separators, a group, a block, a string and a literal that breaks off. -/
theorem tokenize_respaced_cut :
    let source := ";f\t(1 \x7b  2)#c\n\n\x7b g \"; #\" \x7d h'\\"
    let values := ["\n", "f", "(1 \x7b  2)", "\n", "\x7b", "g", "\"; #\"", "\x7d", "h'\\"]
    (∃ tokens, tokenize source = .ok tokens ∧ tokens.map Token.value = values) ∧
      ∃ tokens, tokenize (" ".intercalate values) = .ok tokens ∧
        tokens.map Token.value = values := by
  intro source values
  have hmap : (tokenize source).map (·.map Token.value) = .ok values := by decide +kernel
  obtain ⟨tokens, htokens, hvalues⟩ := map_eq_ok_iff.mp hmap
  obtain ⟨tokens', htokens', _, hvalues'⟩ := tokenize_respaced htokens
  exact ⟨⟨tokens, htokens, hvalues⟩, tokens', hvalues ▸ htokens', hvalues'.trans hvalues⟩

end Logo
