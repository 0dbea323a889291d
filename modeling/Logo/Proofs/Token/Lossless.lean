import Logo.Proofs.Token.Scan

/-!
# Tokens and their text

Nothing of a program text is lost on the way to its tokens: the text falls into pieces, and the
tokens are those pieces that are neither blanks nor comments, in order and with their places.
-/

namespace Logo

namespace Scan

variable {s : Scan} {read : List Char}

/-- A scan that can end leaves no string and no group open, and drops the last token if it is a
separator. -/
theorem of_finish_eq_ok {tokens : List Token} (h : s.finish = .ok tokens) :
    (∀ opened, s.mode ≠ .literal .string opened ∧ s.mode ≠ .literal .stringEscape opened) ∧
      s.grouped = false ∧
      ((∃ place, s.flush.tokens = ⟨.separator, place⟩ :: tokens.reverse) ∨
        s.flush.tokens = tokens.reverse ∧ ∀ t ∈ s.flush.tokens.head?, t.kind ≠ .separator) := by
  unfold finish at h
  split at h
  · cases h
  · cases h
  · next hstring hescape =>
    split at h
    · cases h
    · cases h
    · next hnone _ =>
      refine ⟨fun opened => ⟨hstring opened, hescape opened⟩,
        unclosedGroup?_eq_none_iff.mp hnone, ?_⟩
      split at h
      · next place rest hflush =>
        cases h
        exact .inl ⟨place, by simpa using hflush⟩
      · next hlast =>
        cases h
        refine .inr ⟨by simp, fun t ht hkind => ?_⟩
        obtain ⟨kind, place⟩ := t
        obtain rfl : kind = .separator := hkind
        obtain ⟨rest, hrest⟩ := List.head?_eq_some_iff.mp ht
        exact hlast place rest hrest

/-- At the end the whole text falls into pieces. -/
theorem At.exists_flush (h : s.At read)
    (hstring : ∀ opened, s.mode ≠ .literal .string opened ∧ s.mode ≠ .literal .stringEscape opened)
    (hgroup : s.grouped = false) :
    ∃ pieces, s.flush.Reads pieces [] [] ∧ pieces.flatMap Piece.text = read := by
  cases h with
  | text hmode hreads hopen htext =>
    obtain ⟨pieces', hflush, htext', _⟩ := hreads.flush hopen (by simp)
      (hreads.grouped_iff.not.mp (by simp [hgroup]))
    exact ⟨pieces', hflush, by simp [htext, htext']⟩
  | @literal _ _ tail mode opened hmode hbegun hreads hopen htext =>
    have hcut : tail ∈ [[], ['\''], ['\'', '\\']] := by
      cases mode with
      | outside => exact hbegun.elim
      | string => exact absurd hmode (hstring opened).1
      | stringEscape => exact absurd hmode (hstring opened).2
      | character | characterEscape => simp [show tail = _ from hbegun]
    obtain ⟨pieces', hflush, htext', _⟩ := hreads.flush hopen hcut
      (hreads.grouped_iff.not.mp (by simp [hgroup]))
    exact ⟨pieces', hflush, by rw [htext, htext']⟩
  | @comment pieces body hmode hreads htext =>
    have hflush : s.flush = s := if_pos (by simpa using hreads.word_eq)
    exact ⟨pieces ++ [.comment body], hflush ▸ hreads, by simp [htext, Piece.text]⟩
  | stuck _ hgrouped => exact absurd (hgrouped.symm.trans hgroup) (by decide)

end Scan

/-- The tokens of a program text are those of its layout. -/
theorem exists_layout_of_tokenize {source : String} {tokens : List Token}
    (h : tokenize source = .ok tokens) :
    ∃ pieces, Layout pieces ∧ pieces.flatMap Piece.text = source.toList ∧
      tokens = Token.condense (Piece.tokens .start pieces) := by
  obtain ⟨s, hrun, hfinish⟩ := bind_eq_ok_iff.mp h
  have hstart : Scan.At {} [] :=
    .text rfl ⟨rfl, fun hne => absurd rfl hne, rfl, .nil, .nil, .nil⟩ nofun rfl
  have hat : s.At source.toList := hstart.foldlM rfl hrun
  obtain ⟨hstring, hgroup, htokens⟩ := Scan.of_finish_eq_ok hfinish
  obtain ⟨pieces, hreads, htext⟩ := hat.exists_flush hstring hgroup
  refine ⟨pieces, hreads.layout, htext, Eq.symm ?_⟩
  have hkept : (Piece.tokens .start pieces).destutter Token.Apart = s.flush.tokens.reverse := by
    rw [hreads.tokens_eq, Piece.kept, List.reverse_reverse]
  rcases htokens with ⟨place, hflush⟩ | ⟨hflush, hlast⟩
  · refine Token.condense_eq_of_concat (t := ⟨.separator, place⟩) ?_ rfl
    rw [hkept, hflush, List.reverse_cons, List.reverse_reverse]
  · refine Token.condense_eq_of_last ?_ ?_
    · rw [hkept, hflush, List.reverse_reverse]
    · rwa [hflush, List.head?_reverse] at hlast

/-- **Tokens lose nothing of the text.** Let a program text have tokens. The text falls into pieces
that follow each other without a gap. What is not a word or block delimiter is a blank outside
literals and groups, a line feed or semicolon that separates statements, or a comment up to the end
of its line. The tokens are those of the pieces, where one separator stands for several in a row and
none is kept at the end. So each token other than a separator is the part of the text that begins at
its place, the places increase, and the parts do not overlap. A word is not empty and cannot be
taken for a block delimiter or a separator. -/
theorem tokenize_is_lossless {source : String} {tokens : List Token}
    (h : tokenize source = .ok tokens) :
    (∃ pieces, Layout pieces ∧ pieces.flatMap Piece.text = source.toList ∧
      tokens = Token.condense (Piece.tokens .start pieces)) ∧
    (∀ t ∈ tokens, t.kind ≠ .separator → ∃ before after,
      source.toList = before ++ t.value.toList ++ after ∧ t.pos = Position.start.advance before) ∧
    tokens.Pairwise (fun t u =>
      t.pos < u.pos ∧ (t.kind ≠ .separator → t.pos.advance t.value.toList ≤ u.pos)) ∧
    (∀ text pos, ⟨.word text, pos⟩ ∈ tokens → text ∉ ["", "\x7b", "\x7d", "\n"]) ∧
    tokens.IsChain Token.Apart ∧ ∀ t ∈ tokens.getLast?, t.kind ≠ .separator := by
  obtain ⟨pieces, hlayout, htext, htokens⟩ := exists_layout_of_tokenize h
  have hsublist : tokens.Sublist (Piece.tokens .start pieces) :=
    htokens ▸ Token.condense_sublist _
  refine ⟨⟨pieces, hlayout, htext, htokens⟩, fun t ht hkind => ?_, ?_, fun text pos ht => ?_, ?_,
    ?_⟩
  · obtain ⟨before, piece, after, rfl, hpiece, hpos⟩ :=
      Piece.exists_of_mem_tokens (hsublist.subset ht)
    refine ⟨before.flatMap Piece.text, after.flatMap Piece.text, ?_, hpos⟩
    rw [← htext, Token.value, Piece.toList_value hpiece hkind]
    simp
  · exact (Piece.pairwise_tokens hlayout.fits _).sublist hsublist
  · obtain ⟨before, piece, after, rfl, hpiece, hpos⟩ :=
      Piece.exists_of_mem_tokens (hsublist.subset ht)
    exact (hlayout.fits piece (by simp)).not_mem_of_word hpiece
  · exact htokens ▸ Token.isChain_condense _
  · exact htokens ▸ fun t ht => Token.kind_ne_of_mem_getLast?_condense ht

/-- A text with a group, a block, a string, a comment, several separators and a character
literal. -/
theorem tokenize_is_lossless_block :
    let source := "f (1 + 2) \x7b g \"a ; b\" # c\n\n ; '; \x7d\n"
    let tokens : List Token := [⟨.word "f", ⟨1, 1⟩⟩, ⟨.word "(1 + 2)", ⟨1, 3⟩⟩,
      ⟨.blockOpen, ⟨1, 11⟩⟩, ⟨.word "g", ⟨1, 13⟩⟩, ⟨.word "\"a ; b\"", ⟨1, 15⟩⟩,
      ⟨.separator, ⟨1, 26⟩⟩, ⟨.word "';", ⟨3, 4⟩⟩, ⟨.blockClose, ⟨3, 7⟩⟩]
    tokenize source = .ok tokens ∧
      (∃ pieces, Layout pieces ∧ pieces.flatMap Piece.text = source.toList ∧
        tokens = Token.condense (Piece.tokens .start pieces)) ∧
      tokens.Pairwise fun t u => t.pos < u.pos := by
  intro source tokens
  have htokens : tokenize source = .ok tokens := by decide
  obtain ⟨hlayout, _, hpairwise, _⟩ := tokenize_is_lossless htokens
  exact ⟨htokens, hlayout, hpairwise.imp And.left⟩

end Logo
