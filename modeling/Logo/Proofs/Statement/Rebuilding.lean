import Logo.Interpreter.Run
import Logo.Proofs.Expression.Respelling
import Logo.Proofs.Token.Lossless
import Logo.Proofs.Token.Words

/-!
# Expressions rebuilt from words

A statement that is evaluated as an expression is put together from its words, with single spaces
between them. Where the tokens of an expression are words only, the text that is rebuilt from them
has the same atoms: words leave no literal and no bracket open, and blanks outside of these only end
atoms. A separator or a comment behind the words would be part of an atom that cannot be read, other
than a path in which a name is replaced.
-/

namespace Logo

/-! ## Words leave nothing open -/

namespace Atom

variable {before : List Atom}

/-- What can stand between double quotes is left at the next one. -/
theorem after_stringBody {body : List Char} (h : IsStringBody body) (depth : ℕ) :
    Enclosure.after ⟨.string, depth⟩ (body ++ ['"']) = ⟨.outside, depth⟩ := by
  fun_induction IsStringBody body with
  | case1 => rfl
  | case2 => exact h.elim
  | case3 c body ih => exact ih h
  | case4 c body hescape hescapes ih =>
    have hc : c ≠ '\\' := by
      rintro rfl
      cases body with
      | nil => exact hescape rfl rfl
      | cons d body => exact hescapes d body rfl rfl
    have hstep : Enclosure.read ⟨.string, depth⟩ c = ⟨.string, depth⟩ := by
      rw [Enclosure.read_of_mode_ne (by simp)]
      simp [LiteralMode.step, hc, h.1]
    rw [List.cons_append, Enclosure.after_cons, hstep, ih h.2]

/-- An atom changes the enclosure by its bracket, if it is one. -/
theorem exists_after_text {a : Atom} (h : a.Follows before) {depth : ℕ}
    (hdepth : depth + before.count (char ']') = before.count (char '[')) :
    ∃ depth', depth' + (before ++ [a]).count (char ']') = (before ++ [a]).count (char '[') ∧
      Enclosure.after ⟨.outside, depth⟩ a.text = ⟨.outside, depth'⟩ := by
  cases a with
  | char c =>
    obtain ⟨hc, _, _, hclose⟩ := h
    by_cases hopen : c = '['
    · subst hopen
      exact ⟨depth + 1, by simp; omega, rfl⟩
    by_cases hbracket : c = ']'
    · subst hbracket
      have hlt := hclose rfl
      exact ⟨depth - 1, by simp; omega, rfl⟩
    · have hplain : c ∉ ['"', '\'', '[', ']'] := by
        simp only [List.mem_cons, List.not_mem_nil, or_false, not_or] at hc ⊢
        exact ⟨hc.1, hc.2.1, hopen, hbracket⟩
      refine ⟨depth, by simpa [hopen, hbracket] using hdepth, ?_⟩
      exact Enclosure.read_of_not_mem (n := ⟨.outside, depth⟩) rfl hplain
  | string body => exact ⟨depth, by simpa using hdepth, after_stringBody h depth⟩
  | character body =>
    refine ⟨depth, by simpa using hdepth, ?_⟩
    obtain ⟨c, hc, rfl⟩ | ⟨c, rfl⟩ := h
    · have hstep : Enclosure.read ⟨.character, depth⟩ c = ⟨.outside, depth⟩ := by
        rw [Enclosure.read_of_mode_ne (by simp)]
        simp [LiteralMode.step, hc]
      exact hstep
    · rfl

end Atom

/-- A word that can be spelled can be spelled without its last atom, which can follow the others. -/
theorem Spelled.of_append_singleton {word : List Atom} {a : Atom} (h : Spelled (word ++ [a])) :
    Spelled word ∧ a.Follows word :=
  ⟨fun before b after heq => h before b (after ++ [a]) (by simp [heq]), h word a [] rfl⟩

/-- Behind the atoms of a word, only brackets are open. -/
theorem Spelled.exists_after {word : List Atom} (h : Spelled word) :
    ∃ depth, depth + word.count (.char ']') = word.count (.char '[') ∧
      Enclosure.top.after (word.flatMap Atom.text) = ⟨.outside, depth⟩ := by
  induction word using List.reverseRecOn with
  | nil => exact ⟨0, rfl, rfl⟩
  | append_singleton word a ih =>
    obtain ⟨hword, ha⟩ := h.of_append_singleton
    obtain ⟨depth, hdepth, hafter⟩ := ih hword
    obtain ⟨depth', hdepth', hafter'⟩ := Atom.exists_after_text ha hdepth
    exact ⟨depth', hdepth', by simp [hafter, hafter']⟩

namespace Piece

/-- Whether no literal of a piece is cut off by the end of the text. -/
def IsClosed : Piece → Prop
  | word _ cut => cut = []
  | _ => True

/-- Behind a word, nothing is open but the literal that is cut off. -/
theorem Fits.after_word {atoms : List Atom} {cut : List Char} (h : (word atoms cut).Fits) :
    Enclosure.top.after (word atoms cut).text = Enclosure.top.after cut := by
  obtain ⟨hspelled, hgrouped, _⟩ := h
  obtain ⟨depth, hdepth, hafter⟩ := hspelled.exists_after
  have hzero : depth = 0 := by
    rw [Atom.Grouped, not_or] at hgrouped
    omega
  rw [text, Enclosure.after_append, hafter, hzero]
  rfl

/-- A blank between words is a blank between atoms too. -/
theorem Fits.isBlank {c : Char} (h : (blank c).Fits) : Text.isBlank c = true := by
  simp only [Fits, List.mem_cons, List.not_mem_nil, or_false] at h
  rcases h with rfl | rfl | rfl <;> rfl

/-- A closed word and a blank leave nothing open. -/
theorem Fits.after_text {piece : Piece} (h : piece.Fits) (hplain : piece.IsPlain)
    (hclosed : piece.IsClosed) : Enclosure.top.after piece.text = .top := by
  cases piece with
  | word atoms cut => rw [h.after_word, show cut = [] from hclosed, Enclosure.after_nil]
  | blank c => exact Enclosure.read_of_ends (.inl h.isBlank)
  | blockOpen | blockClose | separator | comment => exact hplain.elim

/-- Closed pieces leave a reader outside of all literals and brackets. -/
theorem after_flatMap_text {pieces : List Piece}
    (h : ∀ piece ∈ pieces, piece.Fits ∧ piece.IsPlain ∧ piece.IsClosed) :
    Enclosure.top.after (pieces.flatMap text) = .top := by
  induction pieces with
  | nil => rfl
  | cons piece pieces ih =>
    obtain ⟨⟨hfits, hplain, hclosed⟩, hpieces⟩ := List.forall_mem_cons.mp h
    rw [List.flatMap_cons, Enclosure.after_append, hfits.after_text hplain hclosed, ih hpieces]

end Piece

/-- Only at the end of a text a literal is cut off. -/
theorem Layout.isClosed_of_append {pieces rest : List Piece} (h : Layout (pieces ++ rest))
    (hrest : rest ≠ []) : ∀ piece ∈ pieces, piece.IsClosed := by
  intro piece hpiece
  obtain ⟨before, after, rfl⟩ := List.append_of_mem hpiece
  obtain ⟨next, hnext⟩ : ∃ next, (after ++ rest).head? = some next := by
    cases after with
    | nil => exact ⟨rest.head hrest, by simp [List.head?_eq_some_head hrest]⟩
    | cons next after => exact ⟨next, rfl⟩
  have hchain := h.precedes
  rw [List.append_assoc, List.cons_append] at hchain
  have hprecedes : piece.Precedes next :=
    (List.isChain_cons.mp hchain.right_of_append).1 next hnext
  cases piece with
  | word atoms cut => exact hprecedes.1
  | blockOpen | blockClose | separator | blank | comment => trivial

/-- Words and blanks that leave nothing open have no literal that is cut off. -/
theorem Layout.isClosed_of_after {pieces : List Piece} (h : Layout pieces)
    (hplain : ∀ piece ∈ pieces, piece.IsPlain)
    (hafter : Enclosure.top.after (pieces.flatMap Piece.text) = .top) :
    ∀ piece ∈ pieces, piece.IsClosed := by
  rcases List.eq_nil_or_concat' pieces with rfl | ⟨init, last, rfl⟩
  · simp
  have hinit := h.isClosed_of_append (List.cons_ne_nil last [])
  have hbefore : Enclosure.top.after (init.flatMap Piece.text) = .top :=
    Piece.after_flatMap_text fun piece hpiece =>
      ⟨h.fits piece (List.mem_append_left _ hpiece), hplain piece (List.mem_append_left _ hpiece),
        hinit piece hpiece⟩
  rw [List.flatMap_append, Enclosure.after_append, hbefore, List.flatMap_singleton] at hafter
  refine List.forall_mem_append.mpr ⟨hinit, List.forall_mem_singleton.mpr ?_⟩
  cases last with
  | word atoms cut =>
    have hfits := h.fits (.word atoms cut) (by simp)
    rw [hfits.after_word] at hafter
    have hcut := hfits.2.2.1
    simp only [List.mem_cons, List.not_mem_nil, or_false] at hcut
    rcases hcut with rfl | rfl | rfl
    · rfl
    · cases hafter
    · cases hafter
  | blockOpen | blockClose | separator | blank | comment => trivial

/-! ## Joined words -/

/-- A statement without blocks is put together from its words. -/
theorem Statement.expression?_eq_some {s : Statement} {arguments : List String}
    (h : s.arguments = arguments.map .text) :
    s.expression? = some (" ".intercalate (s.label :: arguments)) := by
  obtain ⟨label, _, target, pos⟩ := s
  subst h
  simp only [expression?]
  induction arguments generalizing label with
  | nil => simp
  | cons a arguments ih =>
    have hnext := ih (label ++ " " ++ a)
    rw [String.intercalate_cons_append, ← String.intercalate_cons_cons] at hnext
    exact hnext

/-- A pair of characters is not torn apart by a third one. -/
theorem infix_or_infix_of_append_cons {a b c : Char} {x y : List Char} (ha : a ≠ c) (hb : b ≠ c)
    (h : [a, b] <:+: x ++ c :: y) : [a, b] <:+: x ∨ [a, b] <:+: y := by
  induction x with
  | nil =>
    rcases List.infix_cons_iff.mp h with hprefix | hpair
    · exact absurd (List.cons_prefix_cons.mp hprefix).1 ha
    · exact .inr hpair
  | cons d x ih =>
    rcases List.infix_cons_iff.mp h with hprefix | hpair
    · obtain ⟨rfl, hrest⟩ := List.cons_prefix_cons.mp hprefix
      cases x with
      | nil => exact absurd (List.cons_prefix_cons.mp hrest).1 hb
      | cons d x =>
        obtain ⟨rfl, _⟩ := List.cons_prefix_cons.mp hrest
        exact .inl ⟨[], x, rfl⟩
    · exact (ih hpair).imp_left List.infix_cons

/-- Words without a pair of characters do not get it when they are joined. -/
theorem not_infix_intercalate {a b : Char} (ha : a ≠ ' ') (hb : b ≠ ' ') {words : List String}
    (h : ∀ word ∈ words, ¬[a, b] <:+: word.toList) :
    ¬[a, b] <:+: (" ".intercalate words).toList := by
  induction words with
  | nil => simp
  | cons word words ih =>
    obtain ⟨hword, hwords⟩ := List.forall_mem_cons.mp h
    by_cases hne : words = []
    · simpa [hne] using hword
    · rw [String.intercalate_cons_of_ne_nil hne, String.toList_append, String.toList_append,
        List.append_assoc]
      intro hpair
      exact (infix_or_infix_of_append_cons ha hb hpair).elim hword (ih hwords)

/-- Joined words are cut like the words and blanks that they come from. -/
theorem Layout.exists_foldlM_intercalate {pieces : List Piece} (h : Layout pieces)
    (hplain : ∀ piece ∈ pieces, piece.IsPlain) (hclosed : ∀ piece ∈ pieces, piece.IsClosed)
    {s : Cutting} (hrun : (pieces.flatMap Piece.text).foldlM Cutting.read {} = some s) :
    ∃ t, (" ".intercalate ((Piece.tokens .start pieces).map Token.value)).toList.foldlM
        Cutting.read {} = some t ∧ t.flush = s.flush ∧
      ((∀ atoms cut, .word atoms cut ∉ pieces.getLast?) → s = t.flush) := by
  induction pieces using List.reverseRecOn generalizing s with
  | nil =>
    cases hrun
    exact ⟨{}, rfl, rfl, fun _ => rfl⟩
  | append_singleton pieces piece ih =>
    obtain ⟨hpieces, hlast⟩ := h.of_snoc
    have hplainLast : piece.IsPlain := hplain piece (by simp)
    replace hplain := fun q hq => hplain q (List.mem_append_left [piece] hq)
    replace hclosed := fun q hq => hclosed q (List.mem_append_left [piece] hq)
    rw [List.flatMap_append, List.foldlM_append] at hrun
    obtain ⟨u, hbefore, hpiece⟩ := Option.bind_eq_some_iff.mp hrun
    obtain ⟨t, ht, hflush, hblank⟩ := ih hpieces hplain hclosed hbefore
    have htop : u.enclosure = .top := by
      rw [Cutting.enclosure_of_foldlM hbefore]
      exact Piece.after_flatMap_text fun piece hmem =>
        ⟨hpieces.fits piece hmem, hplain piece hmem, hclosed piece hmem⟩
    rw [List.flatMap_singleton] at hpiece
    cases piece with
    | blank c =>
      have hc : Text.isBlank c = true := (h.fits (.blank c) (by simp)).isBlank
      have hs : u.flush = s := by
        simpa [Piece.text, Cutting.read_blank htop hc] using hpiece
      subst hs
      exact ⟨t, by rwa [Piece.tokens_concat_of_none rfl], by simp [hflush], fun _ => hflush.symm⟩
    | word atoms cut =>
      have hstart : u = t.flush := hblank fun _ _ hmem => (hlast _ hmem).2 atoms cut rfl
      refine ⟨s, ?_, rfl, fun hnot => absurd (by simp) (hnot atoms cut)⟩
      rw [Piece.tokens_concat_of_some rfl, List.map_append, List.map_singleton]
      have hvalue : (Token.value ⟨.word (String.ofList (Piece.word atoms cut).text),
          Position.start.advance (pieces.flatMap Piece.text)⟩).toList =
            (Piece.word atoms cut).text := String.toList_ofList
      by_cases hnone : (Piece.tokens .start pieces).map Token.value = []
      · -- The first word has no space in front of it.
        rw [hnone] at ht ⊢
        cases ht
        rw [hstart] at hpiece
        rw [List.nil_append, String.intercalate_singleton, hvalue]
        exact hpiece
      · have hread : t.read ' ' = some t.flush :=
          Cutting.read_blank (by simpa [hstart] using htop) rfl
        rw [String.intercalate_append_of_ne_nil hnone (by simp), String.intercalate_singleton,
          String.toList_append, String.toList_append, List.foldlM_append, List.foldlM_append, ht,
          hvalue]
        simpa [hread, ← hstart] using hpiece
    | blockOpen | blockClose | separator | comment => exact hplainLast.elim

/-! ## Behind the words -/

/-- What follows the words and blanks of a text leaves the atoms as they are, or a `;` or the `#` of
a comment becomes part of an atom outside of literals and brackets. -/
theorem Cutting.atoms_eq_or_stray {tail : List Piece}
    (htail : ∀ piece ∈ tail, piece.Fits ∧ piece.IsTrailing) {s t : Cutting}
    (hs : s.enclosure = .top) (hatom : Enclosure.top.after s.atom.reverse = .top)
    (hrun : (tail.flatMap Piece.text).foldlM read s = some t) {atoms : List String}
    (hfinish : t.finish? = some atoms) :
    s.flush.atoms = atoms ∨
      (∃ x y, String.ofList (x ++ '#' :: y) ∈ atoms ∧ Enclosure.top.after x = .top) ∨
      ∃ x, String.ofList (x ++ [';']) ∈ atoms ∧ Enclosure.top.after x = .top := by
  induction tail generalizing s with
  | nil =>
    cases hrun
    exact .inl (finish?_eq_some_iff.mp hfinish).2
  | cons piece tail ih =>
    obtain ⟨⟨hfits, htrailing⟩, hothers⟩ := List.forall_mem_cons.mp htail
    rw [List.flatMap_cons] at hrun
    have hblank {c : Char} (hc : Text.isBlank c = true)
        (h : ([c] ++ tail.flatMap Piece.text).foldlM read s = some t) :=
      ih (s := s.flush) hothers hs rfl (by simpa [read_blank hs hc] using h)
    have hpush {c : Char} {rest : List Char} (hc : c ∈ strayChars)
        (h : (c :: rest).foldlM read s = some t) : rest.foldlM read (s.push c) = some t := by
      have hread : s.read c = some (s.push c) := by
        simp only [strayChars, List.mem_cons, List.not_mem_nil, or_false] at hc
        rcases hc with rfl | rfl <;> exact read_other (by decide) rfl rfl
      simpa [hread] using h
    cases piece with
    | blank c => simpa using hblank hfits.isBlank hrun
    | separator c =>
      simp only [Piece.Fits, List.mem_cons, List.not_mem_nil, or_false] at hfits
      rcases hfits with rfl | rfl
      · simpa using hblank rfl hrun
      · have hnext := hpush (by decide) hrun
        have hafter : Enclosure.top.after (s.push ';').atom.reverse = .top := by
          simp only [push, List.reverse_cons, Enclosure.after_append, hatom]
          rfl
        have htop : (s.push ';').enclosure = .top := by
          rw [push, hs]
          rfl
        obtain hatoms | hstray := ih hothers htop hafter hnext
        · have hmem := mem_flush_atoms (s := s.push ';') (by simp [push])
          rw [hatoms] at hmem
          exact .inr (.inr ⟨s.atom.reverse, by simpa [push] using hmem, hatom⟩)
        · exact .inr hstray
    | comment body =>
      have hnext := hpush (by decide) hrun
      obtain ⟨rest, hmem⟩ := exists_mem_of_foldlM (by simp [push]) hnext hfinish
      exact .inr (.inl ⟨s.atom.reverse, rest, by simpa [push] using hmem, hatom⟩)
    | word atoms cut => cases htrailing _ rfl
    | blockOpen | blockClose => cases htrailing _ rfl

/-! ## Rebuilt texts -/

/-- Whether a character stands outside of literals and brackets in a text that is read from an
enclosure on. -/
def Enclosure.meets (c : Char) : Enclosure → List Char → Bool
  | _, [] => false
  | n, d :: rest => (n = .top && d = c) || meets c (n.read d) rest

/-- A character that stands where a reader is outside of everything is met there. -/
theorem Enclosure.meets_of_append {c : Char} {n : Enclosure} {x : List Char} (h : n.after x = .top)
    (y : List Char) : n.meets c (x ++ c :: y) = true := by
  induction x generalizing n with
  | nil =>
    rw [after_nil] at h
    simp [meets, h]
  | cons d x ih => simp [meets, ih h]

/-- Whether replacing the names in a path changes it. -/
def Environment.Splices (env : Environment) (path : String) : Prop :=
  ∃ find? expanded, env = .names find? ∧ Path.expand find? path = .ok expanded ∧
    expanded ≠ path.toList

/-- An expression with a value has no atom with a bare `#` in it, unless replacing the names in it
changes this atom. -/
theorem splices_of_comment {effort : ℕ} {env : Environment} {expression : String}
    {atoms : List String} {v : Value} (hsplit : splitAtoms expression = .ok atoms)
    (hvalue : evaluate effort env expression = pure v) {x y : List Char}
    (hmem : String.ofList (x ++ '#' :: y) ∈ atoms) (hx : Enclosure.top.after x = .top) :
    env.Splices (String.ofList (x ++ '#' :: y)) := by
  obtain ⟨find?, expanded, rfl, hexpand, hreads⟩ :=
    exists_reads_of_stray hsplit hvalue hmem (by decide) String.toList_ofList hx
  refine ⟨find?, expanded, rfl, hexpand, ?_⟩
  rintro rfl
  rw [String.toList_ofList, Path.trim_append_cons rfl] at hreads
  refine Path.not_reads_of_stray (by decide) (.inl ?_) hreads
  exact Enclosure.after_dropWhile (fun c hc => Enclosure.read_of_ends (.inl hc)) hx

/-- An expression with a value has no atom that ends with a bare `;`. -/
theorem not_top_of_separator {effort : ℕ} {env : Environment} {expression : String}
    {atoms : List String} {v : Value} (hsplit : splitAtoms expression = .ok atoms)
    (hvalue : evaluate effort env expression = pure v) {x : List Char}
    (hmem : String.ofList (x ++ [';']) ∈ atoms) : Enclosure.top.after x ≠ .top := by
  intro hx
  obtain ⟨find?, expanded, rfl, hexpand, hreads⟩ :=
    exists_reads_of_stray hsplit hvalue hmem (by decide) String.toList_ofList hx
  rw [Path.expand, String.toList_ofList] at hexpand
  obtain ⟨x', rfl⟩ := Path.exists_append_of_expandFrom hexpand
  rw [Path.trim_append_cons rfl] at hreads
  exact Path.not_reads_of_stray (by decide) (.inr rfl) hreads

/-- Words of an expression with a value, joined with single spaces, have the atoms of the
expression. -/
theorem splitAtoms_intercalate_words {effort : ℕ} {env : Environment} {expression : String}
    {atoms : List String} {tokens : List Token} {v : Value}
    (hname : ¬['.', '<'] <:+: expression.toList)
    (hsplice : ∀ atom ∈ atoms, Enclosure.top.meets '#' atom.toList = true → ¬env.Splices atom)
    (hsplit : splitAtoms expression = .ok atoms)
    (htokens : tokenize expression = .ok tokens)
    (hwords : ∀ t ∈ tokens, t.kind.isStructural = false)
    (hvalue : evaluate effort env expression = pure v) :
    splitAtoms (" ".intercalate (tokens.map Token.value)) = .ok atoms := by
  obtain ⟨pieces, hlayout, htext, rfl⟩ := exists_layout_of_tokenize htokens
  have hkinds : ∀ t ∈ Token.condense (Piece.tokens .start pieces), t.kind ≠ .separator := by
    intro t ht hkind
    have hstructural := hwords t ht
    simp [hkind, TokenKind.isStructural] at hstructural
  obtain ⟨separators, hall, hseparators⟩ := Token.exists_append_of_condense hkinds
  obtain ⟨main, tail, rfl, hplain, htrailing, hmain⟩ :=
    Piece.exists_plain_append_trailing hlayout.precedes hall hwords hseparators
  rw [← hmain]
  have hlayout' : Layout main :=
    ⟨fun piece hpiece => hlayout.fits piece (List.mem_append_left _ hpiece),
      hlayout.precedes.left_of_append⟩
  obtain ⟨t, hrun, hfinish⟩ := (splitAtoms_eq_ok_iff hname).mp hsplit
  rw [← htext, List.flatMap_append, List.foldlM_append] at hrun
  obtain ⟨s, hs, htail⟩ := Option.bind_eq_some_iff.mp hrun
  have hclosed : ∀ piece ∈ main, piece.IsClosed := by
    rcases eq_or_ne tail [] with rfl | hne
    · cases htail
      have hend := (Cutting.finish?_eq_some_iff.mp hfinish).1
      exact hlayout'.isClosed_of_after hplain ((Cutting.enclosure_of_foldlM hs).symm.trans hend)
    · exact hlayout.isClosed_of_append hne
  have htop : s.enclosure = .top := by
    rw [Cutting.enclosure_of_foldlM hs]
    exact Piece.after_flatMap_text fun piece hpiece =>
      ⟨hlayout'.fits piece hpiece, hplain piece hpiece, hclosed piece hpiece⟩
  have hatom : Enclosure.top.after s.atom.reverse = .top :=
    (Cutting.enclosure_eq_after_atom rfl hs).symm.trans htop
  have hatoms : s.flush.atoms = atoms := by
    have hfits : ∀ piece ∈ tail, piece.Fits ∧ piece.IsTrailing := fun piece hpiece =>
      ⟨hlayout.fits piece (List.mem_append_right _ hpiece), htrailing piece hpiece⟩
    obtain h | ⟨x, y, hmem, hx⟩ | ⟨x, hmem, hx⟩ :=
      Cutting.atoms_eq_or_stray hfits htop hatom htail hfinish
    · exact h
    · refine absurd (splices_of_comment hsplit hvalue hmem hx) (hsplice _ hmem ?_)
      rw [String.toList_ofList]
      exact Enclosure.meets_of_append hx y
    · exact absurd hx (not_top_of_separator hsplit hvalue hmem)
  obtain ⟨u, hu, hflush, _⟩ := hlayout'.exists_foldlM_intercalate hplain hclosed hs
  refine (splitAtoms_eq_ok_iff ?_).mpr ⟨u, hu, Cutting.finish?_eq_some_iff.mpr ⟨?_, ?_⟩⟩
  · refine not_infix_intercalate (by decide) (by decide) fun word hword hpair => ?_
    obtain ⟨token, htoken, rfl⟩ := List.mem_map.mp hword
    obtain ⟨before, piece, after, rfl, hkind, _⟩ := Piece.exists_of_mem_tokens htoken
    have hvalue' : token.value.toList = piece.text :=
      Piece.toList_value hkind (hkinds token (hmain ▸ htoken))
    rw [hvalue'] at hpair
    refine hname (hpair.trans ?_)
    exact ⟨before.flatMap Piece.text, after.flatMap Piece.text ++ tail.flatMap Piece.text,
      by simp [← htext]⟩
  · rw [← htop, ← Cutting.enclosure_flush, hflush, Cutting.enclosure_flush]
  · rw [hflush, hatoms]

/-- **Statements are rebuilt faithfully.** Let an expression without `.<` have a value, and let all
its tokens be words. Then the text that a statement puts together from these words, with single
spaces between them, has the same value, unless a comment starts in a path that changes when the
names in it are replaced. -/
theorem rebuilt_text_evaluates_alike {effort : ℕ} {env : Environment} {expression : String}
    {tokens : List Token} {v : Value} (hname : ¬['.', '<'] <:+: expression.toList)
    (hsplice : ∀ atoms, splitAtoms expression = .ok atoms → ∀ atom ∈ atoms,
      Enclosure.top.meets '#' atom.toList = true → ¬env.Splices atom)
    (htokens : tokenize expression = .ok tokens)
    (hwords : ∀ t ∈ tokens, t.kind.isStructural = false)
    (hvalue : evaluate effort env expression = pure v) :
    evaluate effort env (" ".intercalate (tokens.map Token.value)) = pure v ∧
      ∃ label arguments, tokens.map Token.value = label :: arguments ∧
        ∀ s : Statement, s.label = label → s.arguments = arguments.map .text →
          s.expression? = some (" ".intercalate (tokens.map Token.value)) := by
  obtain ⟨atoms, hsplit⟩ := exists_splitAtoms_of_evaluate hvalue
  have hrebuilt : evaluate effort env (" ".intercalate (tokens.map Token.value)) = pure v :=
    evaluate_respell hsplit (splitAtoms_intercalate_words hname (hsplice atoms hsplit) hsplit
      htokens hwords hvalue) hvalue
  refine ⟨hrebuilt, ?_⟩
  cases hvalues : tokens.map Token.value with
  | nil =>
    rw [hvalues] at hrebuilt
    cases effort <;> cases hrebuilt
  | cons label arguments =>
    refine ⟨label, arguments, rfl, ?_⟩
    rintro s rfl harguments
    exact s.expression?_eq_some harguments

/-- A `#` in a literal is no comment, and blanks and a line feed around words do not count. -/
theorem rebuilt_text_evaluates_alike_grouped :
    let tokens : List Token := [⟨.word "\"# ;\"", ⟨1, 2⟩⟩, ⟨.word "+", ⟨1, 8⟩⟩,
      ⟨.word "( [ '] ] )", ⟨1, 11⟩⟩]
    tokenize " \"# ;\"\t+  ( [ '] ] )\x0d\n" = .ok tokens ∧
      " ".intercalate (tokens.map Token.value) = "\"# ;\" + ( [ '] ] )" ∧
      evaluate 2 .constant "\"# ;\" + ( [ '] ] )" =
        pure (.array [.number 35, .number 32, .number 59, .ofText "]"]) := by
  intro tokens
  have hname : ¬['.', '<'] <:+: " \"# ;\"\t+  ( [ '] ] )\x0d\n".toList := by decide
  have hsplit : splitAtoms " \"# ;\"\t+  ( [ '] ] )\x0d\n" =
      .ok ["\"# ;\"", "+", "(", "[ '] ]", ")"] := by rfl
  have hbare : ∀ atom ∈ ["\"# ;\"", "+", "(", "[ '] ]", ")"],
      Enclosure.top.meets '#' atom.toList = false := by decide
  have htokens : tokenize " \"# ;\"\t+  ( [ '] ] )\x0d\n" = .ok tokens := by rfl
  have hwords : ∀ t ∈ tokens, t.kind.isStructural = false := by decide
  have hvalue : evaluate 2 .constant " \"# ;\"\t+  ( [ '] ] )\x0d\n" =
      pure (.array [.number 35, .number 32, .number 59, .ofText "]"]) := by rfl
  have hjoined : " ".intercalate (tokens.map Token.value) = "\"# ;\" + ( [ '] ] )" := by decide
  refine ⟨htokens, hjoined, ?_⟩
  rw [← hjoined]
  refine (rebuilt_text_evaluates_alike hname ?_ htokens hwords hvalue).1
  intro atoms hatoms atom hatom hmeets
  rw [hsplit] at hatoms
  cases hatoms
  rw [hbare atom hatom] at hmeets
  cases hmeets

/-- The `]` of a character literal in an index counts as a closing bracket where names are replaced.
So a name that stands inside of the index is replaced, and the index gets longer: it takes in the
`#`, with which a comment starts for the statement. -/
theorem rebuilt_text_loses_spliced_index :
    let find? (name : String) :=
      if name = "x" then some (Value.object [("]]#[\"", .number 7)])
      else if name = "s" then some (.ofText "+\"") else none
    ¬['.', '<'] <:+: "x[']<s>]#[\"+'\"]".toList ∧
      tokenize "x[']<s>]#[\"+'\"]" = .ok [⟨.word "x[']<s>]", .start⟩] ∧
      ∀ effort,
        evaluate (effort + 2) (.names find?) "x[']<s>]#[\"+'\"]" = pure (.number 7) ∧
        evaluate (effort + 2) (.names find?) "x[']<s>]" =
          throw (.invalidPath "x[']<s>]" .unclosedIndex) := by
  intro find?
  refine ⟨by decide, by rfl, fun effort => ?_⟩
  have hpath (path : String) (hcompile : compile path = .ok [.load path]) :
      evaluate (effort + 2) (.names find?) path =
        Path.get find? (evaluate (effort + 1) (.names find?)) path := by
    rw [Environment.evaluate_succ, Environment.step, hcompile]
    simp [Instruction.runAll, Instruction.run, Environment.load]
  constructor
  · have hcompile : compile "x[']<s>]#[\"+'\"]" = .ok [.load "x[']<s>]#[\"+'\"]"] := by rfl
    have hexpand : Path.expand find? "x[']<s>]#[\"+'\"]" = .ok "x[']+\"]#[\"+'\"]".toList := by
      decide
    have hparts : Path.parts "[']+\"]#[\"+'\"]".toList = [.index "']+\"]#[\"+'\""] := by
      have hclose : Text.matchingBracket?
          ['[', '\'', ']', '+', '"', ']', '#', '[', '"', '+', '\'', '"', ']'] 0 = some 12 := by
        decide
      simp [Path.parts, hclose]
    have hindex : evaluate (effort + 1) (.names find?) "']+\"]#[\"+'\"" =
        pure (.ofText "]]#[\"") := by rfl
    have haccessor : Path.indexAccessor "x[']<s>]#[\"+'\"]" (.ofText "]]#[\"") =
        .ok (.field "]]#[\"") := by decide
    have hresolve : Path.resolve find? (evaluate (effort + 1) (.names find?)) "x[']<s>]#[\"+'\"]" =
        pure ⟨"x", [.field "]]#[\""]⟩ := by
      unfold Path.resolve
      rw [hexpand]
      change ((Path.parts "[']+\"]#[\"+'\"]".toList).mapM _ >>= _ : Eval Path) = _
      rw [hparts]
      simp only [List.mapM_cons, List.mapM_nil, Path.Part.resolve, hindex, pure_bind, haccessor]
      rfl
    have hload : Path.get find? (evaluate (effort + 1) (.names find?)) "x[']<s>]#[\"+'\"]" =
        pure (.number 7) := by
      rw [Path.get, hresolve]
      rfl
    rw [hpath _ hcompile, hload]
  · have hcompile : compile "x[']<s>]" = .ok [.load "x[']<s>]"] := by rfl
    have hexpand : Path.expand find? "x[']<s>]" = .ok "x[']+\"]".toList := by decide
    have hparts : Path.parts "[']+\"]".toList = [.flawed .unclosedIndex] := by
      have hclose : Text.matchingBracket? ['[', '\'', ']', '+', '"', ']'] 0 = none := by decide
      simp [Path.parts, hclose]
    have hresolve : Path.resolve find? (evaluate (effort + 1) (.names find?)) "x[']<s>]" =
        throw (.invalidPath "x[']<s>]" .unclosedIndex) := by
      unfold Path.resolve
      rw [hexpand]
      change ((Path.parts "[']+\"]".toList).mapM _ >>= _ : Eval Path) = _
      rw [hparts]
      rfl
    rw [hpath _ hcompile, Path.get, hresolve]
    rfl

end Logo
