import Logo.Proofs.Fault.Stage
import Logo.Proofs.Statement.Step
import Logo.Proofs.Token.Lossless

/-!
# Blocks in the text and among the statements

The scan of a text keeps the open blocks on a stack, and parsing keeps the levels around the current
one on another. Both follow the delimiters among the tokens, so the blocks of a text that has tokens
are closed again when it is parsed. A return binding may pass over several tokens at once, but these
are words.
-/

namespace Logo

/-! ## Depth -/

/-- How many blocks are open after a token, if `depth` are open before it. No block can be closed
where none is open. -/
def TokenKind.depthAfter? (depth : ℕ) : TokenKind → Option ℕ
  | .blockOpen => some (depth + 1)
  | .blockClose => if depth = 0 then none else some (depth - 1)
  | .separator | .word _ => some depth

/-- How many blocks are open after some tokens, if `depth` are open before them. -/
def Token.depthAfter? (depth : ℕ) (tokens : List Token) : Option ℕ :=
  tokens.foldlM (fun depth t => t.kind.depthAfter? depth) depth

namespace Token

variable {depth : ℕ} {tokens rest : List Token}

/-- The blocks that are open after some tokens are counted from the first one on. -/
theorem depthAfter?_cons (t : Token) :
    depthAfter? depth (t :: rest) = (t.kind.depthAfter? depth).bind (depthAfter? · rest) :=
  List.foldlM_cons ..

/-- The blocks that are open after two rows of tokens are counted in the second one from the first
one on. -/
theorem depthAfter?_append :
    depthAfter? depth (tokens ++ rest) = (depthAfter? depth tokens).bind (depthAfter? · rest) :=
  List.foldlM_append

/-- Words open and close nothing. -/
theorem depthAfter?_words_append {texts : List String}
    (h : tokens.map Token.kind = texts.map .word) :
    depthAfter? depth (tokens ++ rest) = depthAfter? depth rest := by
  induction tokens generalizing texts with
  | nil => rfl
  | cons t tokens ih =>
    cases texts with
    | nil => cases h
    | cons text texts =>
      obtain ⟨ht, htokens⟩ := List.cons.inj h
      rw [List.cons_append, depthAfter?_cons, ht, TokenKind.depthAfter?, Option.bind_some,
        ih htokens]

end Token

/-! ## Parsing -/

/-- Whether a fault is that of a return binding that goes wrong at one of some tokens. -/
def Fault.IsBindingAt (tokens : List Token) (fault : Fault) : Prop :=
  ∃ t ∈ tokens, fault = t.malformedBinding ∨ fault = .malformedBinding ":=" t.pos

/-- A return binding that goes wrong at one of some tokens does so at one of more tokens. -/
theorem Fault.IsBindingAt.mono {tokens tokens' : List Token} (hsubset : tokens ⊆ tokens')
    (fault : Fault) (h : fault.IsBindingAt tokens) : fault.IsBindingAt tokens' := by
  obtain ⟨t, ht, hfault⟩ := h
  exact ⟨t, hsubset ht, hfault⟩

/-- A return binding that cannot be read goes wrong at one of its tokens. -/
theorem Draft.raises_bound (first name : Token) (fresh : Bool) (label? : Option Token) :
    Raises (Fault.IsBindingAt (first :: name :: label?.toList))
      (bound first name fresh label?) := by
  unfold bound
  split
  · split
    · next label =>
      split
      · exact Raises.error_iff.mpr ⟨label, by simp, .inl rfl⟩
      · exact .ok _
    · exact Raises.error_iff.mpr ⟨first, by simp, .inr rfl⟩
  · exact Raises.error_iff.mpr ⟨name, by simp, .inl rfl⟩

/-- A statement that cannot be started has a return binding that goes wrong at one of the tokens
ahead. -/
theorem Draft.raises_start (first : Token) (rest : List Token) :
    Raises (Fault.IsBindingAt (first :: rest)) (start first rest) := by
  unfold start
  split
  · next second third more =>
    split
    · rw [Raises.map_iff]
      exact (raises_bound _ _ _ _).mono (Fault.IsBindingAt.mono (by cases more <;> simp))
    · split
      · rw [Raises.map_iff]
        exact (raises_bound _ _ _ _).mono (Fault.IsBindingAt.mono (by simp))
      · exact .ok _
  · split
    · rw [Raises.map_iff]
      exact (raises_bound _ _ _ _).mono (Fault.IsBindingAt.mono (by simp))
    · exact .ok _
  · exact .ok _

/-- Where the levels around the current one are as many as the blocks that the tokens close, parsing
fails only at a return binding. -/
theorem raises_parseFrom {unit : ℕ} {enclosing : List (Position × Level)} {level : Level} {skip : ℕ}
    {tokens : List Token}
    (hdepth : Token.depthAfter? enclosing.length (tokens.drop skip) = some 0) :
    Raises (Fault.IsBindingAt tokens) (parseFrom unit enclosing level skip tokens) := by
  fun_induction parseFrom unit enclosing level skip tokens with
  | case1 level skip => exact .ok _
  | case2 => simp [Token.depthAfter?] at hdepth
  | case3 enclosing level skip t rest ih =>
    exact (ih hdepth).mono (Fault.IsBindingAt.mono (List.subset_cons_self ..))
  | case4 enclosing level t rest ht ih =>
    rw [List.drop_zero, Token.depthAfter?_cons, ht] at hdepth
    exact (ih hdepth).mono (Fault.IsBindingAt.mono (List.subset_cons_self ..))
  | case5 level t rest ht =>
    rw [List.drop_zero, Token.depthAfter?_cons, ht] at hdepth
    cases hdepth
  | case6 level t rest ht opened outer enclosing ih =>
    rw [List.drop_zero, Token.depthAfter?_cons, ht] at hdepth
    exact (ih hdepth).mono (Fault.IsBindingAt.mono (List.subset_cons_self ..))
  | case7 enclosing level t rest ht ih =>
    rw [List.drop_zero, Token.depthAfter?_cons, ht] at hdepth
    exact (ih hdepth).mono (Fault.IsBindingAt.mono (List.subset_cons_self ..))
  | case8 enclosing level t rest word ht d hd ih =>
    rw [List.drop_zero, Token.depthAfter?_cons, ht] at hdepth
    exact (ih hdepth).mono (Fault.IsBindingAt.mono (List.subset_cons_self ..))
  | case9 enclosing level t rest word ht hd fault hstart =>
    exact Raises.error_iff.mpr (Draft.raises_start t rest fault hstart)
  | case10 enclosing level t rest word ht hd d skip hstart ih =>
    obtain ⟨_, _, words, more, rfl, rfl, hwords⟩ :=
      Draft.start_eq_ok (by simp [ht, TokenKind.isStructural]) hstart
    rw [List.drop_zero, ← List.cons_append, Token.depthAfter?_words_append hwords] at hdepth
    exact (ih (by rwa [List.drop_left])).mono (Fault.IsBindingAt.mono (List.subset_cons_self ..))

/-! ## Scanning -/

namespace Scan

variable {s t : Scan} {c : Char}

/-- Whether the open blocks of a scan are those of its tokens. -/
def Nests (s : Scan) : Prop := Token.depthAfter? 0 s.tokens.reverse = some s.braces.length

/-- Whether the open blocks are those of the tokens depends on these alone. -/
theorem Nests.congr (h : s.Nests) (htokens : t.tokens = s.tokens) (hbraces : t.braces = s.braces) :
    t.Nests := by
  rwa [Nests, htokens, hbraces]

/-- A token is added with what it does to the open blocks. -/
theorem Nests.cons {u : Token} (h : s.Nests) (htokens : t.tokens = u :: s.tokens)
    (hbraces : u.kind.depthAfter? s.braces.length = some t.braces.length) : t.Nests := by
  rw [Nests, htokens, List.reverse_cons, Token.depthAfter?_append, h, Option.bind_some,
    Token.depthAfter?_cons, hbraces]
  rfl

/-- Ending a word opens and closes no block. -/
theorem Nests.flush (h : s.Nests) : s.flush.Nests := by
  unfold Scan.flush
  split
  · exact h
  · exact h.cons rfl rfl

/-- Ending a word does not change which blocks are open. -/
theorem braces_flush (s : Scan) : s.flush.braces = s.braces := by
  unfold Scan.flush
  split <;> rfl

/-- A token that delimits changes the open blocks as its kind says. -/
theorem Nests.delimit {kind : TokenKind} (h : s.Nests)
    (htokens : t.tokens = (s.delimit kind).tokens)
    (hbraces : kind.depthAfter? s.braces.length = some t.braces.length) : t.Nests :=
  h.flush.cons (u := ⟨kind, s.pos⟩) htokens (by rwa [braces_flush])

/-- A separator opens and closes no block. -/
theorem Nests.separate (h : s.Nests) : s.separate.Nests := by
  unfold Scan.separate
  split
  · exact h.flush
  · exact h.delimit rfl (congrArg (some ∘ List.length) (braces_flush s).symm)

/-- Reading a character outside of literals keeps the open blocks those of the tokens. -/
theorem Nests.readText (h : s.Nests) (hread : s.readText c = .ok t) : t.Nests := by
  revert hread
  fun_cases Scan.readText s c with
  -- A bracket that closes nothing, or a statement that ends in an open group.
  | case4 | case7 | case11 | case13 => nofun
  -- A comment.
  | case1 =>
    rintro ⟨⟩
    split
    · exact h.congr rfl rfl
    · exact h.flush.congr rfl rfl
  -- A blank.
  | case3 =>
    rintro ⟨⟩
    split
    · exact h.congr rfl rfl
    · exact h.flush
  -- The end of a statement.
  | case5 =>
    rintro ⟨⟩
    exact h.separate
  -- The start of a block, and its end.
  | case6 =>
    rintro ⟨⟩
    exact h.delimit rfl rfl
  | case8 _ _ _ _ _ _ pos braces hbraces =>
    rintro ⟨⟩
    exact h.delimit rfl (by simp [hbraces, TokenKind.depthAfter?])
  -- A character of a word.
  | case2 | case9 | case10 | case12 | case14 | case15 =>
    rintro ⟨⟩
    exact h.congr rfl rfl

/-- Each step of a scan keeps the open blocks those of the tokens. -/
theorem Nests.step (h : s.Nests) (hstep : s.step c = .ok t) : t.Nests := by
  obtain ⟨next, hread, rfl⟩ := map_eq_ok_iff.mp hstep
  suffices hnext : next.Nests from hnext.congr rfl rfl
  unfold Scan.read at hread
  split at hread
  · exact h.readText hread
  · split at hread
    · have htext : Nests { s with mode := .text } := h.congr rfl rfl
      exact htext.readText hread
    · cases hread
      exact h
  · cases hread
    exact h.congr rfl rfl

/-- Reading a whole text keeps the open blocks those of the tokens. -/
theorem Nests.foldlM {source : List Char} (h : s.Nests)
    (hrun : source.foldlM Scan.step s = .ok t) : t.Nests := by
  induction source generalizing s with
  | nil =>
    cases hrun
    exact h
  | cons c source ih =>
    rw [List.foldlM_cons] at hrun
    obtain ⟨next, hstep, hrun⟩ := bind_eq_ok_iff.mp hrun
    exact ih (h.step hstep) hrun

/-- A scan can end only if no block is open. -/
theorem braces_of_finish_eq_ok {tokens : List Token} (h : s.finish = .ok tokens) :
    s.braces = [] := by
  unfold finish at h
  split at h
  · cases h
  · cases h
  · split at h
    · cases h
    · cases h
    · assumption

end Scan

/-- The blocks among the tokens of a text are closed, and none is closed that is not open. -/
theorem depthAfter?_of_tokenize {source : String} {tokens : List Token}
    (h : tokenize source = .ok tokens) : Token.depthAfter? 0 tokens = some 0 := by
  obtain ⟨s, hrun, hfinish⟩ := bind_eq_ok_iff.mp h
  have hstart : Scan.Nests {} := rfl
  have hnests : s.flush.Nests := (hstart.foldlM hrun).flush
  rw [Scan.Nests, Scan.braces_flush, Scan.braces_of_finish_eq_ok hfinish] at hnests
  obtain ⟨_, _, ⟨place, hflush⟩ | ⟨hflush, _⟩⟩ := Scan.of_finish_eq_ok hfinish
  · -- A separator at the end is dropped, which opens and closes nothing.
    rw [hflush, List.reverse_cons, List.reverse_reverse, Token.depthAfter?_append] at hnests
    obtain ⟨depth, hdepth, hlast⟩ := Option.bind_eq_some_iff.mp hnests
    rw [hdepth]
    exact hlast
  · rwa [hflush, List.reverse_reverse] at hnests

/-- **Scanning and parsing agree on blocks.** When the tokens of a text are parsed, each block that
is opened is closed, and none is closed that is not open. The only fault that parsing can have is
that of a return binding, at one of the tokens. -/
theorem tokenized_blocks_match {source : String} {tokens : List Token}
    (h : tokenize source = .ok tokens) (unit : ℕ) :
    Token.depthAfter? 0 tokens = some 0 ∧
      (∀ pos, parse unit tokens ≠ .error (.unmatchedBlock pos)) ∧
      ∀ fault, parse unit tokens = .error fault →
        ∃ t ∈ tokens, fault = t.malformedBinding ∨ fault = .malformedBinding ":=" t.pos := by
  have hdepth : Token.depthAfter? 0 tokens = some 0 := depthAfter?_of_tokenize h
  have hraises : Raises (Fault.IsBindingAt tokens) (parse unit tokens) := raises_parseFrom hdepth
  refine ⟨hdepth, fun pos hpos => ?_, hraises⟩
  obtain ⟨t, _, hfault | hfault⟩ := hraises _ hpos
  · cases hfault
  · cases hfault

/-- Delimiters in a comment, in a group and in a string do not count, and a return binding that is
cut short by one that does is a fault of its own. -/
theorem tokenized_blocks_match_binding :
    let source := "f (\x7d) \x7b \"\x7b\" # \x7d\n x := \x7d\n"
    let tokens : List Token := [⟨.word "f", ⟨1, 1⟩⟩, ⟨.word "(\x7d)", ⟨1, 3⟩⟩,
      ⟨.blockOpen, ⟨1, 7⟩⟩, ⟨.word "\"\x7b\"", ⟨1, 9⟩⟩, ⟨.separator, ⟨1, 16⟩⟩, ⟨.word "x", ⟨2, 2⟩⟩,
      ⟨.word ":=", ⟨2, 4⟩⟩, ⟨.blockClose, ⟨2, 7⟩⟩]
    tokenize source = .ok tokens ∧
      Token.depthAfter? 0 tokens = some 0 ∧
      (∀ pos, parse 0 tokens ≠ .error (.unmatchedBlock pos)) ∧
      parse 0 tokens = .error (.malformedBinding "\x7d" ⟨2, 7⟩) := by
  intro source tokens
  have htokens : tokenize source = .ok tokens := by decide
  obtain ⟨hdepth, hmatched, _⟩ := tokenized_blocks_match htokens 0
  exact ⟨htokens, hdepth, hmatched, rfl⟩

end Logo
