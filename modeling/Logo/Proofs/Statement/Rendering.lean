import Logo.Proofs.Statement.Step
import Mathlib.Data.List.Forall2

/-!
# Statements written as tokens

A statement is written as its return binding, its label, its arguments in order and a separator. A
block is written as its statements between delimiters. The tokens say where they stand, and of these
places a statement keeps that of its first token and a block that of its opening delimiter.
-/

namespace Logo

/-! ## Marks -/

/-- What a statement asks of one of its tokens. -/
structure Mark where
  kind : TokenKind
  /-- The place of the token, where the statement tells it. -/
  pos : Option Position := none

/-- Whether a token is what a mark asks for. -/
def Mark.Fits (m : Mark) (t : Token) : Prop := t.kind = m.kind ∧ ∀ p ∈ m.pos, t.pos = p

/-- The marks of words, the first of which stands at a place. -/
def wordMarks (pos : Position) : List String → List Mark
  | [] => []
  | first :: rest => ⟨.word first, some pos⟩ :: rest.map fun word => { kind := .word word }

mutual

/-- The marks of a statement. -/
def Statement.marks : Statement → List Mark
  | ⟨label, arguments, target, pos⟩ =>
    wordMarks pos (openingWords label target) ++ Argument.listMarks arguments ++
      [{ kind := .separator }]

/-- The marks of an argument. -/
def Argument.marks : Argument → List Mark
  | .text s => [{ kind := .word s }]
  | .block id body =>
    ⟨.blockOpen, some id.opened⟩ :: (Statement.listMarks body ++ [{ kind := .blockClose }])

/-- The marks of some arguments. -/
def Argument.listMarks : List Argument → List Mark
  | [] => []
  | a :: rest => a.marks ++ Argument.listMarks rest

/-- The marks of some statements. -/
def Statement.listMarks : List Statement → List Mark
  | [] => []
  | s :: rest => s.marks ++ Statement.listMarks rest

end

/-- The marks of words ask for these words. -/
theorem map_kind_wordMarks (pos : Position) (words : List String) :
    (wordMarks pos words).map Mark.kind = words.map .word := by
  cases words with
  | nil => rfl
  | cons word words => simp [wordMarks]

/-- Words fit the marks of their texts. -/
theorem fits_wordMarks {first : Token} {tokens : List Token} {words : List String}
    (h : (first :: tokens).map Token.kind = words.map .word) :
    List.Forall₂ Mark.Fits (wordMarks first.pos words) (first :: tokens) := by
  cases words with
  | nil => cases h
  | cons word words =>
    obtain ⟨hfirst, htokens⟩ := List.cons.inj h
    refine .cons ⟨hfirst, by simp⟩ ?_
    rw [List.forall₂_map_left_iff]
    have hforall : List.Forall₂ (fun t word => t.kind = .word word) tokens words := by
      rwa [← List.forall₂_eq_eq_eq, List.forall₂_map_left_iff, List.forall₂_map_right_iff]
        at htokens
    exact hforall.flip.imp fun word t ht => ⟨ht, by simp⟩

/-! ## The shape of a program -/

mutual

/-- A statement without its places. -/
def Statement.shape : Statement → Statement
  | ⟨label, arguments, target, _⟩ => ⟨label, Argument.listShape arguments, target, .start⟩

/-- An argument without its places. -/
def Argument.shape : Argument → Argument
  | .text s => .text s
  | .block _ body => .block ⟨0, .start⟩ (Statement.listShape body)

/-- Some arguments without their places. -/
def Argument.listShape : List Argument → List Argument
  | [] => []
  | a :: rest => a.shape :: Argument.listShape rest

/-- Some statements without their places. -/
def Statement.listShape : List Statement → List Statement
  | [] => []
  | s :: rest => s.shape :: Statement.listShape rest

end

/-- Whether a statement can be told from its tokens: neither its label nor a text among its
arguments is reserved, and its return variable is an identifier. -/
structure Statement.IsPlain (s : Statement) : Prop where
  label : s.label ∉ reservedTexts
  texts : ∀ text, .text text ∈ s.arguments → text ∉ reservedTexts
  target : ∀ target ∈ s.target, isIdentifier target.name = true

/-! ## Reading what is written -/

/-- Whether no `:=` stands among the first `n` of some tokens. -/
def Unbinding (n : ℕ) (tokens : List Token) : Prop := ∀ t ∈ tokens.take n, t.value ≠ ":="

/-- Without a `:=` among some tokens, there is none among fewer. -/
theorem Unbinding.mono {m n : ℕ} {tokens : List Token} (h : Unbinding n tokens) (hmn : m ≤ n) :
    Unbinding m tokens :=
  fun t ht => h t ((List.take_sublist_take_left hmn).subset ht)

/-- A token other than `:=` can be put in front. -/
theorem Unbinding.cons {n : ℕ} {t : Token} {tokens : List Token} (ht : t.value ≠ ":=")
    (h : Unbinding n tokens) : Unbinding (n + 1) (t :: tokens) :=
  List.forall_mem_cons.mpr ⟨ht, h⟩

/-- Among no tokens there is no `:=`. -/
theorem Unbinding.zero (tokens : List Token) : Unbinding 0 tokens := by
  simp [Unbinding]

/-- Whether tokens are read as arguments of any statement. -/
structure Argument.Reads (unit : ℕ) (tokens : List Token) (arguments : List Argument) : Prop where
  fits : List.Forall₂ Mark.Fits (Argument.listMarks arguments) tokens
  parseFrom_eq : ∀ enclosing statements d rest,
    parseFrom unit enclosing ⟨statements, some d⟩ 0 (tokens ++ rest) =
      parseFrom unit enclosing
        ⟨statements, some { d with arguments := arguments.reverse ++ d.arguments }⟩ 0 rest
  /-- The label before the arguments is not taken for a part of a return binding. -/
  unbinding : ∀ t rest, t.value ≠ ":=" → Unbinding 1 rest → Unbinding 2 (tokens ++ t :: rest)

/-- Whether tokens are read as statements of any block. -/
structure Statement.Reads (unit : ℕ) (tokens : List Token) (program : List Statement) : Prop where
  fits : List.Forall₂ Mark.Fits (Statement.listMarks program) tokens
  parseFrom_eq : ∀ enclosing statements rest, Unbinding 1 rest →
    parseFrom unit enclosing ⟨statements, none⟩ 0 (tokens ++ rest) =
      parseFrom unit enclosing ⟨program.reverse ++ statements, none⟩ 0 rest
  unbinding : ∀ rest, Unbinding 1 rest → Unbinding 1 (tokens ++ rest)

section Reads

variable {unit : ℕ} {tokens : List Token} {arguments : List Argument} {program : List Statement}

namespace Argument.Reads

/-- No tokens are read as no arguments. -/
theorem nil : Reads unit [] [] where
  fits := .nil
  parseFrom_eq := by simp
  unbinding := fun _ _ ht hrest => hrest.cons ht

/-- A word is read as a text in front of the other arguments. -/
theorem text {t : Token} {s : String} (ht : t.kind = .word s) (hs : s ≠ ":=")
    (h : Reads unit tokens arguments) : Reads unit (t :: tokens) (.text s :: arguments) where
  fits := .cons ⟨ht, by simp⟩ h.fits
  parseFrom_eq := by
    intro enclosing statements d rest
    rw [List.cons_append, parseFrom_text ht, h.parseFrom_eq]
    simp [Draft.add]
  unbinding := by
    intro t' rest ht' hrest
    exact .cons (by rwa [Token.value_of_kind ht]) ((h.unbinding t' rest ht' hrest).mono (by decide))

/-- Tokens in braces are read as a block in front of the other arguments. -/
theorem block {opening closing : Token} {inner : List Token} {body : List Statement}
    (hopening : opening.kind = .blockOpen) (hclosing : closing.kind = .blockClose)
    (hbody : Statement.Reads unit inner body) (h : Reads unit tokens arguments) :
    Reads unit (opening :: (inner ++ closing :: tokens))
      (.block ⟨unit, opening.pos⟩ body :: arguments) where
  fits := by
    refine .cons ⟨hopening, by simp⟩ ?_
    have hclose : List.Forall₂ Mark.Fits [{ kind := .blockClose }] [closing] :=
      .cons ⟨hclosing, by simp⟩ .nil
    simpa using List.rel_append hbody.fits (List.rel_append hclose h.fits)
  parseFrom_eq := by
    intro enclosing statements d rest
    have hend : closing.value ≠ ":=" := Token.value_ne_of_isStructural (by rw [hclosing]; rfl)
    rw [List.cons_append, parseFrom_blockOpen hopening, List.append_assoc, List.cons_append,
      hbody.parseFrom_eq _ _ _ (.cons hend (.zero _)), parseFrom_blockClose hclosing]
    simp [Level.attach, Level.close, Level.commit, Draft.add, h.parseFrom_eq]
  unbinding := by
    intro t rest _ _
    have hstart : opening.value ≠ ":=" := Token.value_ne_of_isStructural (by rw [hopening]; rfl)
    have hend : closing.value ≠ ":=" := Token.value_ne_of_isStructural (by rw [hclosing]; rfl)
    simpa using Unbinding.cons hstart
      (hbody.unbinding (closing :: (tokens ++ t :: rest)) (.cons hend (.zero _)))

end Argument.Reads

namespace Statement.Reads

/-- The first token of a statement is a word, whether it is the label or part of a return binding.
-/
theorem exists_kind_of_words {first : Token} {words : List Token} {label : String}
    {target : Option Target}
    (hwords : (first :: words).map Token.kind = (openingWords label target).map .word)
    (hlabel : label ≠ ":=") (htarget : ∀ t ∈ target, isIdentifier t.name = true) :
    ∃ word, first.kind = .word word ∧ word ≠ ":=" := by
  rcases target with _ | ⟨name, _ | _⟩
  · exact ⟨label, (List.cons.inj hwords).1, hlabel⟩
  · have hname := not_mem_reservedTexts_of_isIdentifier (htarget _ rfl)
    refine ⟨name, (List.cons.inj hwords).1, ?_⟩
    rintro rfl
    exact hname (by decide)
  · exact ⟨"new", (List.cons.inj hwords).1, by decide⟩

/-- No tokens are read as no statements. -/
theorem nil : Reads unit [] [] where
  fits := .nil
  parseFrom_eq := by simp
  unbinding := fun _ hrest => hrest

/-- The words that a statement starts with, its arguments and a separator are read as this statement
in front of the others. -/
theorem cons {first separator : Token} {words argumentTokens : List Token} {label : String}
    {target : Option Target}
    (hwords : (first :: words).map Token.kind = (openingWords label target).map .word)
    (hlabel : label ≠ ":=") (htarget : ∀ t ∈ target, isIdentifier t.name = true)
    (hseparator : separator.kind = .separator)
    (harguments : Argument.Reads unit argumentTokens arguments) (h : Reads unit tokens program) :
    Reads unit (first :: (words ++ argumentTokens ++ separator :: tokens))
      (⟨label, arguments, target, first.pos⟩ :: program) where
  fits := by
    have hend : List.Forall₂ Mark.Fits [{ kind := .separator }] [separator] :=
      .cons ⟨hseparator, by simp⟩ .nil
    have hstatement :=
      List.rel_append (List.rel_append (fits_wordMarks hwords) harguments.fits) hend
    simpa [Statement.listMarks, Statement.marks] using List.rel_append hstatement h.fits
  parseFrom_eq := by
    intro enclosing statements rest hrest
    have hend : separator.value ≠ ":=" := Token.value_ne_of_isStructural (by rw [hseparator]; rfl)
    have hstart := Draft.start_of_words hwords hlabel htarget
      (harguments.unbinding separator _ hend (h.unbinding rest hrest))
    obtain ⟨word, hword, _⟩ := exists_kind_of_words hwords hlabel htarget
    calc parseFrom unit enclosing ⟨statements, none⟩ 0
          (first :: (words ++ argumentTokens ++ separator :: tokens) ++ rest)
        = parseFrom unit enclosing ⟨statements, none⟩ 0
            (first :: (words ++ (argumentTokens ++ separator :: (tokens ++ rest)))) := by simp
      _ = parseFrom unit enclosing ⟨statements, some ⟨label, target, first.pos, []⟩⟩ 0
            (argumentTokens ++ separator :: (tokens ++ rest)) := by
        rw [parseFrom_start hword hstart, List.drop_left]
      _ = parseFrom unit enclosing ⟨⟨label, arguments, target, first.pos⟩ :: statements, none⟩ 0
            (tokens ++ rest) := by
        rw [harguments.parseFrom_eq, parseFrom_separator hseparator]
        simp [Level.commit, Draft.finish]
      _ = _ := by
        rw [h.parseFrom_eq _ _ _ hrest]
        simp
  unbinding := by
    intro rest _
    obtain ⟨word, hword, hne⟩ := exists_kind_of_words hwords hlabel htarget
    exact .cons (by rwa [Token.value_of_kind hword]) (.zero _)

end Statement.Reads

end Reads

/-- Induction on plain statements, and on the arguments within them at the same time. -/
theorem Statement.plain_induction {P : List Argument → Prop} {Q : List Statement → Prop}
    (nil : P []) (text : ∀ s rest, s ∉ reservedTexts → P rest → P (.text s :: rest))
    (block : ∀ id body rest, Q body → P rest → P (.block id body :: rest)) (done : Q [])
    (cons : ∀ s rest, s.IsPlain → P s.arguments → Q rest → Q (s :: rest))
    {program : List Statement} (hplain : ∀ s ∈ Statement.listPreorder program, s.IsPlain) :
    Q program := by
  refine @Argument.rec_1
    (fun a => (∀ s, a = .text s → s ∉ reservedTexts) → (∀ s ∈ a.preorder, s.IsPlain) →
      ∀ rest, P rest → P (a :: rest))
    (fun s => (∀ s' ∈ s.preorder, s'.IsPlain) → ∀ rest, Q rest → Q (s :: rest))
    (fun program => (∀ s ∈ Statement.listPreorder program, s.IsPlain) → Q program)
    (fun arguments => (∀ s, .text s ∈ arguments → s ∉ reservedTexts) →
      (∀ s ∈ Argument.listPreorder arguments, s.IsPlain) → P arguments)
    ?_ ?_ ?_ ?_ ?_ ?_ ?_ program hplain
  · intro s hs _ rest
    exact text s rest (hs s rfl)
  · intro id body ih _ hbody rest
    exact block id body rest (ih hbody)
  · intro label arguments target pos ih hs rest
    simp only [Statement.preorder, List.forall_mem_cons] at hs
    exact cons _ rest hs.1 (ih hs.1.texts hs.2)
  · exact fun _ => done
  · intro s rest ihs ih h
    simp only [Statement.listPreorder, List.forall_mem_append] at h
    exact ihs h.1 rest (ih h.2)
  · exact fun _ _ => nil
  · intro a rest iha ih htexts h
    simp only [Argument.listPreorder, List.forall_mem_append] at h
    exact iha (fun s hs => htexts s (hs ▸ List.mem_cons_self)) h.1 rest
      (ih (fun s hs => htexts s (List.mem_cons_of_mem _ hs)) h.2)

/-- Whether all tokens that are written for arguments are read as the same arguments. -/
def Argument.Readable (unit : ℕ) (arguments : List Argument) : Prop :=
  ∀ tokens : List Token,
    tokens.map Token.kind = (Argument.listMarks arguments).map Mark.kind →
    ∃ parsed, Argument.listShape parsed = Argument.listShape arguments ∧
      Argument.Reads unit tokens parsed

/-- Whether all tokens that are written for statements are read as the same statements. -/
def Statement.Readable (unit : ℕ) (program : List Statement) : Prop :=
  ∀ tokens : List Token,
    tokens.map Token.kind = (Statement.listMarks program).map Mark.kind →
    ∃ parsed, Statement.listShape parsed = Statement.listShape program ∧
      Statement.Reads unit tokens parsed

section Readable

variable {unit : ℕ} {arguments : List Argument} {program : List Statement}

/-- No arguments are read as such. -/
theorem Argument.readable_nil : Argument.Readable unit [] := by
  intro tokens htokens
  obtain rfl : tokens = [] := by simpa [Argument.listMarks] using htokens
  exact ⟨[], rfl, .nil⟩

/-- A text that is not `:=` is read as such, and so are the arguments behind it. -/
theorem Argument.readable_text {s : String} (hs : s ≠ ":=") (h : Argument.Readable unit arguments) :
    Argument.Readable unit (.text s :: arguments) := by
  intro tokens htokens
  obtain ⟨t, rest, rfl, ht, hrest⟩ := List.map_eq_cons_iff.mp htokens
  obtain ⟨parsed, hshape, hreads⟩ := h rest hrest
  exact ⟨.text s :: parsed, by simp [Argument.listShape, hshape], .text ht hs hreads⟩

/-- A block is read as such if its statements are, and so are the arguments behind it. -/
theorem Argument.readable_block {id : BlockId} {body : List Statement}
    (hbody : Statement.Readable unit body) (h : Argument.Readable unit arguments) :
    Argument.Readable unit (.block id body :: arguments) := by
  intro tokens htokens
  simp only [Argument.listMarks, Argument.marks, List.cons_append, List.append_assoc,
    List.map_cons, List.map_append, List.nil_append] at htokens
  obtain ⟨opening, tokens, rfl, hopening, htokens⟩ := List.map_eq_cons_iff.mp htokens
  obtain ⟨inner, tokens, rfl, hinner, htokens⟩ := List.map_eq_append_iff.mp htokens
  obtain ⟨closing, rest, rfl, hclosing, hrest⟩ := List.map_eq_cons_iff.mp htokens
  obtain ⟨parsedBody, hshapeBody, hreadsBody⟩ := hbody inner hinner
  obtain ⟨parsed, hshape, hreads⟩ := h rest hrest
  exact ⟨.block ⟨unit, opening.pos⟩ parsedBody :: parsed,
    by simp [Argument.listShape, Argument.shape, hshapeBody, hshape],
    .block hopening hclosing hreadsBody hreads⟩

/-- No statements are read as such. -/
theorem Statement.readable_nil : Statement.Readable unit [] := by
  intro tokens htokens
  obtain rfl : tokens = [] := by simpa [Statement.listMarks] using htokens
  exact ⟨[], rfl, .nil⟩

/-- A plain statement is read as such if its arguments are, and so are the statements behind it. -/
theorem Statement.readable_cons {s : Statement} (hs : s.IsPlain)
    (harguments : Argument.Readable unit s.arguments) (h : Statement.Readable unit program) :
    Statement.Readable unit (s :: program) := by
  intro tokens htokens
  obtain ⟨label, arguments, target, pos⟩ := s
  simp only [Statement.listMarks, Statement.marks, List.append_assoc, List.map_append,
    List.map_cons, List.map_nil] at htokens
  obtain ⟨opening, tokens, rfl, hopening, htokens⟩ := List.map_eq_append_iff.mp htokens
  obtain ⟨argumentTokens, tokens, rfl, hargumentTokens, htokens⟩ :=
    List.map_eq_append_iff.mp htokens
  obtain ⟨separator, rest, rfl, hseparator, hrest⟩ := List.map_eq_cons_iff.mp htokens
  rw [map_kind_wordMarks] at hopening
  obtain ⟨first, words, rfl⟩ : ∃ first words, opening = first :: words := by
    apply List.exists_cons_of_ne_nil
    rintro rfl
    exact openingWords_ne_nil label target (List.map_eq_nil_iff.mp hopening.symm)
  obtain ⟨parsedArguments, hshapeArguments, hreadsArguments⟩ :=
    harguments argumentTokens hargumentTokens
  obtain ⟨parsed, hshape, hreads⟩ := h rest hrest
  have hlabel : label ≠ ":=" := fun h => hs.label (by simp [reservedTexts, h])
  have hall := Statement.Reads.cons hopening hlabel hs.target hseparator hreadsArguments hreads
  exact ⟨⟨label, parsedArguments, target, first.pos⟩ :: parsed,
    by simp [Statement.listShape, Statement.shape, hshapeArguments, hshape], by simpa using hall⟩

end Readable

/-- The words that a plain statement starts with are taken for words. -/
theorem Statement.IsPlain.ofValue_of_mem_openingWords {s : Statement} (h : s.IsPlain)
    {word : String} (hword : word ∈ openingWords s.label s.target) :
    TokenKind.ofValue word = .word word := by
  rcases List.mem_append.mp hword with hbinding | hlabel
  · cases htarget : s.target with
    | none => simp [htarget] at hbinding
    | some target =>
      have hmem : word ∈ ["new", target.name, ":="] := by
        rw [htarget, Option.elim_some, Target.words] at hbinding
        split at hbinding
        · exact hbinding
        · exact List.mem_cons_of_mem _ hbinding
      simp only [List.mem_cons, List.not_mem_nil, or_false] at hmem
      rcases hmem with rfl | rfl | rfl
      · decide
      · exact TokenKind.ofValue_of_not_mem
          (not_mem_reservedTexts_of_isIdentifier (h.target target htarget))
      · decide
  · obtain rfl : word = s.label := by simpa using hlabel
    exact TokenKind.ofValue_of_not_mem h.label

/-- The tokens that are written for plain statements have the kinds that they stand for. -/
theorem Statement.ofValue_of_mem_marks {program : List Statement}
    (hplain : ∀ s ∈ Statement.listPreorder program, s.IsPlain) :
    ∀ m ∈ Statement.listMarks program, TokenKind.ofValue m.kind.value = m.kind := by
  refine Statement.plain_induction
    (P := fun arguments => ∀ m ∈ Argument.listMarks arguments,
      TokenKind.ofValue m.kind.value = m.kind)
    (Q := fun program => ∀ m ∈ Statement.listMarks program,
      TokenKind.ofValue m.kind.value = m.kind)
    ?nil ?text ?block ?done ?cons hplain
  case nil => simp [Argument.listMarks]
  case text =>
    intro s rest hs ih
    simp only [Argument.listMarks, Argument.marks, List.cons_append, List.nil_append,
      List.forall_mem_cons]
    exact ⟨TokenKind.ofValue_of_not_mem hs, ih⟩
  case block =>
    intro id body rest ihbody ih
    simp only [Argument.listMarks, Argument.marks, List.cons_append, List.nil_append,
      List.append_assoc, List.forall_mem_cons, List.forall_mem_append]
    exact ⟨rfl, ihbody, rfl, ih⟩
  case done => simp [Statement.listMarks]
  case cons =>
    intro s rest hs iharguments ih
    obtain ⟨label, arguments, target, pos⟩ := s
    simp only [Statement.listMarks, Statement.marks, List.append_assoc, List.cons_append,
      List.nil_append, List.forall_mem_append, List.forall_mem_cons]
    refine ⟨fun m hm => ?_, iharguments, rfl, ih⟩
    have hkind := List.mem_map_of_mem (f := Mark.kind) hm
    rw [map_kind_wordMarks] at hkind
    obtain ⟨word, hword, hm⟩ := List.mem_map.mp hkind
    rw [← hm]
    exact hs.ofValue_of_mem_openingWords hword

/-- Plain statements can be read from their tokens. -/
theorem Statement.readable_of_isPlain (unit : ℕ) {program : List Statement}
    (hplain : ∀ s ∈ Statement.listPreorder program, s.IsPlain) :
    Statement.Readable unit program := by
  refine Statement.plain_induction (P := Argument.Readable unit) Argument.readable_nil ?text ?block
    Statement.readable_nil ?cons hplain
  case text =>
    intro s rest hs ih
    refine Argument.readable_text ?_ ih
    rintro rfl
    exact hs (by decide)
  case block => exact fun id body rest ihbody ih => Argument.readable_block ihbody ih
  case cons => exact fun s rest hs iharguments ih => Statement.readable_cons hs iharguments ih

/-- The texts of the tokens that a program is written as. -/
def Statement.rendering (program : List Statement) : List String :=
  (Statement.listMarks program).map fun m => m.kind.value

/-- **Parsing undoes rendering.** Let a program be written as tokens, which may stand at any places.
If no label and no text among the arguments is reserved and the return variables are identifiers,
then the tokens are parsed as a program of the same shape. In it each statement stands at the place
of its first token, and each block at that of its opening delimiter. -/
theorem parse_undoes_rendering (unit : ℕ) {program : List Statement}
    (hplain : ∀ s ∈ Statement.listPreorder program, s.IsPlain) {tokens : List Token}
    (htokens : tokens.map Token.kind = (Statement.rendering program).map TokenKind.ofValue) :
    ∃ parsed, parse unit tokens = .ok parsed ∧
      Statement.listShape parsed = Statement.listShape program ∧
      List.Forall₂ Mark.Fits (Statement.listMarks parsed) tokens := by
  have hkinds : tokens.map Token.kind = (Statement.listMarks program).map Mark.kind := by
    rw [htokens, Statement.rendering, List.map_map]
    exact List.map_congr_left (Statement.ofValue_of_mem_marks hplain)
  obtain ⟨parsed, hshape, hreads⟩ := Statement.readable_of_isPlain unit hplain tokens hkinds
  refine ⟨parsed, ?_, hshape, hreads.fits⟩
  have hparse := hreads.parseFrom_eq [] [] [] (by simp [Unbinding])
  simpa [parse, parseFrom, Level.close, Level.commit] using hparse

/-- A statement with the label `new` declares a variable named `new`, which is set in its block. -/
theorem parse_undoes_rendering_new :
    let program : List Statement :=
      [⟨"new", [.text "new", .block ⟨0, .start⟩ [⟨"f", [.text "1"], some ⟨"new", false⟩, .start⟩]],
        some ⟨"new", true⟩, .start⟩]
    let tokens : List Token :=
      ["new", "new", ":=", "new", "new", "\x7b", "new", ":=", "f", "1", "\n", "\x7d", "\n"].mapIdx
        fun i text => ⟨.ofValue text, ⟨1, i + 1⟩⟩
    (∀ s ∈ Statement.listPreorder program, s.IsPlain) ∧
      tokens.map Token.kind = (Statement.rendering program).map TokenKind.ofValue ∧
      ∃ parsed, parse 0 tokens = .ok parsed ∧
        Statement.listShape parsed = Statement.listShape program ∧
        List.Forall₂ Mark.Fits (Statement.listMarks parsed) tokens := by
  intro program tokens
  have hplain : ∀ s ∈ Statement.listPreorder program, s.IsPlain := by
    intro s hs
    simp only [program, Statement.listPreorder, Statement.preorder, Argument.listPreorder,
      Argument.preorder, List.mem_append, List.mem_cons, List.not_mem_nil, or_false, false_or]
      at hs
    rcases hs with rfl | rfl
    · exact ⟨by decide, by simp [reservedTexts], by decide⟩
    · exact ⟨by decide, by simp [reservedTexts], by decide⟩
  have htokens : tokens.map Token.kind = (Statement.rendering program).map TokenKind.ofValue := rfl
  exact ⟨hplain, htokens, parse_undoes_rendering 0 hplain htokens⟩

end Logo
