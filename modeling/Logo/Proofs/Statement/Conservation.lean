import Logo.Proofs.Statement.Rendering
import Mathlib.Algebra.Ring.Nat

/-!
# What parsing keeps of the tokens

Parsing takes the words of a program in their order and leaves none out. A statement keeps the place
of its first word. A block becomes an argument exactly if a statement is being read where it is
opened; the statements of any other block join those around it.
-/

namespace Logo

/-- The marks of arguments in a row are those of each. -/
@[simp] theorem Argument.listMarks_append (arguments rest : List Argument) :
    listMarks (arguments ++ rest) = listMarks arguments ++ listMarks rest := by
  induction arguments with
  | nil => rfl
  | cons a arguments ih => simp [listMarks, ih]

/-- The marks of statements in a row are those of each. -/
@[simp] theorem Statement.listMarks_append (program rest : List Statement) :
    listMarks (program ++ rest) = listMarks program ++ listMarks rest := by
  induction program with
  | nil => rfl
  | cons s program ih => simp [listMarks, ih]

/-- The statements inside arguments in a row are those of each. -/
@[simp] theorem Argument.listPreorder_append (arguments rest : List Argument) :
    listPreorder (arguments ++ rest) = listPreorder arguments ++ listPreorder rest := by
  induction arguments with
  | nil => rfl
  | cons a arguments ih => simp [listPreorder, ih]

/-- The statements of programs in a row are those of each. -/
@[simp] theorem Statement.listPreorder_append (program rest : List Statement) :
    listPreorder (program ++ rest) = listPreorder program ++ listPreorder rest := by
  induction program with
  | nil => rfl
  | cons s program ih => simp [listPreorder, ih]

/-! ## Words -/

/-- The marks among some that ask for words. -/
def Mark.words (marks : List Mark) : List Mark := marks.filter fun m => !m.kind.isStructural

namespace Mark

/-- The marks of words in a row are those of each. -/
@[simp] theorem words_append (marks rest : List Mark) :
    words (marks ++ rest) = words marks ++ words rest :=
  List.filter_append ..

/-- The marks of words all ask for words. -/
@[simp] theorem words_wordMarks (pos : Position) (texts : List String) :
    words (wordMarks pos texts) = wordMarks pos texts := by
  cases texts with
  | nil => rfl
  | cons text texts => simp [words, wordMarks, TokenKind.isStructural]

/-- A statement has the words of its start and those of its arguments. -/
theorem words_statement (s : Statement) :
    words (Statement.listMarks [s]) =
      wordMarks s.pos (openingWords s.label s.target) ++
        words (Argument.listMarks s.arguments) := by
  obtain ⟨label, arguments, target, pos⟩ := s
  have hend : words [{ kind := .separator }] = [] := rfl
  simp [Statement.listMarks, Statement.marks, hend]

/-- A block has the words of its statements. -/
theorem words_block (id : BlockId) (body : List Statement) :
    words (Argument.listMarks [.block id body]) = words (Statement.listMarks body) := by
  simp [Argument.listMarks, Argument.marks, words, TokenKind.isStructural]

end Mark

/-- The words among some tokens. -/
def Token.words (tokens : List Token) : List Token := tokens.filter fun t => !t.kind.isStructural

/-- A token that shapes the program is no word. -/
theorem Token.words_cons_of_isStructural {t : Token} (h : t.kind.isStructural = true)
    (rest : List Token) : words (t :: rest) = words rest :=
  List.filter_cons_of_neg (by simp [h])

/-- Tokens that are words all count as words. -/
theorem Token.words_append_of_map_kind {tokens : List Token} {texts : List String}
    (h : tokens.map Token.kind = texts.map .word) (rest : List Token) :
    words (tokens ++ rest) = tokens ++ words rest := by
  have hall : ∀ t ∈ tokens, (!t.kind.isStructural) = true := by
    intro t ht
    obtain ⟨text, _, hkind⟩ := List.mem_map.mp (h ▸ List.mem_map_of_mem ht)
    rw [← hkind]
    rfl
  rw [words, List.filter_append, List.filter_eq_self.mpr hall, words]

namespace Level

/-- The words of what was read on a level. -/
def words (l : Level) : List Mark :=
  Mark.words (Statement.listMarks l.statements.reverse) ++
    l.draft.elim [] fun d =>
      wordMarks d.pos (openingWords d.label d.target) ++
        Mark.words (Argument.listMarks d.arguments.reverse)

/-- Nothing was read on a new level. -/
@[simp] theorem words_empty : ({} : Level).words = [] := rfl

/-- Committing a statement keeps its words. -/
theorem words_commit (l : Level) : l.commit.words = l.words := by
  obtain ⟨statements, _ | d⟩ := l
  · rfl
  · simp [commit, words, Draft.finish, Mark.words_statement]

/-- The statements of a level that is closed have the words of the level. -/
theorem words_close (l : Level) : Mark.words (Statement.listMarks l.close) = l.words := by
  obtain ⟨statements, _ | d⟩ := l
  · simp [close, commit, words]
  · simp [close, commit, words, Draft.finish, Mark.words_statement]

/-- A block that is attached adds its words. -/
theorem words_attach (l : Level) (id : BlockId) (body : List Statement) :
    (l.attach id body).words = l.words ++ Mark.words (Statement.listMarks body) := by
  obtain ⟨statements, _ | d⟩ := l
  · simp [attach, words]
  · simp [attach, words, Draft.add, Mark.words_block]

/-- A text that is added is one word more. -/
theorem words_text (statements : List Statement) (d : Draft) (word : String) :
    (⟨statements, some (d.add (.text word))⟩ : Level).words =
      (⟨statements, some d⟩ : Level).words ++ [{ kind := .word word }] := by
  have hword : Mark.words [{ kind := .word word }] = [{ kind := .word word }] := rfl
  simp [words, Draft.add, Argument.listMarks, Argument.marks, hword]

/-- A statement that is started has the words that it starts with. -/
theorem words_start (statements : List Statement) (label : String) (target : Option Target)
    (pos : Position) :
    (⟨statements, some ⟨label, target, pos, []⟩⟩ : Level).words =
      (⟨statements, none⟩ : Level).words ++ wordMarks pos (openingWords label target) := by
  have hnone : Mark.words (Argument.listMarks []) = [] := rfl
  simp [words, hnone]

end Level

/-- The words of what was read on the levels around the current one. -/
def wordsBefore : List (Position × Level) → List Mark
  | [] => []
  | (_, outer) :: enclosing => wordsBefore enclosing ++ outer.words

/-- The words that were read and those still to come are the words of the program. -/
theorem Parses.forall₂_words {unit : ℕ} {program : List Statement}
    {enclosing : List (Position × Level)} {level : Level} {tokens seen : List Token}
    (h : Parses unit program enclosing level tokens)
    (hseen : List.Forall₂ Mark.Fits (wordsBefore enclosing ++ level.words) seen) :
    List.Forall₂ Mark.Fits (Mark.words (Statement.listMarks program))
      (seen ++ Token.words tokens) := by
  induction h generalizing seen with
  | done h =>
    rw [← h, Level.words_close]
    simpa [wordsBefore, Token.words] using hseen
  | blockOpen ht h ih =>
    rw [Token.words_cons_of_isStructural (by rw [ht]; rfl)]
    exact ih (by simpa [wordsBefore] using hseen)
  | blockClose ht h ih =>
    rw [Token.words_cons_of_isStructural (by rw [ht]; rfl)]
    exact ih (by simpa [wordsBefore, Level.words_attach, Level.words_close] using hseen)
  | separator ht h ih =>
    rw [Token.words_cons_of_isStructural (by rw [ht]; rfl)]
    exact ih (by rwa [Level.words_commit])
  | @text _ statements d t rest word ht h ih =>
    have hkind : [t].map Token.kind = [word].map .word := by simp [ht]
    have hfits : List.Forall₂ Mark.Fits [{ kind := .word word }] [t] := .cons ⟨ht, by simp⟩ .nil
    rw [← List.singleton_append, Token.words_append_of_map_kind hkind, ← List.append_assoc]
    refine ih ?_
    rw [Level.words_text, ← List.append_assoc]
    exact List.rel_append hseen hfits
  | start hwords h ih =>
    rw [← List.cons_append, Token.words_append_of_map_kind hwords, ← List.append_assoc]
    refine ih ?_
    rw [Level.words_start, ← List.append_assoc]
    exact List.rel_append hseen (fits_wordMarks hwords)

/-! ## Blocks -/

/-- How many blocks are arguments of some statements, at any depth. -/
def Statement.blocks (program : List Statement) : ℕ :=
  ((Statement.listPreorder program).map Statement.blockCount).sum

/-- How many blocks there are among some arguments, at any depth. -/
def Argument.blocks (arguments : List Argument) : ℕ :=
  arguments.countP Argument.isBlock +
    ((Argument.listPreorder arguments).map Statement.blockCount).sum

/-- The blocks of programs in a row are counted together. -/
@[simp] theorem Statement.blocks_append (program rest : List Statement) :
    blocks (program ++ rest) = blocks program + blocks rest := by
  simp [blocks]

/-- The blocks of arguments in a row are counted together. -/
@[simp] theorem Argument.blocks_append (arguments rest : List Argument) :
    blocks (arguments ++ rest) = blocks arguments + blocks rest := by
  simp only [blocks, List.countP_append, listPreorder_append, List.map_append, List.sum_append]
  omega

/-- The blocks of a statement are those among its arguments. -/
theorem Statement.blocks_singleton (s : Statement) : blocks [s] = Argument.blocks s.arguments := by
  obtain ⟨label, arguments, target, pos⟩ := s
  simp [blocks, Argument.blocks, Statement.listPreorder, Statement.preorder, Statement.blockCount]

/-- Among no arguments there is no block. -/
theorem Argument.blocks_nil : blocks [] = 0 := rfl

/-- A text is no block. -/
theorem Argument.blocks_text (s : String) : blocks [.text s] = 0 := rfl

/-- A block counts together with the blocks in it. -/
theorem Argument.blocks_block (id : BlockId) (body : List Statement) :
    blocks [.block id body] = Statement.blocks body + 1 := by
  simp [blocks, Statement.blocks, listPreorder, preorder, isBlock, Nat.add_comm]

/-- How many blocks are opened among tokens while a statement is being read on their level.
`pending` says whether one is being read on the current level, and `outer` says this of the levels
around it, innermost first. -/
def attachedBlocks : (pending : Bool) → (outer : List Bool) → List TokenKind → ℕ
  | _, _, [] => 0
  | pending, outer, .blockOpen :: rest =>
    (if pending then 1 else 0) + attachedBlocks false (pending :: outer) rest
  | _, pending :: outer, .blockClose :: rest => attachedBlocks pending outer rest
  | _, [], .blockClose :: rest => attachedBlocks false [] rest
  | _, outer, .separator :: rest => attachedBlocks false outer rest
  | _, outer, .word _ :: rest => attachedBlocks true outer rest

/-- After words a statement is being read. -/
theorem attachedBlocks_words_append {texts : List String} (h : texts ≠ []) (pending : Bool)
    (outer : List Bool) (rest : List TokenKind) :
    attachedBlocks pending outer (texts.map .word ++ rest) = attachedBlocks true outer rest := by
  induction texts generalizing pending with
  | nil => exact absurd rfl h
  | cons text texts ih =>
    rw [List.map_cons, List.cons_append, attachedBlocks]
    cases texts with
    | nil => rfl
    | cons second texts => exact ih (by simp) true

namespace Level

/-- How many blocks there are in what was read on a level. -/
def blocks (l : Level) : ℕ :=
  Statement.blocks l.statements.reverse +
    l.draft.elim 0 fun d => Argument.blocks d.arguments.reverse

/-- There are no blocks on a new level. -/
@[simp] theorem blocks_empty : ({} : Level).blocks = 0 := rfl

/-- Committing a statement keeps its blocks. -/
theorem blocks_commit (l : Level) : l.commit.blocks = l.blocks := by
  obtain ⟨statements, _ | d⟩ := l
  · rfl
  · simp [commit, blocks, Draft.finish, Statement.blocks_singleton]

/-- The statements of a level that is closed have the blocks of the level. -/
theorem blocks_close (l : Level) : Statement.blocks l.close = l.blocks := by
  obtain ⟨statements, _ | d⟩ := l
  · simp [close, commit, blocks]
  · simp [close, commit, blocks, Draft.finish, Statement.blocks_singleton]

/-- A block that is attached adds itself, if there is a statement to take it, and the blocks in it.
-/
theorem blocks_attach (l : Level) (id : BlockId) (body : List Statement) :
    (l.attach id body).blocks =
      l.blocks + (if l.draft.isSome then 1 else 0) + Statement.blocks body := by
  obtain ⟨statements, _ | d⟩ := l
  · simp [attach, blocks]
  · simp [attach, blocks, Draft.add, Argument.blocks_block]
    omega

/-- After a statement has been committed, none is being read. -/
theorem draft_commit (l : Level) : l.commit.draft = none := by
  obtain ⟨statements, _ | d⟩ := l <;> rfl

/-- Attaching a block does not change whether a statement is being read. -/
theorem isSome_draft_attach (l : Level) (id : BlockId) (body : List Statement) :
    (l.attach id body).draft.isSome = l.draft.isSome := by
  obtain ⟨statements, _ | d⟩ := l <;> rfl

end Level

/-- How many blocks there are in what was read on the levels around the current one, counting those
that are open and will become arguments. -/
def blocksBefore : List (Position × Level) → ℕ
  | [] => 0
  | (_, outer) :: enclosing =>
    blocksBefore enclosing + outer.blocks + if outer.draft.isSome then 1 else 0

/-- The blocks of a program are those that were read, and those that its tokens open while a
statement is being read. -/
theorem Parses.blocks_eq {unit : ℕ} {program : List Statement}
    {enclosing : List (Position × Level)} {level : Level} {tokens : List Token}
    (h : Parses unit program enclosing level tokens) :
    Statement.blocks program = blocksBefore enclosing + level.blocks +
      attachedBlocks level.draft.isSome (enclosing.map fun l => l.2.draft.isSome)
        (tokens.map Token.kind) := by
  induction h with
  | done h => simp [← h, Level.blocks_close, blocksBefore, attachedBlocks]
  | blockOpen ht h ih =>
    rw [ih]
    simp only [List.map_cons, ht, attachedBlocks, blocksBefore, Level.blocks_empty,
      Option.isSome_none]
    omega
  | @blockClose _ _ outer _ _ _ ht h ih =>
    rw [ih, Level.blocks_attach, Level.blocks_close, Level.isSome_draft_attach]
    simp only [List.map_cons, ht, attachedBlocks, blocksBefore]
    omega
  | @separator enclosing level _ _ ht h ih =>
    rw [ih, Level.blocks_commit, Level.draft_commit, List.map_cons, ht]
    rw [attachedBlocks]
    rfl
  | text ht h ih =>
    rw [ih]
    simp [ht, attachedBlocks, Level.blocks, Draft.add, Argument.blocks_text]
  | start hwords h ih =>
    rw [ih, ← List.cons_append, List.map_append, hwords,
      attachedBlocks_words_append (openingWords_ne_nil _ _)]
    simp [Level.blocks, Argument.blocks_nil]

/-- **Parsing conserves the tokens.** The words of a parsed program are the words among the tokens,
in order: the return binding of each statement, its label, and then its arguments, with the words of
a block where the block stands. A statement stands at the place of its first token. As many blocks
are arguments as are opened while a statement is being read on their level. -/
theorem parse_conserves_tokens {unit : ℕ} {tokens : List Token} {program : List Statement}
    (h : parse unit tokens = .ok program) :
    List.Forall₂ Mark.Fits (Mark.words (Statement.listMarks program)) (Token.words tokens) ∧
      Statement.blocks program = attachedBlocks false [] (tokens.map Token.kind) := by
  have hparses : Parses unit program [] {} tokens := Parses.of_parseFrom h
  exact ⟨hparses.forall₂_words .nil, by simpa [blocksBefore] using hparses.blocks_eq⟩

/-- The statement of a block that follows no statement joins those around it, and keeps its own
block. -/
theorem parse_conserves_tokens_joined :
    let tokens : List Token :=
      ["\x7b", "new", "x", ":=", "f", "\x7b", "g", "1", "\x7d", "2", "\x7d", "\n", "h"].mapIdx
        fun i text => ⟨.ofValue text, ⟨1, i + 1⟩⟩
    let program : List Statement :=
      [⟨"f", [.block ⟨0, ⟨1, 6⟩⟩ [⟨"g", [.text "1"], none, ⟨1, 7⟩⟩], .text "2"], some ⟨"x", true⟩,
        ⟨1, 2⟩⟩, ⟨"h", [], none, ⟨1, 13⟩⟩]
    parse 0 tokens = .ok program ∧
      List.Forall₂ Mark.Fits (Mark.words (Statement.listMarks program)) (Token.words tokens) ∧
      Statement.blocks program = attachedBlocks false [] (tokens.map Token.kind) := by
  intro tokens program
  have hparse : parse 0 tokens = .ok program := rfl
  exact ⟨hparse, parse_conserves_tokens hparse⟩

end Logo
