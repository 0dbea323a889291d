import Logo.Proofs.Eval
import Logo.Statement.Parse
import Mathlib.Data.Nat.Notation

/-!
# The steps of parsing

A statement starts with the words of its return binding and its label, which are read in one step.
Each token after them is a step of its own. The tokens of a return binding are words, since a
variable is an identifier and a label does not shape the program, so no delimiter or separator is
passed over.
-/

namespace Logo

/-! ## Words among tokens -/

/-- The texts that have a meaning of their own among tokens. -/
def reservedTexts : List String := ["\x7b", "\x7d", "\n", ":="]

/-- A text without a meaning of its own is a word. -/
theorem TokenKind.ofValue_of_not_mem {word : String} (h : word ∉ reservedTexts) :
    ofValue word = .word word := by
  simp only [reservedTexts, List.mem_cons, List.not_mem_nil, or_false, not_or] at h
  simp [ofValue, h]

/-- An identifier has no other meaning among tokens. -/
theorem not_mem_reservedTexts_of_isIdentifier {name : String} (h : isIdentifier name = true) :
    name ∉ reservedTexts := by
  intro hmem
  simp only [reservedTexts, List.mem_cons, List.not_mem_nil, or_false] at hmem
  rcases hmem with rfl | rfl | rfl | rfl
  all_goals exact absurd h (by decide)

/-- A token that does not shape the program is a word. -/
theorem Token.kind_of_not_isStructural {t : Token} (h : t.kind.isStructural = false) :
    t.kind = .word t.value := by
  obtain ⟨kind, pos⟩ := t
  cases kind with
  | word text => rfl
  | separator | blockOpen | blockClose => cases h

/-- The text of a word is this word. -/
theorem Token.value_of_kind {t : Token} {word : String} (h : t.kind = .word word) :
    t.value = word := by
  rw [Token.value, h, TokenKind.value]

/-- A token with a text that no delimiter or separator has is a word. -/
theorem Token.kind_of_value {t : Token} {word : String} (h : t.value = word)
    (hword : word ∉ ["\x7b", "\x7d", "\n"]) : t.kind = .word word := by
  obtain ⟨kind, pos⟩ := t
  subst h
  cases kind with
  | word text => rfl
  | separator | blockOpen | blockClose => simp [Token.value, TokenKind.value] at hword

/-- A token whose text is an identifier is a word. -/
theorem Token.kind_of_isIdentifier {t : Token} (h : isIdentifier t.value = true) :
    t.kind = .word t.value := by
  have hreserved := not_mem_reservedTexts_of_isIdentifier h
  simp only [reservedTexts, List.mem_cons, List.not_mem_nil, or_false, not_or] at hreserved
  exact kind_of_value rfl (by simp [hreserved])

/-- A token that shapes the program is no `:=`. -/
theorem Token.value_ne_of_isStructural {t : Token} (h : t.kind.isStructural = true) :
    t.value ≠ ":=" := by
  obtain ⟨kind, pos⟩ := t
  cases kind with
  | word text => cases h
  | separator | blockOpen | blockClose => simp [Token.value, TokenKind.value]

/-! ## The start of a statement -/

/-- The words of a return binding. -/
def Target.words (target : Target) : List String :=
  if target.fresh then ["new", target.name, ":="] else [target.name, ":="]

/-- The words that a statement starts with: its return binding, if it has one, and its label. -/
def openingWords (label : String) (target : Option Target) : List String :=
  target.elim [] Target.words ++ [label]

/-- A statement starts with one word at least. -/
theorem openingWords_ne_nil (label : String) (target : Option Target) :
    openingWords label target ≠ [] := by
  simp [openingWords]

namespace Draft

variable {first : Token} {rest : List Token} {d : Draft}

/-- A return binding is read from two words, the name of the variable and the label behind it. -/
theorem bound_eq_ok {name : Token} {fresh : Bool} {label? : Option Token}
    (h : bound first name fresh label? = .ok d) :
    name.kind = .word name.value ∧ ∃ label, label? = some label ∧ label.kind = .word label.value ∧
      d = { label := label.value, target := some ⟨name.value, fresh⟩, pos := first.pos } := by
  unfold bound at h
  split at h
  · next hname =>
    split at h
    · next label =>
      split at h
      · cases h
      · next hlabel =>
        cases h
        have hword := Token.kind_of_not_isStructural (by simpa using hlabel)
        exact ⟨Token.kind_of_isIdentifier hname, label, rfl, hword, rfl⟩
    · cases h
  · cases h

/-- The tokens that a statement's start takes are words, and they are those of its return binding
and its label. -/
theorem start_eq_ok {skip : ℕ} (hfirst : first.kind.isStructural = false)
    (h : start first rest = .ok (d, skip)) :
    d.pos = first.pos ∧ d.arguments = [] ∧ ∃ words more, rest = words ++ more ∧
      words.length = skip ∧
      (first :: words).map Token.kind = (openingWords d.label d.target).map .word := by
  have hword := Token.kind_of_not_isStructural hfirst
  unfold start at h
  split at h
  · next second third more =>
    split at h
    · next hnew =>
      obtain ⟨hvalue, hthird⟩ : first.value = "new" ∧ third.value = ":=" := by simpa using hnew
      obtain ⟨d', hbound, hd⟩ := map_eq_ok_iff.mp h
      cases hd
      obtain ⟨hname, label, hlabel, hkind, rfl⟩ := bound_eq_ok hbound
      obtain ⟨more', rfl⟩ := List.head?_eq_some_iff.mp hlabel
      refine ⟨rfl, rfl, [second, third, label], more', rfl, rfl, ?_⟩
      have hbind := Token.kind_of_value hthird (by decide)
      simp [openingWords, Target.words, hword, hvalue, hname, hbind, hkind]
    · split at h
      · next hsecond =>
        obtain ⟨d', hbound, hd⟩ := map_eq_ok_iff.mp h
        cases hd
        obtain ⟨_, label, hlabel, hkind, rfl⟩ := bound_eq_ok hbound
        cases hlabel
        refine ⟨rfl, rfl, [second, third], more, rfl, rfl, ?_⟩
        have hbind := Token.kind_of_value hsecond (by decide)
        simp [openingWords, Target.words, hword, hbind, hkind]
      · cases h
        exact ⟨rfl, rfl, [], _, rfl, rfl, by simp [openingWords, plain, hword]⟩
  · next second =>
    split at h
    · obtain ⟨d', hbound, _⟩ := map_eq_ok_iff.mp h
      obtain ⟨_, label, hlabel, _⟩ := bound_eq_ok hbound
      cases hlabel
    · cases h
      exact ⟨rfl, rfl, [], _, rfl, rfl, by simp [openingWords, plain, hword]⟩
  · cases h
    exact ⟨rfl, rfl, [], _, rfl, rfl, by simp [openingWords, plain, hword]⟩

/-- The words of a return binding and a label start a statement, provided that no `:=` follows
within two tokens. -/
theorem start_of_words {words more : List Token} {label : String} {target : Option Target}
    (hwords : (first :: words).map Token.kind = (openingWords label target).map .word)
    (hlabel : label ≠ ":=") (htarget : ∀ t ∈ target, isIdentifier t.name = true)
    (hmore : ∀ t ∈ more.take 2, t.value ≠ ":=") :
    start first (words ++ more) = .ok (⟨label, target, first.pos, []⟩, words.length) := by
  rcases target with _ | ⟨name, _ | _⟩
  · obtain ⟨hfirst, rfl⟩ : first.kind = .word label ∧ words = [] := by
      simpa [openingWords] using hwords
    have hvalue := Token.value_of_kind hfirst
    rcases more with _ | ⟨second, _ | ⟨third, more⟩⟩
    · simp [start, plain, hvalue]
    · simp_all [start, plain]
    · simp_all [start, plain]
  · simp only [openingWords, Target.words, Option.elim_some, Bool.false_eq_true, ↓reduceIte,
      List.cons_append, List.nil_append, List.map_cons, List.map_nil, List.cons.injEq,
      List.map_eq_cons_iff, List.map_eq_nil_iff] at hwords
    obtain ⟨hfirst, second, _, rfl, hsecond, third, _, rfl, hthird, rfl⟩ := hwords
    have hname : isIdentifier name = true := htarget _ rfl
    simp [start, bound, hname, Token.value_of_kind hfirst, Token.value_of_kind hsecond,
      Token.value_of_kind hthird, hthird, hlabel, TokenKind.isStructural, Except.map]
  · simp only [openingWords, Target.words, Option.elim_some, ↓reduceIte, List.cons_append,
      List.nil_append, List.map_cons, List.map_nil, List.cons.injEq, List.map_eq_cons_iff,
      List.map_eq_nil_iff] at hwords
    obtain ⟨hfirst, second, _, rfl, hsecond, third, _, rfl, hthird, fourth, _, rfl, hfourth, rfl⟩ :=
      hwords
    have hname : isIdentifier name = true := htarget _ rfl
    simp [start, bound, hname, Token.value_of_kind hfirst, Token.value_of_kind hsecond,
      Token.value_of_kind hthird, Token.value_of_kind hfourth, hfourth, TokenKind.isStructural,
      Except.map]

end Draft

/-! ## Steps -/

section Steps

variable {unit : ℕ} {enclosing : List (Position × Level)} {level : Level} {t : Token}
  {rest : List Token}

/-- Tokens that are already read are passed over. -/
theorem parseFrom_skip (skip : ℕ) (tokens : List Token) :
    parseFrom unit enclosing level skip tokens =
      parseFrom unit enclosing level 0 (tokens.drop skip) := by
  induction tokens generalizing skip with
  | nil => cases enclosing <;> simp [parseFrom]
  | cons t rest ih =>
    cases skip with
    | zero => rfl
    | succ skip => simp [parseFrom, ih]

/-- An opening brace starts a new level. -/
theorem parseFrom_blockOpen (h : t.kind = .blockOpen) :
    parseFrom unit enclosing level 0 (t :: rest) =
      parseFrom unit ((t.pos, level) :: enclosing) {} 0 rest := by
  cases enclosing <;> simp [parseFrom, h]

/-- A closing brace attaches the statements of its level to the level around it. -/
theorem parseFrom_blockClose {opened : Position} {outer : Level} (h : t.kind = .blockClose) :
    parseFrom unit ((opened, outer) :: enclosing) level 0 (t :: rest) =
      parseFrom unit enclosing (outer.attach ⟨unit, opened⟩ level.close) 0 rest := by
  simp [parseFrom, h]

/-- A separator commits the statement that is being read. -/
theorem parseFrom_separator (h : t.kind = .separator) :
    parseFrom unit enclosing level 0 (t :: rest) =
      parseFrom unit enclosing level.commit 0 rest := by
  cases enclosing <;> simp [parseFrom, h]

variable {statements : List Statement} {d : Draft} {word : String}

/-- A word is added to the statement that is being read. -/
theorem parseFrom_text (h : t.kind = .word word) :
    parseFrom unit enclosing ⟨statements, some d⟩ 0 (t :: rest) =
      parseFrom unit enclosing ⟨statements, some (d.add (.text word))⟩ 0 rest := by
  cases enclosing <;> simp [parseFrom, h]

/-- Where no statement is being read, a word starts one, and the words of its return binding are
passed over. -/
theorem parseFrom_start {skip : ℕ} (h : t.kind = .word word)
    (hstart : Draft.start t rest = .ok (d, skip)) :
    parseFrom unit enclosing ⟨statements, none⟩ 0 (t :: rest) =
      parseFrom unit enclosing ⟨statements, some d⟩ 0 (rest.drop skip) := by
  rw [← parseFrom_skip]
  cases enclosing <;> simp [parseFrom, h, hstart]

end Steps

/-! ## Accepted tokens -/

/-- How tokens are read as a program: `enclosing` holds the levels around the current one with the
places where their blocks were opened, innermost first. -/
inductive Parses (unit : ℕ) (program : List Statement) :
    List (Position × Level) → Level → List Token → Prop where
  | done {level : Level} (h : level.close = program) : Parses unit program [] level []
  | blockOpen {enclosing : List (Position × Level)} {level : Level} {t : Token} {rest : List Token}
      (ht : t.kind = .blockOpen) (h : Parses unit program ((t.pos, level) :: enclosing) {} rest) :
      Parses unit program enclosing level (t :: rest)
  | blockClose {enclosing : List (Position × Level)} {opened : Position} {outer level : Level}
      {t : Token} {rest : List Token} (ht : t.kind = .blockClose)
      (h : Parses unit program enclosing (outer.attach ⟨unit, opened⟩ level.close) rest) :
      Parses unit program ((opened, outer) :: enclosing) level (t :: rest)
  | separator {enclosing : List (Position × Level)} {level : Level} {t : Token} {rest : List Token}
      (ht : t.kind = .separator) (h : Parses unit program enclosing level.commit rest) :
      Parses unit program enclosing level (t :: rest)
  | text {enclosing : List (Position × Level)} {statements : List Statement} {d : Draft} {t : Token}
      {rest : List Token} {word : String} (ht : t.kind = .word word)
      (h : Parses unit program enclosing ⟨statements, some (d.add (.text word))⟩ rest) :
      Parses unit program enclosing ⟨statements, some d⟩ (t :: rest)
  /-- The start of a statement is read as a whole. -/
  | start {enclosing : List (Position × Level)} {statements : List Statement} {label : String}
      {target : Option Target} {first : Token} {words rest : List Token}
      (hwords : (first :: words).map Token.kind = (openingWords label target).map .word)
      (h : Parses unit program enclosing ⟨statements, some ⟨label, target, first.pos, []⟩⟩ rest) :
      Parses unit program enclosing ⟨statements, none⟩ (first :: (words ++ rest))

/-- A program that is parsed is read as described by `Parses`. -/
theorem Parses.of_parseFrom {unit : ℕ} {program : List Statement}
    {enclosing : List (Position × Level)} {level : Level} {skip : ℕ} {tokens : List Token}
    (h : parseFrom unit enclosing level skip tokens = .ok program) :
    Parses unit program enclosing level (tokens.drop skip) := by
  fun_induction parseFrom unit enclosing level skip tokens with
  | case1 level skip =>
    rw [List.drop_nil]
    exact .done (Except.ok.inj h)
  | case2 => cases h
  | case3 enclosing level skip t rest ih => exact ih h
  | case4 enclosing level t rest ht ih => exact .blockOpen ht (ih h)
  | case5 => cases h
  | case6 level t rest ht opened outer enclosing ih => exact .blockClose ht (ih h)
  | case7 enclosing level t rest ht ih => exact .separator ht (ih h)
  | case8 enclosing level t rest word ht d hd ih =>
    obtain ⟨statements, draft⟩ := level
    obtain rfl : draft = some d := hd
    exact .text ht (ih h)
  | case9 => cases h
  | case10 enclosing level t rest word ht hd d skip hstart ih =>
    obtain ⟨statements, draft⟩ := level
    obtain rfl : draft = none := hd
    obtain ⟨hpos, harguments, words, more, rfl, rfl, hwords⟩ :=
      Draft.start_eq_ok (by simp [ht, TokenKind.isStructural]) hstart
    obtain ⟨label, target, pos, arguments⟩ := d
    obtain rfl : pos = t.pos := hpos
    obtain rfl : arguments = [] := harguments
    have hrest := ih h
    rw [List.drop_left] at hrest
    exact .start hwords hrest

end Logo
