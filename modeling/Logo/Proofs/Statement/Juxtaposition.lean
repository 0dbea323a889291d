import Logo.Proofs.Statement.Rendering
import Logo.Token.Scan

/-!
# Programs one after the other

What is read of a program does not depend on the statements before it: they are kept on the
outermost level and come first in the end. It depends on the tokens behind it in one case only. The
word `new` looks two tokens ahead for a `:=`. So where it is the last token of a program, and a
statement of its own, the token after it is taken for a name, also if it is a separator.
-/

namespace Logo

/-! ## Statements before a program -/

/-- A level with earlier statements, last first, before those that are read on it. -/
def Level.onto (l : Level) (earlier : List Statement) : Level :=
  { l with statements := l.statements ++ earlier }

namespace Level

variable (l : Level) (earlier : List Statement)

/-- Committing a statement leaves earlier ones alone. -/
theorem commit_onto : (l.onto earlier).commit = l.commit.onto earlier := by
  obtain ⟨statements, _ | d⟩ := l
  · rfl
  · rfl

/-- Closing a level leaves earlier statements alone. -/
theorem close_onto : (l.onto earlier).close = earlier.reverse ++ l.close := by
  rw [close, commit_onto, onto, List.reverse_append, close]

/-- Attaching a block leaves earlier statements alone. -/
theorem attach_onto (id : BlockId) (body : List Statement) :
    (l.onto earlier).attach id body = (l.attach id body).onto earlier := by
  obtain ⟨statements, _ | d⟩ := l
  · simp [attach, onto]
  · rfl

end Level

/-- Whether two states of the parser are the same, apart from earlier statements on the outermost
level of the second one. -/
inductive Grounded (earlier : List Statement) :
    List (Position × Level) → Level → List (Position × Level) → Level → Prop
  | ground (level : Level) : Grounded earlier [] level [] (level.onto earlier)
  | inside {enclosing enclosing' : List (Position × Level)} {outer outer' : Level}
      (h : Grounded earlier enclosing outer enclosing' outer') (opened : Position)
      (level : Level) :
      Grounded earlier ((opened, outer) :: enclosing) level ((opened, outer') :: enclosing') level

namespace Grounded

variable {earlier : List Statement} {enclosing enclosing' : List (Position × Level)}
  {level level' : Level}

/-- Earlier statements do not change the statement that is being read. -/
theorem draft_eq (h : Grounded earlier enclosing level enclosing' level') :
    level'.draft = level.draft := by
  cases h with
  | ground => rfl
  | inside => rfl

/-- A change of the current level that leaves earlier statements alone. -/
theorem change (h : Grounded earlier enclosing level enclosing' level') {f : Level → Level}
    (hf : ∀ l : Level, f (l.onto earlier) = (f l).onto earlier) :
    Grounded earlier enclosing (f level) enclosing' (f level') := by
  cases h with
  | ground =>
    rw [hf]
    exact .ground _
  | inside h => exact .inside h _ _

/-- Earlier statements come first in the end, and make no other difference. -/
theorem parseFrom_eq (h : Grounded earlier enclosing level enclosing' level') (unit skip : ℕ)
    (tokens : List Token) :
    parseFrom unit enclosing' level' skip tokens =
      (parseFrom unit enclosing level skip tokens).map (earlier.reverse ++ ·) := by
  fun_induction parseFrom unit enclosing level skip tokens generalizing enclosing' level' with
  | case1 level skip =>
    cases h
    simp [parseFrom, Except.map, Level.close_onto]
  | case2 =>
    cases h
    rfl
  | case3 enclosing level skip t rest ih =>
    rw [← ih h]
    cases enclosing' <;> rfl
  | case4 enclosing level t rest ht ih =>
    rw [parseFrom_blockOpen ht]
    exact ih (.inside h _ _)
  | case5 level t rest ht =>
    cases h
    simp [parseFrom, ht, Except.map]
  | case6 level t rest ht opened outer enclosing ih =>
    rcases h with _ | ⟨houter, _, _⟩
    rw [parseFrom_blockClose ht]
    exact ih (houter.change (f := (·.attach _ _)) fun l => l.attach_onto earlier _ _)
  | case7 enclosing level t rest ht ih =>
    rw [parseFrom_separator ht]
    exact ih (h.change (f := Level.commit) fun l => l.commit_onto earlier)
  | case8 enclosing level t rest word ht d hd ih =>
    rw [← ih (h.change (f := fun l => { l with draft := some (d.add (.text word)) }) fun _ => rfl)]
    obtain ⟨statements, draft⟩ := level'
    obtain rfl : draft = some d := h.draft_eq.trans hd
    exact parseFrom_text ht
  | case9 enclosing level t rest word ht hd fault hstart =>
    obtain ⟨statements, draft⟩ := level'
    obtain rfl : draft = none := h.draft_eq.trans hd
    cases enclosing' <;> simp [parseFrom, ht, hstart, Except.map]
  | case10 enclosing level t rest word ht hd d skip hstart ih =>
    rw [← ih (h.change (f := fun l => { l with draft := some d }) fun _ => rfl),
      parseFrom_skip skip]
    obtain ⟨statements, draft⟩ := level'
    obtain rfl : draft = none := h.draft_eq.trans hd
    exact parseFrom_start ht hstart

end Grounded

/-- Behind a separator a program is read as if it stood alone. -/
theorem parseFrom_separator_eq_map {unit : ℕ} {level : Level} {separator : Token}
    (h : separator.kind = .separator) (tokens : List Token) :
    parseFrom unit [] level 0 (separator :: tokens) =
      (parse unit tokens).map (level.close ++ ·) := by
  have hcommit : level.commit = ({} : Level).onto level.commit.statements := by
    obtain ⟨statements, _ | d⟩ := level
    · rfl
    · rfl
  rw [parseFrom_separator h, hcommit]
  exact (Grounded.ground {}).parseFrom_eq unit 0 tokens

/-! ## Tokens behind a program -/

namespace Draft

variable {first : Token} {rest ahead : List Token} {d : Draft} {skip : ℕ}

/-- No return binding is without a label. -/
theorem map_bound_none_ne_ok {name : Token} {fresh : Bool} {start : Draft × ℕ} :
    (bound first name fresh none).map (·, skip) ≠ .ok start := by
  intro h
  obtain ⟨d, hbound, _⟩ := map_eq_ok_iff.mp h
  obtain ⟨_, label, hlabel, _⟩ := bound_eq_ok hbound
  cases hlabel

/-- Tokens that follow make no difference to the start of a statement if none of them is taken for
the `:=` of a return binding. -/
theorem start_append (h : start first rest = .ok (d, skip)) (hahead : Unbinding 1 ahead)
    (hnew : rest = [] → first.value = "new" → Unbinding 2 ahead) :
    start first (rest ++ ahead) = .ok (d, skip) := by
  rcases rest with _ | ⟨second, _ | ⟨third, more⟩⟩
  · rw [← h, List.nil_append]
    rcases ahead with _ | ⟨second, _ | ⟨third, more⟩⟩
    · rfl
    · simp_all [start, Unbinding]
    · simp_all [start, Unbinding]
  · have hsecond : second.value ≠ ":=" := by
      intro hsecond
      simp only [start, hsecond, if_true] at h
      exact map_bound_none_ne_ok h
    rw [← h]
    rcases ahead with _ | ⟨third, more⟩
    · rfl
    · simp_all [start, Unbinding]
  · rcases more with _ | ⟨label, more⟩
    · have hthird : ¬(first.value = "new" ∧ third.value = ":=") := by
        rintro ⟨hfirst, hthird⟩
        simp only [start, hfirst, hthird, decide_true, Bool.and_self, if_true] at h
        exact map_bound_none_ne_ok h
      rw [← h]
      simp [start, hthird]
    · exact h

/-- The word `new` takes a separator for the name of a variable. -/
theorem start_new_separator {separator bind : Token} {more : List Token}
    (hfirst : first.value = "new") (hseparator : separator.kind = .separator)
    (hbind : bind.value = ":=") :
    start first (separator :: bind :: more) =
      .error (.malformedBinding "<separator>" separator.pos) := by
  have hvalue : separator.value = "\n" := by rw [Token.value, hseparator, TokenKind.value]
  have hname : isIdentifier separator.value = false := by
    rw [hvalue]
    decide
  simp [start, hfirst, hbind, bound, hname, Token.malformedBinding, Token.shown, hseparator,
    Except.map]

end Draft

/-- Whether the last token is the word `new`, and the last statement is this word alone. -/
def EndsInNew (tokens : List Token) (program : List Statement) : Prop :=
  ∃ t ∈ tokens.getLast?, t.value = "new" ∧ program.getLast? = some ⟨"new", [], none, t.pos⟩

/-- Whether the first token is `:=`. -/
def StartsWithBinding (tokens : List Token) : Prop := ∃ t ∈ tokens.head?, t.value = ":="

/-- What is still being read at the end is the last statement. -/
theorem Level.getLast?_close {l : Level} {d : Draft} (h : l.draft = some d) :
    l.close.getLast? = some d.finish := by
  simp [close, commit, h]

/-- A separator is no `:=`. -/
theorem unbinding_separator {separator : Token} (h : separator.kind = .separator)
    (tokens : List Token) : Unbinding 1 (separator :: tokens) :=
  .cons (Token.value_ne_of_isStructural (by rw [h]; rfl)) (.zero _)

/-- Behind a separator there is no `:=` exactly if what follows does not start with one. -/
theorem unbinding_separator_iff {separator : Token} (h : separator.kind = .separator)
    (tokens : List Token) : Unbinding 2 (separator :: tokens) ↔ ¬StartsWithBinding tokens := by
  have hvalue : separator.value ≠ ":=" := Token.value_ne_of_isStructural (by rw [h]; rfl)
  rcases tokens with _ | ⟨t, tokens⟩
  · simp [Unbinding, StartsWithBinding, hvalue]
  · simp [Unbinding, StartsWithBinding, hvalue]

section Ahead

variable {unit : ℕ} {enclosing : List (Position × Level)} {level : Level} {skip : ℕ}
  {tokens rest : List Token} {program : List Statement} {separator t : Token}

/-- Where the tokens end, no block may be open, and the program is what was read on the outermost
level. -/
theorem close_of_parseFrom_nil (h : parseFrom unit enclosing level skip [] = .ok program) :
    enclosing = [] ∧ level.close = program := by
  cases enclosing with
  | nil => exact ⟨rfl, Except.ok.inj h⟩
  | cons => cases h

/-- Only the last token counts. -/
theorem endsInNew_cons_iff
    (h : tokens = [] → t.value = "new" → program.getLast? ≠ some ⟨"new", [], none, t.pos⟩) :
    EndsInNew (t :: tokens) program ↔ EndsInNew tokens program := by
  cases tokens with
  | nil => simpa [EndsInNew] using h rfl
  | cons => simp [EndsInNew, List.getLast?_cons_cons]

/-- A token that shapes the program can be put in front without changing how the program ends. -/
theorem endsInNew_cons_iff_of_isStructural (h : t.kind.isStructural = true) :
    EndsInNew (t :: tokens) program ↔ EndsInNew tokens program := by
  refine endsInNew_cons_iff fun _ hvalue => ?_
  rw [Token.kind_of_value hvalue (by decide)] at h
  cases h

/-- The words that start a statement are behind the parser if anything follows them, and else they
are not `new` alone, unless there is one of them. -/
theorem endsInNew_start_iff {d : Draft} (ht : t.kind.isStructural = false) (hrest : rest ≠ [])
    (hd : level.draft = some d) (hstart : Draft.start t rest = .ok (d, skip))
    (h : parseFrom unit enclosing level skip rest = .ok program) :
    EndsInNew (t :: rest) program ↔ EndsInNew (rest.drop skip) program := by
  obtain ⟨_, harguments, words, more, rfl, rfl, hwords⟩ := Draft.start_eq_ok ht hstart
  rw [List.drop_left]
  rcases more with _ | ⟨u, more⟩
  · rw [List.append_nil] at hrest h ⊢
    rw [parseFrom_skip, List.drop_length] at h
    obtain ⟨_, rfl⟩ := close_of_parseFrom_nil h
    rw [EndsInNew, Level.getLast?_close hd, Draft.finish]
    refine iff_of_false ?_ (by simp [EndsInNew])
    rintro ⟨_, _, _, hbare⟩
    obtain ⟨_, _, htarget, _⟩ : d.label = "new" ∧ _ ∧ d.target = none ∧ _ := by simpa using hbare
    rw [htarget] at hwords
    exact hrest (by simpa [openingWords] using congrArg List.length hwords)
  · rw [← List.cons_append, EndsInNew, List.getLast?_append_of_ne_nil _ (by simp)]
    rfl

/-- Where tokens are a program, what follows them is read from the level that they have come to,
unless they end with `new` and a `:=` follows behind the separator. -/
theorem parseFrom_append (hseparator : separator.kind = .separator) (ahead : List Token)
    (h : parseFrom unit enclosing level skip tokens = .ok program) (hskip : skip ≤ tokens.length) :
    (EndsInNew (tokens.drop skip) program ∧ StartsWithBinding ahead →
      parseFrom unit enclosing level skip (tokens ++ separator :: ahead) =
        .error (.malformedBinding "<separator>" separator.pos)) ∧
    (¬(EndsInNew (tokens.drop skip) program ∧ StartsWithBinding ahead) →
      ∃ last : Level, last.close = program ∧
        parseFrom unit enclosing level skip (tokens ++ separator :: ahead) =
          parseFrom unit [] last 0 (separator :: ahead)) := by
  fun_induction parseFrom unit enclosing level skip tokens with
  | case1 level skip =>
    obtain rfl : skip = 0 := by simpa using hskip
    refine ⟨?_, fun _ => ⟨level, Except.ok.inj h, rfl⟩⟩
    rintro ⟨⟨t, ht, _⟩, _⟩
    cases ht
  | case2 => cases h
  | case3 enclosing level skip t rest ih =>
    have hrest : parseFrom unit enclosing level (skip + 1) (t :: rest ++ separator :: ahead) =
      parseFrom unit enclosing level skip (rest ++ separator :: ahead) := by simp [parseFrom]
    rw [hrest]
    exact ih h (Nat.le_of_succ_le_succ hskip)
  | case4 enclosing level t rest ht ih =>
    rw [List.drop_zero, endsInNew_cons_iff_of_isStructural (by rw [ht]; rfl), List.cons_append,
      parseFrom_blockOpen ht]
    exact ih h (Nat.zero_le _)
  | case5 => cases h
  | case6 level t rest ht opened outer enclosing ih =>
    rw [List.drop_zero, endsInNew_cons_iff_of_isStructural (by rw [ht]; rfl), List.cons_append,
      parseFrom_blockClose ht]
    exact ih h (Nat.zero_le _)
  | case7 enclosing level t rest ht ih =>
    rw [List.drop_zero, endsInNew_cons_iff_of_isStructural (by rw [ht]; rfl), List.cons_append,
      parseFrom_separator ht]
    exact ih h (Nat.zero_le _)
  | case8 enclosing level t rest word ht d hd ih =>
    obtain ⟨statements, draft⟩ := level
    obtain rfl : draft = some d := hd
    rw [List.drop_zero, endsInNew_cons_iff, List.cons_append, parseFrom_text ht]
    · exact ih h (Nat.zero_le _)
    · rintro rfl _
      obtain ⟨_, rfl⟩ := close_of_parseFrom_nil h
      simp [Level.getLast?_close, Draft.add, Draft.finish]
  | case9 => cases h
  | case10 enclosing level t rest word ht hd d skip hstart ih =>
    have hstructural : t.kind.isStructural = false := by rw [ht]; rfl
    obtain ⟨statements, draft⟩ := level
    obtain rfl : draft = none := hd
    rcases eq_or_ne rest [] with rfl | hrest
    · obtain ⟨rfl, rfl⟩ : d = .plain t ∧ skip = 0 := by simpa [Draft.start, eq_comm] using hstart
      obtain ⟨rfl, rfl⟩ := close_of_parseFrom_nil h
      have hends : EndsInNew [t] (Level.close ⟨statements, some (.plain t)⟩) ↔ t.value = "new" := by
        simp [EndsInNew, Level.getLast?_close, Draft.finish, Draft.plain]
      rw [List.drop_zero, hends, List.singleton_append]
      refine ⟨?_, fun hsafe => ⟨_, rfl, parseFrom_start ht (Draft.start_append hstart
        (unbinding_separator hseparator ahead) fun _ hnew =>
          (unbinding_separator_iff hseparator ahead).mpr fun hbind => hsafe ⟨hnew, hbind⟩)⟩⟩
      rintro ⟨hnew, bind, hbind, hvalue⟩
      obtain ⟨more, rfl⟩ := List.head?_eq_some_iff.mp hbind
      simp [parseFrom, ht, Draft.start_new_separator hnew hseparator hvalue]
    · have happend := Draft.start_append hstart (unbinding_separator hseparator ahead)
        fun hnil => absurd hnil hrest
      obtain ⟨_, _, words, more, hmore, hwords, _⟩ := Draft.start_eq_ok hstructural hstart
      have hskip : skip ≤ rest.length := by simp [hmore, hwords]
      rw [List.drop_zero, endsInNew_start_iff hstructural hrest rfl hstart h, List.cons_append,
        parseFrom_start ht happend, ← parseFrom_skip]
      exact ih h hskip

end Ahead

/-- **Statements are read independently of the next line, unless it starts with `:=` behind `new`.**
Where tokens are a program, and behind a separator there are tokens of another program, all of them
are the first program followed by the second, exactly unless the first program ends with the
statement `new` alone, in its last token, and the second one starts with `:=`. Then the separator is
taken for the name of a variable, and reading fails at it. -/
theorem programs_join_iff {unit : ℕ} {first second : List Token} {separator : Token}
    {program next : List Statement} (hfirst : parse unit first = .ok program)
    (hsecond : parse unit second = .ok next) (hseparator : separator.kind = .separator) :
    (parse unit (first ++ separator :: second) = .ok (program ++ next) ↔
      ¬(EndsInNew first program ∧ StartsWithBinding second)) ∧
    (EndsInNew first program → StartsWithBinding second →
      parse unit (first ++ separator :: second) =
        .error (.malformedBinding "<separator>" separator.pos)) := by
  obtain ⟨hfails, hjoins⟩ := parseFrom_append hseparator second hfirst (Nat.zero_le _)
  rw [List.drop_zero] at hfails hjoins
  refine ⟨⟨fun hok hends => ?_, fun hsafe => ?_⟩, fun hends hbind => hfails ⟨hends, hbind⟩⟩
  · rw [parse, hfails hends] at hok
    cases hok
  · obtain ⟨last, rfl, hlast⟩ := hjoins hsafe
    rw [parse, hlast, parseFrom_separator_eq_map hseparator, hsecond]
    rfl

/-- A `new` that is a statement of its own is one also if the next line binds a variable. -/
theorem programs_join_iff_new :
    let first : List Token := ["f", "\x7b", "new", "\x7d", "\n", "new"].mapIdx
      fun i text => ⟨.ofValue text, ⟨1, i + 1⟩⟩
    let second : List Token := ["x", ":=", "g"].mapIdx fun i text => ⟨.ofValue text, ⟨2, i + 1⟩⟩
    let program : List Statement :=
      [⟨"f", [.block ⟨0, ⟨1, 2⟩⟩ [⟨"new", [], none, ⟨1, 3⟩⟩]], none, ⟨1, 1⟩⟩,
        ⟨"new", [], none, ⟨1, 6⟩⟩]
    let next : List Statement := [⟨"g", [], some ⟨"x", false⟩, ⟨2, 1⟩⟩]
    parse 0 first = .ok program ∧ parse 0 second = .ok next ∧
      parse 0 (first ++ ⟨.separator, ⟨1, 7⟩⟩ :: second) = .ok (program ++ next) := by
  intro first second program next
  have hfirst : parse 0 first = .ok program := rfl
  have hsecond : parse 0 second = .ok next := rfl
  refine ⟨hfirst, hsecond, (programs_join_iff hfirst hsecond rfl).1.mpr fun h => ?_⟩
  obtain ⟨_, t, ht, hvalue⟩ := h
  cases ht
  exact absurd hvalue (by decide)

/-- Two lines that are programs, and no program together: behind the line `new`, the line `:= 5` is
not read as the statement that it is alone. -/
theorem new_reads_past_separator :
    let first : List Token := [⟨.word "new", ⟨1, 1⟩⟩]
    let separator : Token := ⟨.separator, ⟨1, 4⟩⟩
    let second : List Token := [⟨.word ":=", ⟨2, 1⟩⟩, ⟨.word "5", ⟨2, 4⟩⟩]
    tokenize "new\n:= 5" = .ok (first ++ separator :: second) ∧
      parse 0 first = .ok [⟨"new", [], none, ⟨1, 1⟩⟩] ∧
      parse 0 second = .ok [⟨":=", [.text "5"], none, ⟨2, 1⟩⟩] ∧
      parse 0 (first ++ separator :: second) = .error (.malformedBinding "<separator>" ⟨1, 4⟩) := by
  exact ⟨by decide +kernel, rfl, rfl, rfl⟩

end Logo
