import Logo.Proofs.Evaluation.Brackets
import Logo.Proofs.Expression.Execution
import Logo.Proofs.Path.Stray

/-!
# Expressions with the same atoms

The text of an expression counts through its atoms only: two expressions with the same atoms have
the same instructions and the same value. An atom with a stray character outside of literals and
brackets can only be a path, and where the expression has a value this path can be read.
-/

namespace Logo

variable {expression expression' : String}

/-! ## Instructions of atoms -/

/-- A literal is decoded in the same way in whichever expression it stands. -/
theorem unescapeIn_respell {body : List Char} {s : String}
    (h : unescapeIn expression body = .ok s) : unescapeIn expression' body = .ok s := by
  unfold unescapeIn at h ⊢
  cases hbody : Text.unescape body with
  | ok cs =>
    rw [hbody] at h
    exact h
  | error flaw =>
    rw [hbody] at h
    cases flaw <;> cases h

/-- An element is read in the same way in whichever expression it stands. -/
theorem Element.read_respell {cs : List Char} {element : Element}
    (h : read expression cs = .ok element) : read expression' cs = .ok element := by
  unfold read at h ⊢
  rcases hparts : Text.splitTopLevel ':' cs with _ | ⟨first, _ | ⟨second, more⟩⟩
  · rw [hparts] at h
    exact h
  · rw [hparts] at h
    exact h
  · rw [hparts] at h
    dsimp only at h ⊢
    split_ifs at h ⊢ with hidentifier hquoted
    · exact h
    · obtain ⟨key, hkey, rfl⟩ := map_eq_ok_iff.mp h
      exact map_eq_ok_iff.mpr ⟨key, unescapeIn_respell hkey, rfl⟩
    · exact h

/-- All elements of a literal are read in the same way in whichever expression it stands. -/
theorem Element.readAll_respell {literal : String} {parts : List (List Char)}
    {elements : List Element} (h : readAll expression literal parts = .ok elements) :
    readAll expression' literal parts = .ok elements := by
  induction parts generalizing elements with
  | nil => exact h
  | cons part parts ih =>
    unfold readAll at h ⊢
    split_ifs at h ⊢ with hblank
    cases hread : read expression (Text.trim part) with
    | error fault =>
      rw [hread] at h
      cases h
    | ok element =>
      rw [hread] at h
      obtain ⟨others, hothers, rfl⟩ := map_eq_ok_iff.mp h
      rw [read_respell hread]
      exact map_eq_ok_iff.mpr ⟨others, ih hothers, rfl⟩

namespace Instruction

variable {i : Instruction} {atom : String}

/-- A literal in brackets is lowered in the same way in whichever expression it stands. -/
theorem ofBrackets_respell {literal : String} {body : List Char}
    (h : ofBrackets expression literal body = .ok i) :
    ofBrackets expression' literal body = .ok i := by
  unfold ofBrackets at h ⊢
  split_ifs at h ⊢ with hempty
  · exact h
  · cases hread : Element.readAll expression literal (Text.splitTopLevel ',' body) with
    | error fault =>
      rw [hread] at h
      cases h
    | ok elements =>
      rw [hread] at h
      rw [Element.readAll_respell hread]
      exact h

/-- An operand is the same instruction in every expression. -/
theorem ofOperand_respell (h : ofOperand expression atom = .ok i) :
    ofOperand expression' atom = .ok i := by
  simp only [ofOperand] at h ⊢
  rcases hatom : atom.toList with _ | ⟨c, rest⟩
  · rw [hatom] at h
    cases h
  rw [hatom] at h
  dsimp only at h ⊢
  split_ifs at h ⊢ with hquote hend hapostrophe hend hbracket hend hnumber hname
  · obtain ⟨s, hs, rfl⟩ := map_eq_ok_iff.mp h
    exact map_eq_ok_iff.mpr ⟨s, unescapeIn_respell hs, rfl⟩
  · obtain ⟨s, hs, rfl⟩ := map_eq_ok_iff.mp h
    exact map_eq_ok_iff.mpr ⟨s, unescapeIn_respell hs, rfl⟩
  · exact ofBrackets_respell h
  · cases hdecimal : Decimal.ofText? (c :: rest) with
    | none =>
      rw [hdecimal] at h
      cases h
    | some d =>
      rw [hdecimal] at h
      exact h
  · exact h

/-- An item is lowered in the same way in whichever expression it stands. -/
theorem ofItem_respell (item : Item) (i : Instruction) (h : ofItem expression item = .ok i) :
    ofItem expression' item = .ok i := by
  cases item with
  | operand atom => exact ofOperand_respell h
  | unary op | binary op | call f => exact h

/-- Accepted instructions give the same value in every expression. -/
theorem runAll_respell {instructions : List Instruction} {load evaluate : String → Eval Value}
    (h : checkStack expression instructions = .ok ()) :
    runAll expression load evaluate instructions =
      runAll expression' load evaluate instructions := by
  obtain ⟨t, rfl, _⟩ := Tree.existsUnique_polish_eq (checkStack_eq_ok_iff.mp h)
  rw [t.runAll_polish, t.runAll_polish]

end Instruction

/-- Instructions that come from the same atoms are the same. -/
theorem compile_respell {atoms : List String} {instructions : List Instruction}
    (h : splitAtoms expression = .ok atoms) (h' : splitAtoms expression' = .ok atoms)
    (hcompile : compile expression = .ok instructions) :
    compile expression' = .ok instructions := by
  obtain ⟨p, hp⟩ := exists_phrase_of_compile hcompile
  obtain rfl : atoms = p.atoms := Except.ok.inj (h.symm.trans hp)
  rw [p.compile_eq h] at hcompile
  rw [p.compile_eq h']
  exact mapM_eq_ok_of_imp Instruction.ofItem_respell hcompile

/-- An expression with a value has atoms. -/
theorem exists_splitAtoms_of_evaluate {effort : ℕ} {env : Environment} {v : Value}
    (h : evaluate effort env expression = pure v) : ∃ atoms, splitAtoms expression = .ok atoms := by
  cases effort with
  | zero => cases h
  | succ effort =>
    obtain ⟨instructions, hcompile, _⟩ := Eval.bind_eq_pure_iff.mp h
    obtain ⟨atoms, hsplit, _⟩ := bind_eq_ok_iff.mp (Eval.liftM_eq_pure_iff.mp hcompile)
    exact ⟨atoms, hsplit⟩

/-- Expressions with the same atoms have the same value. -/
theorem evaluate_respell {effort : ℕ} {env : Environment} {atoms : List String} {v : Value}
    (h : splitAtoms expression = .ok atoms) (h' : splitAtoms expression' = .ok atoms)
    (hvalue : evaluate effort env expression = pure v) :
    evaluate effort env expression' = pure v := by
  cases effort with
  | zero => cases hvalue
  | succ effort =>
    obtain ⟨instructions, hcompile, hrun⟩ := Eval.bind_eq_pure_iff.mp hvalue
    rw [Eval.liftM_eq_pure_iff] at hcompile
    have hsame := compile_respell h h' hcompile
    refine Eval.bind_eq_pure_iff.mpr ⟨instructions, Eval.liftM_eq_pure_iff.mpr hsame, ?_⟩
    obtain ⟨p, hp⟩ := exists_phrase_of_compile hcompile
    rw [p.compile_eq hp] at hcompile
    rw [← Instruction.runAll_respell (p.checkStack_of_mapM hcompile)]
    exact hrun

/-! ## Atoms with stray characters -/

section Stray

variable {c : Char} {cs x y : List Char} {atom : String}

/-- A digit is no stray character. -/
theorem not_mem_strayChars_of_isDigit (h : c.isDigit = true) : c ∉ strayChars := by
  intro hc
  simp only [strayChars, List.mem_cons, List.not_mem_nil, or_false] at hc
  rcases hc with rfl | rfl <;> revert h <;> decide

namespace Decimal

/-- A text that is read as digits has digits only. -/
theorem forall_isDigit_of_digits? {n : ℕ} (h : digits? cs = some n) :
    ∀ c ∈ cs, c.isDigit = true := by
  unfold digits? at h
  split at h
  · next hdigits =>
    simp only [Bool.and_eq_true, List.all_eq_true] at hdigits
    exact hdigits.2
  · cases h

/-- A text that is read as an exponent has no stray characters. -/
theorem not_stray_of_exponent? {e : ℤ} (h : exponent? cs = some e) : ∀ c ∈ cs, c ∉ strayChars := by
  have hdigits {r : List Char} {f : ℤ → ℤ}
      (hr : (digits? r >>= fun n => pure (n : ℤ)).map f = some e) : ∀ c ∈ r, c ∉ strayChars := by
    obtain ⟨_, hbind, _⟩ := Option.map_eq_some_iff.mp hr
    obtain ⟨n, hn, _⟩ := Option.bind_eq_some_iff.mp hbind
    exact fun c hc => not_mem_strayChars_of_isDigit (forall_isDigit_of_digits? hn c hc)
  unfold exponent? at h
  split at h
  · simp
  · next c rest =>
    split at h
    · next hmark =>
      have hmark' : c ∉ strayChars := by
        simp only [Bool.or_eq_true, decide_eq_true_eq] at hmark
        rcases hmark with rfl | rfl <;> decide
      refine List.forall_mem_cons.mpr ⟨hmark', ?_⟩
      split at h
      · exact List.forall_mem_cons.mpr ⟨by decide, hdigits h⟩
      · exact List.forall_mem_cons.mpr ⟨by decide, hdigits h⟩
      · exact hdigits h
    · cases h

/-- No numeral has a stray character in it. -/
theorem not_stray_of_ofText? {d : Decimal} (h : ofText? cs = some d) :
    ∀ c ∈ cs, c ∉ strayChars := by
  have hdigits {l : List Char} : ∀ c ∈ l.takeWhile Char.isDigit, c ∉ strayChars :=
    fun c hc => not_mem_strayChars_of_isDigit (List.mem_takeWhile_imp hc)
  unfold ofText? at h
  dsimp only at h
  rw [← List.takeWhile_append_dropWhile (p := Char.isDigit) (l := cs), List.forall_mem_append]
  refine ⟨hdigits, ?_⟩
  split at h
  · next r hpoint =>
    split_ifs at h
    obtain ⟨e, he, _⟩ := Option.map_eq_some_iff.mp h
    rw [hpoint, ← List.takeWhile_append_dropWhile (p := Char.isDigit) (l := r)]
    exact List.forall_mem_cons.mpr
      ⟨by decide, List.forall_mem_append.mpr ⟨hdigits, not_stray_of_exponent? he⟩⟩
  · split_ifs at h
    obtain ⟨e, he, _⟩ := Option.map_eq_some_iff.mp h
    exact not_stray_of_exponent? he

end Decimal

/-- An atom with a stray character outside of literals and brackets can only be a path. -/
theorem Instruction.eq_load_of_stray {i : Instruction} (hc : c ∈ strayChars)
    (hatom : atom.toList = x ++ c :: y) (hx : Enclosure.top.after x = .top)
    (h : ofOperand expression atom = .ok i) : i = load atom := by
  simp only [ofOperand, hatom] at h
  cases x with
  | nil =>
    simp only [strayChars, List.mem_cons, List.not_mem_nil, or_false] at hc
    rcases hc with rfl | rfl <;> cases h
  | cons first x =>
    have hlast : (first :: x ++ c :: y).length - 1 = x.length + y.length + 1 := by
      simp
      omega
    rw [List.cons_append] at h hlast
    dsimp only at h
    rw [hlast] at h
    -- A literal or a bracket at the start would end before the stray character.
    split_ifs at h with hquote hend hapostrophe hend hbracket hend hnumber hname
    · subst hquote
      obtain ⟨k, hk, hsum⟩ : ∃ k, LiteralMode.string.closing? (x ++ c :: y) = some k ∧
          k + 1 = x.length + y.length + 1 := by
        simpa [Text.stringEnd?] using hend
      have hlt := LiteralMode.lt_of_closing? (by decide) hk hx
      omega
    · subst hapostrophe
      obtain ⟨k, hk, hsum⟩ : ∃ k, LiteralMode.character.closing? (x ++ c :: y) = some k ∧
          k + 1 = x.length + y.length + 1 := by
        simpa [Text.characterEnd?] using hend
      have hlt := LiteralMode.lt_of_closing? (by decide) hk hx
      omega
    · subst hbracket
      have hle := (Path.lt_of_matchingBracket? hend (.inl hx)).1
      omega
    · cases hdecimal : Decimal.ofText? (first :: (x ++ c :: y)) with
      | none =>
        rw [hdecimal] at h
        cases h
      | some d => exact absurd hc (Decimal.not_stray_of_ofText? hdecimal c (by simp))
    · cases h
      rfl

/-- Only operands have stray characters in them. -/
theorem Lexeme.eq_operand_of_stray {lexeme : Lexeme} (hc : c ∈ strayChars)
    (hmem : c ∈ lexeme.atom.toList) : lexeme = operand lexeme.atom := by
  simp only [strayChars, List.mem_cons, List.not_mem_nil, or_false] at hc
  cases lexeme with
  | operand atom => rfl
  | function f => rcases hc with rfl | rfl <;> cases f <;> revert hmem <;> decide
  | unary op => rcases hc with rfl | rfl <;> cases op <;> revert hmem <;> decide
  | binary op => rcases hc with rfl | rfl <;> cases op <;> revert hmem <;> decide
  | opening | closing | comma => rcases hc with rfl | rfl <;> revert hmem <;> decide

/-- What is in joined lists is in one of them or in the separator. -/
theorem mem_of_mem_intercalate {α : Type} {a : α} {separator : List α} {ls : List (List α)}
    (h : a ∈ separator.intercalate ls) : a ∈ separator ∨ ∃ l ∈ ls, a ∈ l := by
  induction ls with
  | nil => simp at h
  | cons first ls ih =>
    cases ls with
    | nil => exact .inr ⟨first, by simp, by simpa using h⟩
    | cons second ls =>
      rw [List.intercalate_cons_cons, List.mem_append, List.mem_append] at h
      rcases h with (hfirst | hseparator) | hrest
      · exact .inr ⟨first, by simp, hfirst⟩
      · exact .inl hseparator
      · exact (ih hrest).imp_right fun ⟨l, hl, ha⟩ => ⟨l, List.mem_cons_of_mem _ hl, ha⟩

/-- The operands of a phrase are those of its compiled tree. -/
theorem Phrase.operand_mem_polish {n : ℕ} {p : Phrase n} (h : .operand atom ∈ p.lexemes) :
    .operand atom ∈ p.compiled.polish := by
  induction p with
  | operand atom' hatom => simpa [compiled, lexemes] using h
  | group e ih => exact ih (by simpa [lexemes] using h)
  | call f operands ih =>
    have hjoined : Lexeme.operand atom ∈
        [.comma].intercalate (List.ofFn fun k => (operands k).lexemes) := by
      simpa [lexemes] using h
    obtain hcomma | ⟨_, hmem, hoperand⟩ := mem_of_mem_intercalate hjoined
    · simp at hcomma
    · obtain ⟨k, rfl⟩ := List.mem_ofFn.mp hmem
      have hpolish : ∃ k, .operand atom ∈ (operands k).compiled.polish := ⟨k, ih k hoperand⟩
      simpa [compiled, List.mem_ofFn] using hpolish
  | signed ops e ih =>
    have hrest : .operand atom ∈ e.lexemes := by simpa [lexemes] using h
    simp [compiled, ih hrest]
  | tighter hn e ih => exact ih h
  | binary op hop left right ihleft ihright =>
    have hside : .operand atom ∈ left.lexemes ∨ .operand atom ∈ right.lexemes := by
      simpa [lexemes] using h
    have hpolish := hside.imp ihleft ihright
    simpa [compiled] using hpolish

/-- An atom with a stray character outside of literals and brackets is compiled to a path. -/
theorem load_mem_of_compile {atoms : List String} {instructions : List Instruction}
    (hsplit : splitAtoms expression = .ok atoms)
    (hcompile : compile expression = .ok instructions) (hmem : atom ∈ atoms)
    (hc : c ∈ strayChars) (hatom : atom.toList = x ++ c :: y)
    (hx : Enclosure.top.after x = .top) : .load atom ∈ instructions := by
  obtain ⟨p, hp⟩ := exists_phrase_of_compile hcompile
  obtain rfl : atoms = p.atoms := Except.ok.inj (hsplit.symm.trans hp)
  rw [← p.map_atom_lexemes] at hmem
  obtain ⟨lexeme, hlexeme, rfl⟩ := List.mem_map.mp hmem
  have hform : lexeme = .operand lexeme.atom := Lexeme.eq_operand_of_stray hc (by simp [hatom])
  rw [hform] at hlexeme
  rw [p.compile_eq hp] at hcompile
  obtain ⟨i, hi, hoperand⟩ :=
    exists_mem_of_mapM_eq_ok hcompile (Phrase.operand_mem_polish hlexeme)
  rw [← Instruction.eq_load_of_stray hc hatom hx hoperand]
  exact hi

/-- The paths of a list of instructions that runs to a value have values. -/
theorem Instruction.exists_of_load_mem {load evaluate : String → Eval Value} {v : Value}
    {instructions : List Instruction} {path : String}
    (h : runAll expression load evaluate instructions = pure v) (hmem : .load path ∈ instructions) :
    ∃ w, load path = pure w := by
  obtain ⟨stack, hstack, _⟩ := Eval.bind_eq_pure_iff.mp h
  obtain ⟨before, after, hrun⟩ :=
    Eval.exists_of_mem_of_foldlM_eq_pure hstack (List.mem_reverse.mpr hmem)
  obtain ⟨w, hw, _⟩ := Eval.bind_eq_pure_iff.mp hrun
  exact ⟨w, hw⟩

/-- In an expression with a value, an atom with a stray character outside of literals and brackets
is a path, which can be read once the names in it are replaced. -/
theorem exists_reads_of_stray {effort : ℕ} {env : Environment} {atoms : List String} {v : Value}
    (hsplit : splitAtoms expression = .ok atoms) (h : evaluate effort env expression = pure v)
    (hmem : atom ∈ atoms) (hc : c ∈ strayChars) (hatom : atom.toList = x ++ c :: y)
    (hx : Enclosure.top.after x = .top) :
    ∃ find? expanded, env = .names find? ∧ Path.expand find? atom = .ok expanded ∧
      Path.Reads (Text.trim expanded) := by
  cases effort with
  | zero => cases h
  | succ effort =>
    obtain ⟨instructions, hcompile, hrun⟩ := Eval.bind_eq_pure_iff.mp h
    rw [Eval.liftM_eq_pure_iff] at hcompile
    have hload := load_mem_of_compile hsplit hcompile hmem hc hatom hx
    obtain ⟨w, hw⟩ := Instruction.exists_of_load_mem hrun hload
    cases env with
    | constant => cases hw
    | names find? =>
      obtain ⟨expanded, hexpand, hreads⟩ := Path.exists_reads_of_get hw
      exact ⟨find?, expanded, rfl, hexpand, hreads⟩

end Stray

end Logo
