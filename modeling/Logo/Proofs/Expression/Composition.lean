import Logo.Proofs.Expression.Operand
import Logo.Proofs.Expression.Respelling

/-!
# Expressions made of expressions

An expression between parentheses means there what it means alone, whatever its text is. Literals,
brackets and names end inside it, no operator of it becomes binary, no name in it becomes a
function, and its operators do not mix with those around it. So the instructions of a group, of two
groups with an operator between them and of a call are put together from those of the parts.
-/

namespace Logo

variable {expression e e₁ e₂ : String} {instructions is₁ is₂ : List Instruction}

/-! ## Atoms -/

/-- A character of punctuation writes an operator, or is a parenthesis or a comma. -/
theorem punctuation_cases {c : Char} (h : isPunctuation c = true) :
    (∃ op : BinaryOp, op.symbol = c) ∨ (∃ op : UnaryOp, op.symbol = c) ∨
      c = '(' ∨ c = ')' ∨ c = ',' := by
  simp only [isPunctuation, isOperator, Bool.or_eq_true, decide_eq_true_eq] at h
  rcases h with (((hbinary | hunary) | hopening) | hclosing) | hcomma
  · obtain ⟨op, hop⟩ := Option.isSome_iff_exists.mp hbinary
    exact .inl ⟨op, BinaryOp.symbol_of_ofChar? hop⟩
  · obtain ⟨op, hop⟩ := Option.isSome_iff_exists.mp hunary
    exact .inr (.inl ⟨op, UnaryOp.symbol_of_ofChar? hop⟩)
  · exact .inr (.inr (.inl hopening))
  · exact .inr (.inr (.inr (.inl hclosing)))
  · exact .inr (.inr (.inr (.inr hcomma)))

/-- A character of punctuation starts nothing that stays whole, and is no blank. -/
theorem punctuation_spec {c : Char} (h : isPunctuation c = true) :
    c ≠ '"' ∧ c ≠ '\'' ∧ c ≠ '[' ∧ c ≠ '.' ∧ c ≠ ']' ∧ Text.isBlank c = false := by
  obtain ⟨op, rfl⟩ | ⟨op, rfl⟩ | rfl | rfl | rfl := punctuation_cases h
  · cases op <;> decide
  · cases op <;> decide
  · decide
  · decide
  · decide

/-- A character of punctuation is an atom of its own. -/
theorem splitAtomsFrom_punctuation {c : Char} (hc : isPunctuation c = true) (atom rest : List Char) :
    splitAtomsFrom expression .free atom (c :: rest) =
      (splitAtomsFrom expression .free [] rest).map fun atoms =>
        consAtom atom (c.toString :: atoms) := by
  obtain ⟨hquote, hapostrophe, hbracket, hdot, hclosing, hblank⟩ := punctuation_spec hc
  have hloose : c ∉ ['"', '\'', '[', ']'] := by simp [hquote, hapostrophe, hbracket, hclosing]
  rw [splitAtomsFrom_loose hloose fun h => absurd h hdot, if_neg (by simp [hblank]), if_pos hc]

/-- An expression that can be cut is cut alike in front of a character that ends an atom and does
not go on with a name. -/
theorem splitAtomsFrom_append {c : Char} (hc : isPunctuation c = true) (hname : c ≠ '<')
    {mode : AtomMode} {atom cs : List Char} {atoms : List String}
    (h : splitAtomsFrom e mode atom cs = .ok atoms) (rest : List Char) :
    splitAtomsFrom expression mode atom (cs ++ c :: rest) =
      (splitAtomsFrom expression .free [] rest).map (atoms ++ c.toString :: ·) := by
  induction cs generalizing mode atom atoms with
  | nil =>
    -- A text that ends inside of a part that stays whole cannot be cut.
    have hmode : mode = .free := by
      by_contra hne
      obtain ⟨fault, hfault⟩ := AtomMode.exists_unfinished? e hne
      rw [splitAtomsFrom, hfault] at h
      cases h
    subst hmode
    have hatoms : consAtom atom [] = atoms := Except.ok.inj h
    rw [List.nil_append, splitAtomsFrom_punctuation hc, ← hatoms]
    congr 1
    funext more
    exact consAtom_eq_append atom (c.toString :: more)
  | cons d cs ih =>
    by_cases hmode : mode = .free
    · subst hmode
      have hopening : AtomMode.opening? d (cs ++ c :: rest).head? = AtomMode.opening? d cs.head? := by
        cases cs with
        | nil => simp [AtomMode.opening?, hname]
        | cons => rfl
      rw [splitAtomsFrom] at h
      rw [List.cons_append, splitAtomsFrom, hopening]
      cases hd : AtomMode.opening? d cs.head? with
      | some mode =>
        rw [hd] at h
        exact ih h
      | none =>
        rw [hd] at h
        dsimp only at h ⊢
        split_ifs at h ⊢ with hbracket hblank hpunctuation
        · obtain ⟨others, hothers, rfl⟩ := map_eq_ok_iff.mp h
          rw [ih hothers, consAtom_eq_append atom others]
          cases splitAtomsFrom expression .free [] rest with
          | error fault => rfl
          | ok more => simp [Except.map, consAtom_eq_append atom (others ++ _)]
        · obtain ⟨others, hothers, rfl⟩ := map_eq_ok_iff.mp h
          rw [ih hothers]
          cases splitAtomsFrom expression .free [] rest with
          | error fault => rfl
          | ok more => simp [Except.map, consAtom_eq_append atom (_ :: _)]
        · exact ih h
    · rw [splitAtomsFrom] at h
      · rw [List.cons_append, splitAtomsFrom]
        · exact ih h
        · exact hmode
      · exact hmode

/-- The atoms of an expression stand between parentheses as they stand alone. -/
theorem splitAtomsFrom_group {atoms : List String} (h : splitAtoms e = .ok atoms)
    (rest : List Char) :
    splitAtomsFrom expression .free [] ('(' :: (e.toList ++ ')' :: rest)) =
      (splitAtomsFrom expression .free [] rest).map fun more =>
        "(" :: (atoms ++ ")" :: more) := by
  rw [splitAtomsFrom_punctuation rfl, splitAtomsFrom_append rfl (by decide) h]
  cases splitAtomsFrom expression .free [] rest <;> rfl

/-- The atoms of expressions with commas between them stand in front of a parenthesis as they stand
alone. -/
theorem splitAtomsFrom_operands {es : List String} {atoms : List (List String)} (hne : es ≠ [])
    (h : List.Forall₂ (fun e atoms => splitAtoms e = .ok atoms) es atoms) :
    splitAtomsFrom expression .free [] ([','].intercalate (es.map String.toList) ++ [')']) =
      .ok ([","].intercalate atoms ++ [")"]) := by
  induction h with
  | nil => exact absurd rfl hne
  | @cons e first es others hfirst hothers ih =>
    cases hothers with
    | nil =>
      have hend : splitAtomsFrom expression .free [] (e.toList ++ [')']) = _ :=
        splitAtomsFrom_append rfl (by decide) hfirst []
      simpa [splitAtomsFrom, AtomMode.unfinished?, consAtom, Except.map] using hend
    | cons =>
      rw [List.map_cons, List.map_cons, List.intercalate_cons_cons, List.intercalate_cons_cons,
        List.append_assoc, List.append_assoc, List.append_assoc, List.singleton_append,
        splitAtomsFrom_append rfl (by decide) hfirst, ← List.map_cons, ih (by simp)]
      simp [Except.map]

/-! ## Instructions -/

/-- What is compiled is a phrase, with the same instructions wherever it stands. -/
theorem exists_phrase_instructions (h : compile e = .ok instructions) :
    ∃ p : Phrase 1, splitAtoms e = .ok p.atoms ∧ ∀ expression,
      p.compiled.polish.mapM (Instruction.ofItem expression) = .ok instructions := by
  obtain ⟨p, hp⟩ := exists_phrase_of_compile h
  rw [p.compile_eq hp] at h
  exact ⟨p, hp, fun expression => mapM_eq_ok_of_imp Instruction.ofItem_respell h⟩

/-- Lists that are mapped one by one are mapped together. -/
theorem mapM_flatten_eq_ok {α β ε : Type} {f : α → Except ε β} {as : List (List α)}
    {bs : List (List β)} (h : List.Forall₂ (fun a b => a.mapM f = .ok b) as bs) :
    as.flatten.mapM f = .ok bs.flatten := by
  induction h with
  | nil => rfl
  | cons hfirst _ ih =>
    rw [List.flatten_cons, List.mapM_append, hfirst, ih]
    rfl

/-- The instructions of an expression are those of the expression between parentheses. -/
theorem compile_group (h : compile e = .ok instructions) :
    compile ("(" ++ e ++ ")") = .ok instructions := by
  obtain ⟨p, hatoms, hinstructions⟩ := exists_phrase_instructions h
  have hsplit : splitAtoms ("(" ++ e ++ ")") = .ok (Phrase.ofPrimary [] (.group p)).atoms := by
    have htext : ("(" ++ e ++ ")").toList = '(' :: (e.toList ++ [')']) := by simp
    rw [splitAtoms, htext, splitAtomsFrom_group hatoms]
    rfl
  rw [Phrase.compile_eq _ hsplit]
  exact hinstructions _

/-- An operator between two groups has the instructions of both as its operands. -/
theorem compile_binary (op : BinaryOp) (h₁ : compile e₁ = .ok is₁) (h₂ : compile e₂ = .ok is₂) :
    compile ("(" ++ e₁ ++ ")" ++ op.symbol.toString ++ "(" ++ e₂ ++ ")") =
      .ok (.binary op :: (is₁ ++ is₂)) := by
  obtain ⟨p₁, hatoms₁, hinstructions₁⟩ := exists_phrase_instructions h₁
  obtain ⟨p₂, hatoms₂, hinstructions₂⟩ := exists_phrase_instructions h₂
  have hlevel := op.precedence_mem
  obtain ⟨left, hleft, hleft'⟩ :=
    (Phrase.signed [] (.group p₁)).exists_of_le (m := op.precedence) (by omega) le_rfl
  obtain ⟨right, hright, hright'⟩ :=
    (Phrase.signed [] (.group p₂)).exists_of_le (m := op.precedence + 1) (by omega) le_rfl
  obtain ⟨p, hp, hp'⟩ :=
    (Phrase.binary op rfl left right).exists_of_le (m := 1) (by omega) (by omega)
  have hatoms : p.atoms =
      "(" :: (p₁.atoms ++ ")" :: op.symbol.toString :: "(" :: (p₂.atoms ++ [")"])) := by
    rw [← p.map_atom_lexemes, hp, Phrase.lexemes, hleft, hright]
    simp [Phrase.lexemes, Phrase.map_atom_lexemes, Lexeme.atom]
  have hpolish : p.compiled.polish =
      .binary op :: (p₁.compiled.polish ++ p₂.compiled.polish) := by
    rw [hp', Phrase.compiled, hleft', hright']
    simp [Phrase.compiled]
  have hsplit : splitAtoms ("(" ++ e₁ ++ ")" ++ op.symbol.toString ++ "(" ++ e₂ ++ ")") =
      .ok p.atoms := by
    have htext : ("(" ++ e₁ ++ ")" ++ op.symbol.toString ++ "(" ++ e₂ ++ ")").toList =
        '(' :: (e₁.toList ++ ')' :: op.symbol :: '(' :: (e₂.toList ++ [')'])) := by
      simp [Char.toString]
    have hop : isPunctuation op.symbol = true := by cases op <;> rfl
    rw [splitAtoms, htext, splitAtomsFrom_group hatoms₁, splitAtomsFrom_punctuation hop,
      splitAtomsFrom_group hatoms₂, hatoms]
    rfl
  rw [p.compile_eq hsplit, hpolish, List.mapM_cons, List.mapM_append, hinstructions₁, hinstructions₂]
  rfl

/-- Members that are related one by one are related as lists. -/
theorem forall₂_ofFn {α β : Type} {R : α → β → Prop} {n : ℕ} {a : Fin n → α} {b : Fin n → β}
    (h : ∀ k, R (a k) (b k)) : List.Forall₂ R (List.ofFn a) (List.ofFn b) := by
  refine List.forall₂_iff_get.mpr ⟨by simp, fun k hk _ => ?_⟩
  simpa using h ⟨k, by simpa using hk⟩

/-- A call has the instructions of all its operands in order. -/
theorem compile_call (f : Function) {operands : Fin f.arity → String}
    {instructions : Fin f.arity → List Instruction}
    (h : ∀ k, compile (operands k) = .ok (instructions k)) :
    compile (f.name ++ "(" ++ ",".intercalate (List.ofFn operands) ++ ")") =
      .ok (.call f :: (List.ofFn instructions).flatten) := by
  choose p hatoms hinstructions using fun k => exists_phrase_instructions (h k)
  have hsplit : splitAtoms (f.name ++ "(" ++ ",".intercalate (List.ofFn operands) ++ ")") =
      .ok (Phrase.ofPrimary [] (.call f p)).atoms := by
    have hname : splitAtoms f.name = .ok [f.name] := by cases f <;> rfl
    have hne : List.ofFn operands ≠ [] := by
      simpa [List.ofFn_eq_nil_iff] using f.arity_pos.ne'
    have htext : (f.name ++ "(" ++ ",".intercalate (List.ofFn operands) ++ ")").toList =
        f.name.toList ++ '(' ::
          ([','].intercalate ((List.ofFn operands).map String.toList) ++ [')']) := by
      simp [String.toList_intercalate]
    rw [splitAtoms, htext, splitAtomsFrom_append rfl (by decide) hname,
      splitAtomsFrom_operands hne (forall₂_ofFn hatoms)]
    rfl
  have hoperands (expression : String) :
      (List.ofFn fun k => (p k).compiled.polish).flatten.mapM (Instruction.ofItem expression) =
        .ok (List.ofFn instructions).flatten :=
    mapM_flatten_eq_ok (forall₂_ofFn fun k => hinstructions k expression)
  have hpolish : (Phrase.ofPrimary [] (.call f p)).compiled.polish =
      .call f :: (List.ofFn fun k => (p k).compiled.polish).flatten := rfl
  rw [Phrase.compile_eq _ hsplit, hpolish, List.mapM_cons, hoperands]
  rfl

/-- **Compilation is compositional.** An expression has the same instructions between parentheses.
An operator between two expressions in parentheses is put in front of the instructions of the first
and then those of the second, and a function with as many expressions as it takes in front of the
instructions of all of them in order. -/
theorem compile_is_compositional :
    (∀ (e : String) (instructions : List Instruction), compile e = .ok instructions →
      compile ("(" ++ e ++ ")") = .ok instructions) ∧
    (∀ (op : BinaryOp) (e₁ e₂ : String) (is₁ is₂ : List Instruction),
      compile e₁ = .ok is₁ → compile e₂ = .ok is₂ →
        compile ("(" ++ e₁ ++ ")" ++ op.symbol.toString ++ "(" ++ e₂ ++ ")") =
          .ok (.binary op :: (is₁ ++ is₂))) ∧
    ∀ (f : Function) (operands : Fin f.arity → String)
      (instructions : Fin f.arity → List Instruction),
      (∀ k, compile (operands k) = .ok (instructions k)) →
        compile (f.name ++ "(" ++ ",".intercalate (List.ofFn operands) ++ ")") =
          .ok (.call f :: (List.ofFn instructions).flatten) :=
  ⟨fun _ _ => compile_group, fun op _ _ _ _ => compile_binary op, fun f _ _ => compile_call f⟩

/-- A parenthesis and a comma in literals, a sign and a name at the end stay what they are. -/
theorem compile_is_compositional_literals :
    compile "(-a)=(')+x.<y>)" =
        .ok [.binary .equal, .unary .negate, .load "a", .binary .add, .text ")", .load "x.<y>"] ∧
      compile "pow(',,-a)" = .ok [.call .pow, .text ",", .unary .negate, .load "a"] := by
  have hnegated : compile "-a" = .ok [.unary .negate, .load "a"] := rfl
  have hsum : compile "')+x.<y>" = .ok [.binary .add, .text ")", .load "x.<y>"] := rfl
  have hcomma : compile "'," = .ok [.text ","] := rfl
  have htext : "(-a)=(')+x.<y>)" =
      "(" ++ "-a" ++ ")" ++ BinaryOp.equal.symbol.toString ++ "(" ++ "')+x.<y>" ++ ")" := by decide
  have htext' : "pow(',,-a)" =
      Function.pow.name ++ "(" ++ ",".intercalate (List.ofFn ![("',"), "-a"]) ++ ")" := by decide
  rw [htext, htext']
  refine ⟨compile_is_compositional.2.1 .equal _ _ _ _ hnegated hsum, ?_⟩
  have hoperands (k : Fin 2) :
      compile (![("',"), "-a"] k) = .ok (![[.text ","], [.unary .negate, .load "a"]] k) := by
    revert k
    exact Fin.forall_fin_two.mpr ⟨hcomma, hnegated⟩
  exact compile_is_compositional.2.2 .pow _ _ hoperands

end Logo
