import Logo.Proofs.Expression.Grammar

/-!
# Atoms and lexemes

The atoms of a phrase are given exactly the lexemes of that phrase. Conversely the lexemes of an
expression spell its atoms, and each pair of neighbours fits: a value starts only where none has
just ended, and a binary operator stands only where one has.
-/

namespace Logo

/-- The function of a name has that name. -/
theorem Function.name_of_ofName? {name : String} {f : Function} (h : ofName? name = some f) :
    f.name = name := by
  simpa using List.find?_some h

/-- The binary operator of a character is written with it. -/
theorem BinaryOp.symbol_of_ofChar? {c : Char} {op : BinaryOp} (h : ofChar? c = some op) :
    op.symbol = c := by
  simpa using List.find?_some h

/-- The prefix operator of a character is written with it. -/
theorem UnaryOp.symbol_of_ofChar? {c : Char} {op : UnaryOp} (h : ofChar? c = some op) :
    op.symbol = c := by
  simpa using List.find?_some h

namespace Lexeme

variable {expression : String}

/-- The atom that a lexeme is written as. -/
def atom : Lexeme → String
  | operand atom => atom
  | function f => f.name
  | unary op => op.symbol.toString
  | binary op => op.symbol.toString
  | opening => "("
  | closing => ")"
  | comma => ","

/-- Where a value may start, the symbol of a prefix operator is this operator. -/
theorem ofAtom_unary (op : UnaryOp) (next : Option String) :
    ofAtom expression false op.symbol.toString next = .ok (.unary op) := by
  cases op <;> rfl

/-- Behind a value, the symbol of a binary operator is this operator. -/
theorem ofAtom_binary (op : BinaryOp) (next : Option String) :
    ofAtom expression true op.symbol.toString next = .ok (.binary op) := by
  cases op <;> rfl

/-- The name of a function in front of an opening parenthesis is this function, wherever it stands.
-/
theorem ofAtom_function (f : Function) (afterValue : Bool) {next : Option String}
    (hnext : next = some "(") : ofAtom expression afterValue f.name next = .ok (.function f) := by
  subst hnext
  cases f <;> rfl

/-- An opening parenthesis is one wherever it stands. -/
theorem ofAtom_opening (afterValue : Bool) (next : Option String) :
    ofAtom expression afterValue "(" next = .ok .opening := rfl

/-- A closing parenthesis is one wherever it stands. -/
theorem ofAtom_closing (afterValue : Bool) (next : Option String) :
    ofAtom expression afterValue ")" next = .ok .closing := rfl

/-- A comma is one wherever it stands. -/
theorem ofAtom_comma (afterValue : Bool) (next : Option String) :
    ofAtom expression afterValue "," next = .ok .comma := rfl

/-- An atom that is not punctuation is an operand, unless a parenthesis follows. -/
theorem ofAtom_operand {atom : String} (hatom : isOperandAtom atom = true) (afterValue : Bool)
    {next : Option String} (hnext : next ≠ some "(") :
    ofAtom expression afterValue atom next = .ok (.operand atom) := by
  have hword : ofWord atom next = .ok (.operand atom) := by simp [ofWord, hnext]
  unfold isOperandAtom at hatom
  unfold ofAtom
  rcases hcs : atom.toList with _ | ⟨c, _ | ⟨d, rest⟩⟩
  · exact hword
  · simp only [hcs, isPunctuation, Bool.not_eq_true', Bool.or_eq_false_iff,
      decide_eq_false_iff_not] at hatom
    simp [hatom, hword]
  · exact hword

/-- The lexeme of a word is written as this word. -/
private theorem atom_of_ofWord {atom : String} {next : Option String} {lexeme : Lexeme}
    (h : ofWord atom next = .ok lexeme) : lexeme.atom = atom := by
  unfold ofWord at h
  split at h
  · cases hf : Function.ofName? atom with
    | none => simp [hf] at h
    | some f =>
      obtain rfl : function f = lexeme := by simpa [hf] using h
      exact Function.name_of_ofName? hf
  · obtain rfl : operand atom = lexeme := by simpa using h
    rfl

/-- The lexeme of an operator is written as its symbol. -/
private theorem atom_of_ofOperator {afterValue : Bool} {c : Char} {lexeme : Lexeme}
    (h : ofOperator expression afterValue c = .ok lexeme) : lexeme.atom = c.toString := by
  unfold ofOperator at h
  split at h
  · cases hop : BinaryOp.ofChar? c with
    | none => simp [hop] at h
    | some op =>
      obtain rfl : binary op = lexeme := by simpa [hop] using h
      exact congrArg Char.toString (BinaryOp.symbol_of_ofChar? hop)
  · cases hop : UnaryOp.ofChar? c with
    | none => simp [hop] at h
    | some op =>
      obtain rfl : unary op = lexeme := by simpa [hop] using h
      exact congrArg Char.toString (UnaryOp.symbol_of_ofChar? hop)

/-- A lexeme spells the atom that it was made from. -/
theorem atom_of_ofAtom {afterValue : Bool} {atom : String} {next : Option String}
    {lexeme : Lexeme} (h : ofAtom expression afterValue atom next = .ok lexeme) :
    lexeme.atom = atom := by
  unfold ofAtom at h
  split at h
  · next c hc =>
    have hatom : c.toString = atom := by
      rw [← String.toList_inj, hc]
      exact String.toList_singleton c
    subst hatom
    split_ifs at h with hopening hclosing hcomma hoperator
    · cases h; rw [hopening]; rfl
    · cases h; rw [hclosing]; rfl
    · cases h; rw [hcomma]; rfl
    · exact atom_of_ofOperator h
    · exact atom_of_ofWord h
  · exact atom_of_ofWord h

/-- Whether a lexeme is a binary operator. -/
def isBinary : Lexeme → Bool
  | binary _ => true
  | _ => false

/-- An atom is made a binary operator only after a value. -/
theorem afterValue_of_ofAtom {afterValue : Bool} {atom : String} {next : Option String}
    {lexeme : Lexeme} (h : ofAtom expression afterValue atom next = .ok lexeme)
    (hbinary : lexeme.isBinary = true) : afterValue = true := by
  have hword : ofWord atom next ≠ .ok lexeme := by
    intro h
    unfold ofWord at h
    split at h
    · cases hf : Function.ofName? atom with
      | none => simp [hf] at h
      | some f =>
        obtain rfl : function f = lexeme := by simpa [hf] using h
        cases hbinary
    · obtain rfl : operand atom = lexeme := by simpa using h
      cases hbinary
  by_contra hvalue
  unfold ofAtom at h
  split at h
  · next c hc =>
    split_ifs at h with hopening hclosing hcomma hoperator
    · cases h; cases hbinary
    · cases h; cases hbinary
    · cases h; cases hbinary
    · cases hop : UnaryOp.ofChar? c with
      | none => simp [ofOperator, hvalue, hop] at h
      | some op =>
        obtain rfl : unary op = lexeme := by simpa [ofOperator, hvalue, hop] using h
        cases hbinary
    · exact hword h
  · exact hword h

/-- Only an atom other than punctuation is made an operand, and not before a parenthesis if it is
an identifier. -/
theorem isOperandAtom_of_ofAtom {afterValue : Bool} {atom word : String} {next : Option String}
    (h : ofAtom expression afterValue atom next = .ok (.operand word)) :
    isOperandAtom atom = true ∧ ¬(next = some "(" ∧ isIdentifier atom = true) := by
  have hword (h : ofWord atom next = .ok (.operand word)) :
      ¬(next = some "(" ∧ isIdentifier atom = true) := by
    rintro ⟨hnext, hname⟩
    cases hf : Function.ofName? atom <;> simp [ofWord, hnext, hname, hf] at h
  unfold ofAtom at h
  unfold isOperandAtom
  rcases hcs : atom.toList with _ | ⟨c, _ | ⟨d, rest⟩⟩ <;> simp only [hcs] at h
  · exact ⟨rfl, hword h⟩
  · split_ifs at h with hopening hclosing hcomma hoperator
    · cases h
    · cases h
    · cases h
    · unfold ofOperator at h
      split at h
      · cases hop : BinaryOp.ofChar? c <;> simp [hop] at h
      · cases hop : UnaryOp.ofChar? c <;> simp [hop] at h
    · exact ⟨by simp [isPunctuation, hopening, hclosing, hcomma, hoperator], hword h⟩
  · exact ⟨rfl, hword h⟩

end Lexeme

variable {expression : String}

/-- One step of classification, for an atom that fits where it stands. -/
theorem classifyFrom_cons {afterValue : Bool} {atom : String} {rest : List String}
    {lexeme : Lexeme} {lexemes : List Lexeme}
    (hatom : Lexeme.ofAtom expression afterValue atom rest.head? = .ok lexeme)
    (hfits : (afterValue && lexeme.startsValue) = false)
    (hrest : classifyFrom expression lexeme.endsValue rest = .ok lexemes) :
    classifyFrom expression afterValue (atom :: rest) = .ok (lexeme :: lexemes) := by
  simp [classifyFrom, hatom, hfits, hrest, Except.map]

/-- Prefix operators are classified as such where no value precedes them. -/
private theorem classifyFrom_unary_append (ops : List UnaryOp) {rest : List String}
    {lexemes : List Lexeme} (hrest : classifyFrom expression false rest = .ok lexemes) :
    classifyFrom expression false (ops.map (·.symbol.toString) ++ rest) =
      .ok (ops.map .unary ++ lexemes) := by
  induction ops with
  | nil => exact hrest
  | cons op ops ih => exact classifyFrom_cons (Lexeme.ofAtom_unary op _) rfl ih

/-- Operands that are classified one by one are so between commas and a closing parenthesis. -/
private theorem classifyFrom_operands_append (operands : List (Phrase 1)) {rest : List String}
    {lexemes : List Lexeme} (hrest : classifyFrom expression true rest = .ok lexemes)
    (hoperands : ∀ p ∈ operands, ∀ {rest lexemes}, rest.head? ≠ some "(" →
      classifyFrom expression true rest = .ok lexemes →
      classifyFrom expression false (p.atoms ++ rest) = .ok (p.lexemes ++ lexemes)) :
    classifyFrom expression false
        ([","].intercalate (operands.map Phrase.atoms) ++ ")" :: rest) =
      .ok ([Lexeme.comma].intercalate (operands.map Phrase.lexemes) ++ .closing :: lexemes) := by
  induction operands with
  | nil => exact classifyFrom_cons (Lexeme.ofAtom_closing _ _) rfl hrest
  | cons p operands ih =>
    cases operands with
    | nil =>
      have hclosing := classifyFrom_cons (Lexeme.ofAtom_closing true _) rfl hrest
      simpa using hoperands p (by simp) (by simp) hclosing
    | cons q operands =>
      have htail := ih fun p hp => hoperands p (List.mem_cons_of_mem _ hp)
      have hcomma := classifyFrom_cons (Lexeme.ofAtom_comma true _) rfl htail
      simpa using hoperands p (by simp) (by simp) hcomma

/-- The atoms of a phrase are given the lexemes of the phrase, unless a parenthesis follows that
would make a function of its last atom. -/
theorem Phrase.classifyFrom_atoms_append {n : ℕ} (p : Phrase n) {rest : List String}
    {lexemes : List Lexeme} (hnext : rest.head? ≠ some "(")
    (hrest : classifyFrom expression true rest = .ok lexemes) :
    classifyFrom expression false (p.atoms ++ rest) = .ok (p.lexemes ++ lexemes) := by
  induction p generalizing rest lexemes with
  | operand atom hatom =>
    exact classifyFrom_cons (Lexeme.ofAtom_operand hatom _ hnext) rfl hrest
  | group e ih =>
    have hclosing := classifyFrom_cons (Lexeme.ofAtom_closing true _) rfl hrest
    have hinner := ih (by simp) hclosing
    have hopening := classifyFrom_cons (Lexeme.ofAtom_opening false _) rfl hinner
    simpa [atoms, Phrase.lexemes] using hopening
  | call f operands ih =>
    have hinner := classifyFrom_operands_append (List.ofFn operands) hrest (by
      intro p hp
      obtain ⟨k, rfl⟩ := List.mem_ofFn.mp hp
      exact ih k)
    have hopening := classifyFrom_cons (Lexeme.ofAtom_opening false _) rfl hinner
    have hfunction := classifyFrom_cons (Lexeme.ofAtom_function f false (by rfl)) rfl hopening
    simpa [atoms, Phrase.lexemes, List.map_ofFn, Function.comp_def] using hfunction
  | signed ops e ih =>
    simpa [atoms, Phrase.lexemes] using classifyFrom_unary_append ops (ih hnext hrest)
  | tighter hn e ih => exact ih hnext hrest
  | binary op hop left right ihleft ihright =>
    have hright := ihright hnext hrest
    have hop' := classifyFrom_cons (Lexeme.ofAtom_binary op _) rfl hright
    have hleft := ihleft (by cases op <;> simp [BinaryOp.symbol]) hop'
    simpa [atoms, Phrase.lexemes] using hleft

/-- What one step of a successful classification says. -/
theorem classifyFrom_cons_eq_ok {afterValue : Bool} {atom : String} {rest : List String}
    {lexemes : List Lexeme}
    (h : classifyFrom expression afterValue (atom :: rest) = .ok lexemes) :
    ∃ lexeme tail, lexemes = lexeme :: tail ∧
      Lexeme.ofAtom expression afterValue atom rest.head? = .ok lexeme ∧
      (afterValue && lexeme.startsValue) = false ∧
      classifyFrom expression lexeme.endsValue rest = .ok tail := by
  simp only [classifyFrom] at h
  cases hatom : Lexeme.ofAtom expression afterValue atom rest.head? with
  | error fault => simp [hatom] at h
  | ok lexeme =>
    by_cases hfits : (afterValue && lexeme.startsValue) = true
    · simp [hatom, hfits] at h
    · cases hrest : classifyFrom expression lexeme.endsValue rest with
      | error fault => simp [hatom, hfits, hrest, Except.map] at h
      | ok tail =>
        have hlexemes : lexeme :: tail = lexemes := by
          simpa [hatom, hfits, hrest, Except.map] using h
        exact ⟨lexeme, tail, hlexemes.symm, rfl, by simpa using hfits, hrest⟩

/-- Lexemes spell the atoms that they were made from. -/
theorem map_atom_of_classifyFrom {afterValue : Bool} {atoms : List String}
    {lexemes : List Lexeme} (h : classifyFrom expression afterValue atoms = .ok lexemes) :
    lexemes.map Lexeme.atom = atoms := by
  induction atoms generalizing afterValue lexemes with
  | nil =>
    obtain rfl : [] = lexemes := by simpa [classifyFrom] using h
    rfl
  | cons atom rest ih =>
    obtain ⟨lexeme, tail, rfl, hatom, _, hrest⟩ := classifyFrom_cons_eq_ok h
    rw [List.map_cons, Lexeme.atom_of_ofAtom hatom, ih hrest]

/-- The atoms that stand for operands: all but punctuation and the identifiers right before an
opening parenthesis. -/
def operandAtoms : List String → List String
  | [] => []
  | atom :: rest =>
    if isOperandAtom atom && !(rest.head? = some "(" && isIdentifier atom) then
      atom :: operandAtoms rest
    else operandAtoms rest

/-- Where an operand stands among the lexemes, an atom stands for it. -/
theorem mem_operandAtoms_of_classifyFrom {afterValue : Bool} {atoms : List String}
    {lexemes : List Lexeme} (h : classifyFrom expression afterValue atoms = .ok lexemes)
    {atom : String} (hatom : Lexeme.operand atom ∈ lexemes) : atom ∈ operandAtoms atoms := by
  induction atoms generalizing afterValue lexemes with
  | nil =>
    obtain rfl : [] = lexemes := by simpa [classifyFrom] using h
    simp at hatom
  | cons first rest ih =>
    obtain ⟨lexeme, tail, rfl, hfirst, _, hrest⟩ := classifyFrom_cons_eq_ok h
    unfold operandAtoms
    rcases List.mem_cons.mp hatom with rfl | htail
    · obtain rfl : atom = first := Lexeme.atom_of_ofAtom hfirst
      obtain ⟨hoperand, hname⟩ := Lexeme.isOperandAtom_of_ofAtom hfirst
      rw [if_pos (by simpa [hoperand, imp_iff_not_or] using hname)]
      exact List.mem_cons_self
    · split
      · exact List.mem_cons_of_mem _ (ih hrest htail)
      · exact ih hrest htail

/-- The operands among some atoms can all be operands by themselves. -/
theorem isOperandAtom_of_mem_operandAtoms {atoms : List String} {atom : String}
    (h : atom ∈ operandAtoms atoms) : isOperandAtom atom = true := by
  induction atoms with
  | nil => simp [operandAtoms] at h
  | cons first rest ih =>
    unfold operandAtoms at h
    split at h
    · next hfirst =>
      rcases List.mem_cons.mp h with rfl | hrest
      · exact (Bool.and_eq_true_iff.mp hfirst).1
      · exact ih hrest
    · exact ih h

/-- Whether one lexeme may follow another: a value must not start right after one that has ended,
and a binary operator needs one that has. -/
def Lexeme.MayPrecede (first second : Lexeme) : Prop :=
  (second.startsValue = true → first.endsValue = false) ∧
    (second.isBinary = true → first.endsValue = true)

/-- No binary operator stands at the start of an expression. -/
theorem not_isBinary_of_classifyFrom {atoms : List String} {lexemes : List Lexeme}
    (h : classifyFrom expression false atoms = .ok lexemes) :
    ∀ first ∈ lexemes.head?, first.isBinary = false := by
  intro first hfirst
  cases atoms with
  | nil =>
    obtain rfl : [] = lexemes := by simpa [classifyFrom] using h
    simp at hfirst
  | cons atom rest =>
    obtain ⟨lexeme, tail, rfl, hatom, _, _⟩ := classifyFrom_cons_eq_ok h
    obtain rfl : lexeme = first := by simpa using hfirst
    by_contra hbinary
    simpa using Lexeme.afterValue_of_ofAtom hatom (by simpa using hbinary)

/-- Among the lexemes of an expression, operators and values stand where they may. -/
theorem isChain_of_classifyFrom {afterValue : Bool} {atoms : List String}
    {lexemes : List Lexeme} (h : classifyFrom expression afterValue atoms = .ok lexemes) :
    lexemes.IsChain Lexeme.MayPrecede := by
  induction atoms generalizing afterValue lexemes with
  | nil =>
    obtain rfl : [] = lexemes := by simpa [classifyFrom] using h
    exact .nil
  | cons atom rest ih =>
    obtain ⟨lexeme, tail, rfl, _, _, hrest⟩ := classifyFrom_cons_eq_ok h
    cases rest with
    | nil =>
      obtain rfl : [] = tail := by simpa [classifyFrom] using hrest
      exact .singleton _
    | cons next rest =>
      obtain ⟨second, tail, rfl, hnext, hfits, _⟩ := classifyFrom_cons_eq_ok hrest
      refine .cons_cons ⟨?_, Lexeme.afterValue_of_ofAtom hnext⟩ (ih hrest)
      intro hstarts
      simpa [hstarts] using hfits

/-- The atoms of a phrase are classified as its lexemes. -/
theorem Phrase.classify_atoms (expression : String) {n : ℕ} (p : Phrase n) :
    classify expression p.atoms = .ok p.lexemes := by
  have h : classifyFrom expression false (p.atoms ++ []) = .ok (p.lexemes ++ []) :=
    p.classifyFrom_atoms_append (by simp) rfl
  rw [classify]
  simpa using h

/-- The lexemes of a phrase spell its atoms. -/
theorem Phrase.map_atom_lexemes {n : ℕ} (p : Phrase n) : p.lexemes.map Lexeme.atom = p.atoms :=
  map_atom_of_classifyFrom (p.classify_atoms "")

end Logo
