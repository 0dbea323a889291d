import Logo.Proofs.Eval
import Logo.Proofs.Expression.Machine
import Logo.Proofs.Expression.Weight

/-!
# Compilation and the grammar

An expression is compiled exactly when its atoms are a phrase of the grammar and its operands can be
read. The instructions are then those of the compiled tree of the phrase in Polish order. This is
also the tree that the phrase stands for, provided that prefix operators in a row read the same from
both ends.
-/

namespace Logo

variable {expression : String}

/-! ## Instructions of items -/

namespace Instruction

variable {i : Instruction}

/-- A literal in square brackets is an array of its items or an object of its entries. -/
theorem ofBrackets_eq_ok {literal : String} {body : List Char}
    (h : ofBrackets expression literal body = .ok i) :
    i = array [] ∨
      ∃ elements, Element.readAll expression literal (Text.splitTopLevel ',' body) = .ok elements ∧
        (i = array (Element.items elements) ∨ i = object (Element.entries elements)) := by
  unfold ofBrackets at h
  split at h
  · cases h
    exact .inl rfl
  · split at h
    · cases h
    · next elements helements =>
      refine .inr ⟨elements, helements, ?_⟩
      split at h
      · cases h
      · next hentries =>
        cases h
        exact .inr (by rw [hentries])
      · cases h
        exact .inl rfl

/-- An operand is a number, a text, a path or a literal in square brackets. -/
theorem ofOperand_eq_ok {atom : String} (h : ofOperand expression atom = .ok i) :
    (∃ x, i = number x) ∨ (∃ s, i = text s) ∨ i = load atom ∨
      ∃ rest, atom.toList = '[' :: rest ∧ ofBrackets expression atom rest.dropLast = .ok i := by
  simp only [ofOperand] at h
  split at h
  · cases h
  · next c rest hatom =>
    split_ifs at h with _ _ _ _ hbracket
    · obtain ⟨s, _, rfl⟩ := map_eq_ok_iff.mp h
      exact .inr (.inl ⟨s, rfl⟩)
    · obtain ⟨s, _, rfl⟩ := map_eq_ok_iff.mp h
      exact .inr (.inl ⟨s, rfl⟩)
    · exact .inr (.inr (.inr ⟨rest, hbracket ▸ hatom, h⟩))
    · split at h
      · next d _ =>
        cases h
        exact .inl ⟨d.toFloat, rfl⟩
      · cases h
    · cases h
      exact .inr (.inr (.inl rfl))

/-- An operand takes nothing off the stack. -/
theorem consumed_of_ofOperand {atom : String} (h : ofOperand expression atom = .ok i) :
    i.consumed = 0 := by
  obtain ⟨x, rfl⟩ | ⟨s, rfl⟩ | rfl | ⟨rest, _, hbrackets⟩ := ofOperand_eq_ok h
  · rfl
  · rfl
  · rfl
  · obtain rfl | ⟨elements, _, rfl | rfl⟩ := ofBrackets_eq_ok hbrackets <;> rfl

end Instruction

/-- An instruction takes as many values off the stack as its item has operands. -/
theorem Instruction.consumed_of_ofItem (item : Item) (i : Instruction)
    (h : ofItem expression item = .ok i) : i.consumed = item.arity := by
  cases item with
  | operand atom => exact consumed_of_ofOperand h
  | unary op | binary op | call f =>
    cases h
    rfl

/-- The prefix operator that an item is, if it is one. -/
def Item.unary? : Item → Option UnaryOp
  | unary op => some op
  | _ => none

/-- The prefix operator that an instruction is, if it is one. -/
def Instruction.unary? : Instruction → Option UnaryOp
  | unary op => some op
  | _ => none

/-- An instruction is the prefix operator that its item is. -/
theorem Instruction.unary?_of_ofItem (item : Item) (i : Instruction)
    (h : ofItem expression item = .ok i) : i.unary? = item.unary? := by
  cases item with
  | operand atom =>
    have hconsumed := consumed_of_ofOperand h
    cases i with
    | unary op => cases hconsumed
    | _ => rfl
  | unary op | binary op | call f =>
    cases h
    rfl

/-! ## The compiled tree of a phrase -/

/-- The members of a list stay whole when they are joined. -/
theorem sublist_intercalate {α : Type} {l : List α} {ls : List (List α)} (separator : List α)
    (h : l ∈ ls) : l.Sublist (separator.intercalate ls) := by
  induction ls with
  | nil => simp at h
  | cons first ls ih =>
    cases ls with
    | nil =>
      obtain rfl : l = first := by simpa using h
      simp
    | cons second ls =>
      rw [List.intercalate_cons_cons]
      rcases List.mem_cons.mp h with rfl | hrest
      · simp
      · exact (ih hrest).trans (List.sublist_append_right _ _)

namespace Phrase

/-- Both trees of a phrase have the same number of items. -/
theorem length_polish_tree {n : ℕ} (p : Phrase n) :
    p.tree.polish.length = p.compiled.polish.length := by
  induction p with
  | operand atom hatom => rfl
  | group e ih => exact ih
  | call f operands ih => simp [tree, compiled, ih, Function.comp_def]
  | signed ops e ih => simp [tree, compiled, ih]
  | tighter hn e ih => exact ih
  | binary op hop left right ihleft ihright => simp [tree, compiled, ihleft, ihright]

/-- A phrase is compiled to the tree that it stands for if its prefix operators in a row read the
same from both ends. -/
theorem compiled_eq_tree {n : ℕ} {p : Phrase n} (h : p.IsSymmetric) : p.compiled = p.tree := by
  induction p with
  | operand atom hatom => rfl
  | group e ih => exact ih h
  | call f operands ih => simp [tree, compiled, fun k => ih k (h k)]
  | signed ops e ih =>
    rw [compiled, tree, ih h.2, List.foldl_eq_foldr_reverse, h.1]
  | tighter hn e ih => exact ih h
  | binary op hop left right ihleft ihright => rw [compiled, tree, ihleft h.1, ihright h.2]

/-- The prefix operators of both trees stand in the same places only if those in a row read the same
from both ends. -/
theorem isSymmetric_of_map_unary? {n : ℕ} {p : Phrase n}
    (h : p.tree.polish.map Item.unary? = p.compiled.polish.map Item.unary?) : p.IsSymmetric := by
  induction p with
  | operand atom hatom => trivial
  | group e ih => exact ih h
  | call f operands ih =>
    intro k
    have hflat : (List.ofFn fun k => (operands k).tree.polish.map Item.unary?).flatten =
        (List.ofFn fun k => (operands k).compiled.polish.map Item.unary?).flatten := by
      simpa [tree, compiled, List.map_flatten, List.map_ofFn, Function.comp_def] using h
    have hblocks := List.eq_iff_flatten_eq.mpr
      ⟨hflat, by simp [List.map_ofFn, Function.comp_def, length_polish_tree]⟩
    exact ih k (congrFun (List.ofFn_injective hblocks) k)
  | signed ops e ih =>
    have hrun : ops.map some ++ e.tree.polish.map Item.unary? =
        ops.reverse.map some ++ e.compiled.polish.map Item.unary? := by
      simpa [tree, compiled, Function.comp_def, Item.unary?] using h
    obtain ⟨hops, hrest⟩ := List.append_inj hrun (by simp)
    exact ⟨((List.map_injective_iff.mpr (Option.some_injective _)) hops).symm, ih hrest⟩
  | tighter hn e ih => exact ih h
  | binary op hop left right ihleft ihright =>
    have hboth : left.tree.polish.map Item.unary? ++ right.tree.polish.map Item.unary? =
        left.compiled.polish.map Item.unary? ++ right.compiled.polish.map Item.unary? := by
      simpa [tree, compiled] using h
    obtain ⟨hleft, hright⟩ := List.append_inj hboth (by simp [length_polish_tree])
    exact ⟨ihleft hleft, ihright hright⟩

/-- The operands of the compiled tree are those of the phrase. -/
theorem operand_mem_lexemes {n : ℕ} {p : Phrase n} {atom : String}
    (h : .operand atom ∈ p.compiled.polish) : .operand atom ∈ p.lexemes := by
  induction p with
  | operand atom' hatom => simpa [compiled, lexemes] using h
  | group e ih => simp [lexemes, ih h]
  | call f operands ih =>
    obtain ⟨k, hk⟩ : ∃ k, .operand atom ∈ (operands k).compiled.polish := by
      simpa [compiled, List.mem_ofFn] using h
    have hmem : (operands k).lexemes ∈ List.ofFn fun k => (operands k).lexemes :=
      List.mem_ofFn.mpr ⟨k, rfl⟩
    simp [lexemes, (sublist_intercalate [.comma] hmem).subset (ih k hk)]
  | signed ops e ih =>
    have hrest : .operand atom ∈ e.compiled.polish := by simpa [compiled] using h
    exact List.mem_append_right _ (ih hrest)
  | tighter hn e ih => exact ih h
  | binary op hop left right ihleft ihright =>
    have hside : .operand atom ∈ left.compiled.polish ∨ .operand atom ∈ right.compiled.polish := by
      simpa [compiled] using h
    rcases hside with hleft | hright
    · simp [lexemes, ihleft hleft]
    · simp [lexemes, ihright hright]

/-- The operands of a phrase can be read if all its operand atoms can be read. -/
theorem exists_mapM_polish {n : ℕ} {p : Phrase n}
    (h : ∀ atom ∈ operandAtoms p.atoms, ∃ i, Instruction.ofOperand expression atom = .ok i) :
    ∃ instructions, p.compiled.polish.mapM (Instruction.ofItem expression) = .ok instructions := by
  apply exists_mapM_eq_ok
  intro item hitem
  cases item with
  | operand atom =>
    have hlexeme := operand_mem_lexemes hitem
    exact h atom (mem_operandAtoms_of_classifyFrom (p.classify_atoms expression) hlexeme)
  | unary op => exact ⟨.unary op, rfl⟩
  | binary op => exact ⟨.binary op, rfl⟩
  | call f => exact ⟨.call f, rfl⟩

/-- The instructions of a compiled tree are accepted. -/
theorem checkStack_of_mapM {n : ℕ} (p : Phrase n) {instructions : List Instruction}
    (h : p.compiled.polish.mapM (Instruction.ofItem expression) = .ok instructions) :
    Instruction.checkStack expression instructions = .ok () := by
  rw [Instruction.checkStack_eq_ok_iff,
    map_eq_map_of_mapM_eq_ok Instruction.consumed_of_ofItem h]
  simpa [stackHeight?] using Tree.stackHeight?_polish_append p.compiled []

/-- A phrase is compiled to the instructions of its compiled tree. -/
theorem compile_eq (p : Phrase 1) (hsplit : splitAtoms expression = .ok p.atoms) :
    compile expression = p.compiled.polish.mapM (Instruction.ofItem expression) := by
  cases hlower : p.compiled.polish.mapM (Instruction.ofItem expression) with
  | error fault =>
    simp [compile, hsplit, p.classify_atoms, p.polish_lexemes, hlower, bind, Except.bind]
  | ok instructions =>
    simp [compile, hsplit, p.classify_atoms, p.polish_lexemes, hlower, p.checkStack_of_mapM hlower,
      bind, Except.bind, pure, Except.pure]

end Phrase

/-- What is compiled is a phrase. -/
theorem exists_phrase_of_compile {instructions : List Instruction}
    (h : compile expression = .ok instructions) :
    ∃ p : Phrase 1, splitAtoms expression = .ok p.atoms := by
  obtain ⟨atoms, hsplit, h⟩ := bind_eq_ok_iff.mp h
  obtain ⟨lexemes, hclassify, h⟩ := bind_eq_ok_iff.mp h
  obtain ⟨items, hpolish, h⟩ := bind_eq_ok_iff.mp h
  obtain ⟨lowered, hlower, h⟩ := bind_eq_ok_iff.mp h
  obtain ⟨_, hcheck, _⟩ := bind_eq_ok_iff.mp h
  rw [Instruction.checkStack_eq_ok_iff,
    map_eq_map_of_mapM_eq_ok Instruction.consumed_of_ofItem hlower] at hcheck
  obtain ⟨p, rfl⟩ := exists_phrase_of_polish hclassify hpolish hcheck
  have hatoms : p.atoms = atoms := by
    rw [← p.map_atom_lexemes, map_atom_of_classifyFrom hclassify]
  exact ⟨p, hatoms ▸ hsplit⟩

/-- **Compilation follows the grammar.** An expression whose operands can be read is compiled if and
only if its atoms are a phrase. Its instructions are then those of the compiled tree of the phrase
in Polish order. They are those of the tree that the phrase stands for if and only if its prefix
operators in a row read the same from both ends. -/
theorem compile_follows_grammar {atoms : List String}
    (hsplit : splitAtoms expression = .ok atoms)
    (hoperands : ∀ atom ∈ operandAtoms atoms, ∃ i, Instruction.ofOperand expression atom = .ok i) :
    ((∃ instructions, compile expression = .ok instructions) ↔ ∃ p : Phrase 1, p.atoms = atoms) ∧
      ∀ p : Phrase 1, p.atoms = atoms →
        compile expression = p.compiled.polish.mapM (Instruction.ofItem expression) ∧
          (compile expression = p.tree.polish.mapM (Instruction.ofItem expression) ↔
            p.IsSymmetric) := by
  refine ⟨⟨?_, ?_⟩, ?_⟩
  · rintro ⟨instructions, h⟩
    obtain ⟨p, hp⟩ := exists_phrase_of_compile h
    exact ⟨p, Except.ok.inj (hp.symm.trans hsplit)⟩
  · rintro ⟨p, rfl⟩
    rw [p.compile_eq hsplit]
    exact p.exists_mapM_polish hoperands
  · rintro p rfl
    refine ⟨p.compile_eq hsplit, ?_, ?_⟩
    · intro htree
      obtain ⟨instructions, hlower⟩ := p.exists_mapM_polish hoperands
      rw [p.compile_eq hsplit, hlower] at htree
      apply Phrase.isSymmetric_of_map_unary?
      rw [← map_eq_map_of_mapM_eq_ok Instruction.unary?_of_ofItem hlower,
        ← map_eq_map_of_mapM_eq_ok Instruction.unary?_of_ofItem htree.symm]
    · intro hsymmetric
      rw [p.compile_eq hsplit, p.compiled_eq_tree hsymmetric]

/-- The atoms of a product of a group and a call are a phrase. -/
theorem compile_follows_grammar_product :
    splitAtoms "-(a+b)*abs(c)" = .ok ["-", "(", "a", "+", "b", ")", "*", "abs", "(", "c", ")"] ∧
      ∃ p : Phrase 1, p.atoms = ["-", "(", "a", "+", "b", ")", "*", "abs", "(", "c", ")"] := by
  have hsplit : splitAtoms "-(a+b)*abs(c)" =
      .ok ["-", "(", "a", "+", "b", ")", "*", "abs", "(", "c", ")"] := rfl
  have hoperands : ∀ atom ∈ operandAtoms ["-", "(", "a", "+", "b", ")", "*", "abs", "(", "c", ")"],
      ∃ i, Instruction.ofOperand "-(a+b)*abs(c)" atom = .ok i := by
    have hatoms : operandAtoms ["-", "(", "a", "+", "b", ")", "*", "abs", "(", "c", ")"] =
        ["a", "b", "c"] := rfl
    rw [hatoms]
    intro atom hatom
    simp only [List.mem_cons, List.not_mem_nil, or_false] at hatom
    rcases hatom with rfl | rfl | rfl
    · exact ⟨.load "a", rfl⟩
    · exact ⟨.load "b", rfl⟩
    · exact ⟨.load "c", rfl⟩
  exact ⟨hsplit, (compile_follows_grammar hsplit hoperands).1.mp ⟨_, rfl⟩⟩

/-- A negation behind a `!` is compiled to a `!` behind a negation. -/
theorem compile_not_negate :
    compile "!-x" = .ok [.unary .negate, .unary .not, .load "x"] ∧
      ∃ p : Phrase 1, p.atoms = ["!", "-", "x"] ∧
        p.tree.polish.mapM (Instruction.ofItem "!-x") =
          .ok [.unary .not, .unary .negate, .load "x"] := by
  refine ⟨rfl, ?_⟩
  -- No binary operator stands at any of the six levels.
  refine ⟨.tighter (by decide) <| .tighter (by decide) <| .tighter (by decide) <|
    .tighter (by decide) <| .tighter (by decide) <| .tighter (by decide) <|
    .signed [.not, .negate] <| .operand "x" rfl, rfl, rfl⟩

end Logo
