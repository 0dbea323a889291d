import Logo.Proofs.Expression.Compile

/-!
# Execution of compiled expressions

A list of instructions that the check of the stack accepts runs like the one tree that it is the
Polish order of. A compiled expression is accepted, and its tree has the shape of the compiled tree
of its phrase, so that every operator and function gets its operands as they are written.
-/

namespace Logo

variable {expression : String}

/-- A successful map over blocks is one over each of them. -/
private theorem exists_blocks_of_mapM {α β ε : Type} {f : α → Except ε β} {n : ℕ}
    {parts : Fin n → List α} {bs : List β} (h : (List.ofFn parts).flatten.mapM f = .ok bs) :
    ∃ blocks : Fin n → List β, (∀ k, (parts k).mapM f = .ok (blocks k)) ∧
      (List.ofFn blocks).flatten = bs := by
  induction n generalizing bs with
  | zero =>
    rw [List.ofFn_zero] at h
    cases h
    exact ⟨Fin.elim0, fun k => k.elim0, rfl⟩
  | succ n ih =>
    rw [List.ofFn_succ, List.flatten_cons, List.mapM_append] at h
    obtain ⟨first, hfirst, h⟩ := bind_eq_ok_iff.mp h
    obtain ⟨rest, hrest, h⟩ := bind_eq_ok_iff.mp h
    cases h
    obtain ⟨blocks, hblocks, rfl⟩ := ih hrest
    refine ⟨Fin.cons first blocks, Fin.cases hfirst hblocks, ?_⟩
    simp [List.ofFn_succ]

/-- Whether a tree of instructions has the shape of a tree of items: each node is the instruction of
the item in its place. -/
inductive ItemTree.LowersTo (expression : String) : ItemTree → Tree Instruction.consumed → Prop
  | node {item : Item} {i : Instruction} {operands : Fin item.arity → ItemTree}
      {operands' : Fin i.consumed → Tree Instruction.consumed}
      (hitem : Instruction.ofItem expression item = .ok i)
      (hoperands : ∀ (k : Fin item.arity) (k' : Fin i.consumed), k.val = k'.val →
        LowersTo expression (operands k) (operands' k')) :
      LowersTo expression (.node item operands) (.node i operands')

/-- The instructions of a tree of items are those of a tree of the same shape. -/
theorem ItemTree.exists_lowersTo (t : ItemTree) {instructions : List Instruction}
    (h : t.polish.mapM (Instruction.ofItem expression) = .ok instructions) :
    ∃ u, t.LowersTo expression u ∧ u.polish = instructions := by
  induction t generalizing instructions with
  | node item operands ih =>
    rw [Tree.polish, List.mapM_cons] at h
    obtain ⟨i, hitem, h⟩ := bind_eq_ok_iff.mp h
    obtain ⟨rest, hrest, h⟩ := bind_eq_ok_iff.mp h
    cases h
    obtain ⟨blocks, hblocks, rfl⟩ := exists_blocks_of_mapM hrest
    choose trees hlower hpolish using fun k => ih k (hblocks k)
    have harity := Instruction.consumed_of_ofItem item i hitem
    refine ⟨.node i fun k => trees (k.cast harity), .node hitem ?_, ?_⟩
    · intro k k' hk
      obtain rfl : k = k'.cast harity := Fin.ext hk
      exact hlower _
    · rw [Tree.polish, List.ofFn_congr harity]
      simp [hpolish]

namespace Instruction

variable {load evaluate : String → Eval Value}

/-- An instruction of a program that never runs short finds its operands on the stack. -/
theorem consumed_le_of_runOnto {before after : List Instruction} {i : Instruction} {height : ℕ}
    {stack : List Value}
    (hheight : stackHeight? ((before ++ i :: after).map consumed) = some height)
    (hrun : runOnto expression load evaluate [] after = pure stack) :
    i.consumed ≤ stack.length := by
  induction before generalizing height with
  | nil =>
    obtain ⟨below, hafter, hle, _⟩ := exists_stackHeight?_of_cons hheight
    rw [length_of_runOnto hafter hrun]
    exact hle
  | cons first before ih =>
    obtain ⟨below, hrest, _, _⟩ := exists_stackHeight?_of_cons hheight
    exact ih hrest

/-- **The stack machine evaluates a tree.** An accepted list of instructions is the Polish order of
exactly one tree, and running it gives the value of this tree. Every instruction that is reached
finds its operands on the stack, and one value is left in the end. Compiled expressions are
accepted, and the tree of such a list has the shape of the compiled tree of the phrase. -/
theorem runAll_eq_value (expression : String) (instructions : List Instruction) :
    (checkStack expression instructions = .ok () →
      (∃! t : Tree consumed, t.polish = instructions) ∧
        ∀ load evaluate : String → Eval Value,
          (∀ t : Tree consumed, t.polish = instructions →
            runAll expression load evaluate instructions = t.value load evaluate) ∧
          (∀ before i after stack, instructions = before ++ i :: after →
            runOnto expression load evaluate [] after = pure stack → i.consumed ≤ stack.length) ∧
          ∀ stack, runOnto expression load evaluate [] instructions = pure stack →
            stack.length = 1) ∧
    (compile expression = .ok instructions →
      checkStack expression instructions = .ok () ∧
        ∃ p : Phrase 1, splitAtoms expression = .ok p.atoms ∧
          ∀ t : Tree consumed, t.polish = instructions → p.compiled.LowersTo expression t) := by
  constructor
  · intro haccepted
    have hheight := checkStack_eq_ok_iff.mp haccepted
    refine ⟨Tree.existsUnique_polish_eq hheight, fun load evaluate => ⟨?_, ?_, ?_⟩⟩
    · rintro t rfl
      exact t.runAll_polish
    · rintro before i after stack rfl hrun
      exact consumed_le_of_runOnto hheight hrun
    · intro stack hrun
      exact length_of_runOnto hheight hrun
  · intro hcompile
    obtain ⟨p, hsplit⟩ := exists_phrase_of_compile hcompile
    rw [p.compile_eq hsplit] at hcompile
    obtain ⟨u, hlower, hu⟩ := p.compiled.exists_lowersTo hcompile
    refine ⟨p.checkStack_of_mapM hcompile, p, hsplit, ?_⟩
    intro t ht
    obtain rfl : t = u := Tree.polish_injective (ht.trans hu.symm)
    exact hlower

/-- A difference of a call and a variable is the Polish order of one tree. -/
theorem runAll_eq_value_difference :
    compile "pow(x, y) - z" =
        .ok [.binary .subtract, .call .pow, .load "x", .load "y", .load "z"] ∧
      ∃! t : Tree consumed,
        t.polish = [.binary .subtract, .call .pow, .load "x", .load "y", .load "z"] := by
  have hcompile : compile "pow(x, y) - z" =
      .ok [.binary .subtract, .call .pow, .load "x", .load "y", .load "z"] := rfl
  have haccepted := ((runAll_eq_value _ _).2 hcompile).1
  exact ⟨hcompile, ((runAll_eq_value _ _).1 haccepted).1⟩

end Instruction

end Logo
