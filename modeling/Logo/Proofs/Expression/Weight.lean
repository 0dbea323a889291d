import Logo.Proofs.Expression.Sketch
import Mathlib.Algebra.Order.BigOperators.Group.List
import Mathlib.Algebra.Ring.Int.Defs

/-!
# Expressions without gaps

An operand weighs minus one, and an operator or function weighs one less than the operands that it
takes. Reordering keeps the total weight. Every gap in an expression adds one to it, so an
expression with the weight of a single value has no gaps, and it is a phrase.
-/

namespace Logo

variable {expression : String}

/-- How many values an item takes from the stack, less the one that it puts there. -/
def Item.weight (item : Item) : ℤ := item.arity - 1

/-- The weight of the item that waits. -/
def Pending.weight : Pending → ℤ
  | unary op => (Item.unary op).weight
  | binary op => (Item.binary op).weight
  | group _ _ => 0

/-- The weight of the item that a lexeme becomes. -/
def Lexeme.weight : Lexeme → ℤ
  | operand atom => (Item.operand atom).weight
  | function f => (Item.call f).weight
  | unary op => (Item.unary op).weight
  | binary op => (Item.binary op).weight
  | opening | closing | comma => 0

/-- The total weight of the items of an output and those that wait. -/
def totalWeight (stack : List Pending) (output : List Item) : ℤ :=
  (stack.map Pending.weight).sum + (output.map Item.weight).sum

/-! ## Reordering keeps the weight -/

/-- An item on the output adds its weight. -/
@[simp] theorem totalWeight_item (item : Item) (stack : List Pending) (output : List Item) :
    totalWeight stack (item :: output) = item.weight + totalWeight stack output := by
  simp only [totalWeight, List.map_cons, List.sum_cons]
  omega

/-- A prefix operator weighs the same whether it waits or is on the output. -/
@[simp] theorem totalWeight_unary (op : UnaryOp) (stack : List Pending) (output : List Item) :
    totalWeight (.unary op :: stack) output = totalWeight stack (.unary op :: output) := by
  simp only [totalWeight, List.map_cons, List.sum_cons, Pending.weight]
  omega

/-- A binary operator weighs the same whether it waits or is on the output. -/
@[simp] theorem totalWeight_binary (op : BinaryOp) (stack : List Pending) (output : List Item) :
    totalWeight (.binary op :: stack) output = totalWeight stack (.binary op :: output) := by
  simp only [totalWeight, List.map_cons, List.sum_cons, Pending.weight]
  omega

/-- An open group has no weight. -/
@[simp] theorem totalWeight_group (commas mark : ℕ) (stack : List Pending) (output : List Item) :
    totalWeight (.group commas mark :: stack) output = totalWeight stack output := by
  simp [totalWeight, Pending.weight]

/-- Moving operators to the output does not change the total weight. -/
theorem totalWeight_popTighter (n : ℕ) (stack : List Pending) (output : List Item) :
    totalWeight (popTighter n stack output).1 (popTighter n stack output).2 =
      totalWeight stack output := by
  fun_induction popTighter n stack output with
  | case1 op stack output htighter ih => rw [ih, totalWeight_unary]
  | case3 op stack output htighter ih => rw [ih, totalWeight_binary]
  | case2 | case4 | case5 => rfl

/-- Closing a group does not change the total weight. -/
theorem totalWeight_of_popGroup? {stack : List Pending} {output : List Item} {g : Group}
    (h : popGroup? stack output = some g) :
    totalWeight g.outside g.output = totalWeight stack output := by
  fun_induction popGroup? stack output with
  | case1 output => cases h
  | case2 op stack output ih => rw [ih h, totalWeight_unary]
  | case3 op stack output ih => rw [ih h, totalWeight_binary]
  | case4 commas mark outside output =>
    cases h
    rw [totalWeight_group]

/-- Moving everything to the output does not change the total weight. -/
theorem totalWeight_of_popAll? {stack : List Pending} {output items : List Item}
    (h : popAll? stack output = some items) : totalWeight [] items = totalWeight stack output := by
  fun_induction popAll? stack output with
  | case1 output =>
    cases h
    rfl
  | case2 op stack output ih => rw [ih h, totalWeight_unary]
  | case3 op stack output ih => rw [ih h, totalWeight_binary]
  | case4 => cases h

/-- Lexemes, stack and output together weigh as much as the items that come out. -/
theorem totalWeight_of_polishFrom {rest : List Lexeme} {stack : List Pending}
    {output items : List Item} (h : polishFrom expression rest stack output = .ok items) :
    totalWeight [] items = (rest.map Lexeme.weight).sum + totalWeight stack output := by
  fun_induction polishFrom expression rest stack output with
  | case1 stack output items' hpop =>
    cases h
    rw [totalWeight_of_popAll? hpop, List.map_nil, List.sum_nil, zero_add]
  | case3 atom rest stack output ih =>
    rw [ih h, totalWeight_item, List.map_cons, List.sum_cons, Lexeme.weight]
    omega
  | case4 op rest stack output ih =>
    rw [ih h, totalWeight_unary, totalWeight_item, List.map_cons, List.sum_cons, Lexeme.weight]
    omega
  | case5 op rest stack output stack' output' hpop ih =>
    have hkept := totalWeight_popTighter op.precedence stack output
    rw [hpop] at hkept
    rw [ih h, totalWeight_binary, totalWeight_item, hkept, List.map_cons, List.sum_cons,
      Lexeme.weight]
    omega
  | case6 rest stack output ih =>
    rw [ih h, totalWeight_group, List.map_cons, List.sum_cons, Lexeme.weight, zero_add]
  | case8 rest stack output g hpop ih =>
    rw [ih h, totalWeight_group, totalWeight_of_popGroup? hpop, List.map_cons, List.sum_cons,
      Lexeme.weight, zero_add]
  | case11 stack output g hpop f rest harity ih =>
    rw [ih h, totalWeight_item, totalWeight_of_popGroup? hpop]
    simp only [List.map_cons, List.sum_cons, Lexeme.weight]
    omega
  | case15 stack output g hpop rest hname hcommas hempty ih =>
    rw [ih h, totalWeight_of_popGroup? hpop, List.map_cons, List.sum_cons, Lexeme.weight, zero_add]
  | case2 | case7 | case9 | case10 | case12 | case13 | case14 => cases h

/-- Items that leave one value on the stack weigh minus one. -/
theorem totalWeight_of_stackHeight? {items : List Item}
    (h : stackHeight? (items.map Item.arity) = some 1) : totalWeight [] items = -1 := by
  have hlength := add_sum_eq_length_of_stackHeight? h
  have hweight : (items.map Item.weight).sum = ((items.map Item.arity).sum : ℕ) - items.length := by
    clear h hlength
    induction items with
    | nil => rfl
    | cons item items ih =>
      simp only [List.map_cons, List.sum_cons, List.length_cons, ih, Item.weight]
      push_cast
      omega
  rw [List.length_map] at hlength
  simp only [totalWeight, List.map_nil, List.sum_nil, hweight]
  omega

/-! ## Filling in phrases -/

namespace Phrase

/-- A phrase is also a phrase of every looser level, and is compiled to the same tree. -/
theorem exists_of_le {m n : ℕ} (p : Phrase n) (hmn : m ≤ n) (hn : n ≤ 7) :
    ∃ q : Phrase m, q.lexemes = p.lexemes ∧ q.compiled = p.compiled := by
  obtain ⟨d, rfl⟩ := Nat.exists_eq_add_of_le hmn
  induction d with
  | zero => exact ⟨p, rfl, rfl⟩
  | succ d ih => exact ih (.tighter (by omega) p) (by omega) (by omega)

/-- A prefix operator can be put in front of a phrase. -/
theorem exists_unary_cons (op : UnaryOp) {n : ℕ} (p : Phrase n) (hn : n ≤ 7) :
    ∃ q : Phrase n, q.lexemes = .unary op :: p.lexemes := by
  induction p with
  | operand | group | call => omega
  | signed ops e => exact ⟨.signed (op :: ops) e, rfl⟩
  | tighter hn' e ih =>
    obtain ⟨q, hq⟩ := ih (by omega)
    exact ⟨.tighter hn' q, hq⟩
  | binary op' hop left right ih =>
    obtain ⟨q, hq⟩ := ih hn
    exact ⟨.binary op' hop q right, by simp [lexemes, hq]⟩

/-- A value and a binary operator can be put in front of a phrase that does not bind tighter. -/
theorem exists_binary_append (v : Phrase 7) (op : BinaryOp) {n : ℕ} (p : Phrase n)
    (hn : n ≤ op.precedence) :
    ∃ q : Phrase n, q.lexemes = v.lexemes ++ .binary op :: p.lexemes := by
  have hprecedence := op.precedence_mem
  induction p with
  | operand | group | call | signed => omega
  | @tighter n hn' e ih =>
    -- The operator belongs to this level, or it is carried down to a tighter one.
    rcases eq_or_lt_of_le hn with hop | htighter
    · obtain ⟨left, hleft, -⟩ := v.exists_of_le (m := n) (by omega) le_rfl
      exact ⟨.binary op hop.symm left e, by simp [lexemes, hleft]⟩
    · obtain ⟨q, hq⟩ := ih htighter
      exact ⟨.tighter hn' q, hq⟩
  | binary op' hop left right ih =>
    obtain ⟨q, hq⟩ := ih hn
    exact ⟨.binary op' hop q right, by simp [lexemes, hq]⟩

end Phrase

namespace Part

/-- The weight of a part without gaps. -/
def weight : Part → ℤ
  | whole => -1
  | tail => 0
  | further count => -count

/-- Whether lexemes are a part of an expression that has no gaps. -/
def IsFilled : Part → List Lexeme → Prop
  | whole, ls => ∃ p : Phrase 1, p.lexemes = ls
  | tail, ls => ls = [] ∨ ∃ op, ∃ p : Phrase 1, ls = .binary op :: p.lexemes
  | further count, ls => ∃ operands : List (Phrase 1), operands.length = count ∧
    ls = (operands.map fun p => .comma :: p.lexemes).flatten

/-- A value with a tail is an expression. -/
theorem IsFilled.append_tail {ls : List Lexeme} (h : tail.IsFilled ls) (v : Phrase 8) :
    whole.IsFilled (v.lexemes ++ ls) := by
  rcases h with rfl | ⟨op, p, rfl⟩
  · obtain ⟨p, hp, -⟩ := (Phrase.signed [] v).exists_of_le (m := 1) (by omega) le_rfl
    exact ⟨p, by simp [hp, Phrase.lexemes]⟩
  · exact (Phrase.signed [] v).exists_binary_append op p op.precedence_mem.1

/-- The operands of a call, with the commas between them. -/
theorem IsFilled.exists_call {n : ℕ} {inner more : List Lexeme} {f : Function}
    (harity : f.arity = n + 1) (hinner : whole.IsFilled inner)
    (hmore : (further n).IsFilled more) :
    ∃ v : Phrase 8, v.lexemes = .function f :: .opening :: (inner ++ (more ++ [.closing])) := by
  obtain ⟨p, rfl⟩ := hinner
  obtain ⟨operands, hlength, rfl⟩ := hmore
  have hall : (p :: operands).length = f.arity := by simp [hlength, harity]
  have hcommas : [Lexeme.comma].intercalate ((p :: operands).map Phrase.lexemes) =
      p.lexemes ++ (operands.map fun p => .comma :: p.lexemes).flatten := by
    clear hall hlength
    induction operands generalizing p with
    | nil => simp
    | cons q operands ih => simpa using ih q
  refine ⟨.call f fun k => (p :: operands).get (k.cast hall.symm), ?_⟩
  have hget : (List.ofFn fun k : Fin f.arity => ((p :: operands).get (k.cast hall.symm)).lexemes) =
      (p :: operands).map Phrase.lexemes := by
    apply List.ext_get
    · simp [hlength, harity]
    · intro k _ _
      simp only [List.get_eq_getElem, List.getElem_ofFn, List.getElem_map, Fin.val_cast]
  simp only [Phrase.lexemes, hget, hcommas, List.append_assoc]

end Part

namespace Sketch

variable {part : Part} {ls : List Lexeme}

/-- A gap can only add to the weight of an expression. -/
theorem weight_le (h : Sketch part ls) : part.weight ≤ (ls.map Lexeme.weight).sum := by
  induction h <;>
    simp only [Part.weight, Lexeme.weight, Item.weight, Item.arity, List.map_cons, List.map_nil,
      List.map_append, List.sum_cons, List.sum_nil, List.sum_append] at * <;>
    omega

/-- A part with the least weight has no gaps. -/
theorem isFilled (h : Sketch part ls) (hweight : (ls.map Lexeme.weight).sum = part.weight)
    (hatoms : ∀ atom, .operand atom ∈ ls → isOperandAtom atom = true) : part.IsFilled ls := by
  induction h with
  | gap => simp [Part.weight] at hweight
  | @unary ls op hls ih =>
    simp only [Part.weight, Lexeme.weight, Item.weight, Item.arity, List.map_cons,
      List.sum_cons] at hweight
    obtain ⟨p, rfl⟩ := ih (by simp only [Part.weight]; omega)
      fun atom hatom => hatoms atom (by simp [hatom])
    exact p.exists_unary_cons op (by omega)
  | @operand ls atom hls ih =>
    simp only [Part.weight, Lexeme.weight, Item.weight, Item.arity, List.map_cons,
      List.sum_cons] at hweight
    have htail := ih (by simp only [Part.weight]; omega)
      fun atom hatom => hatoms atom (by simp [hatom])
    exact htail.append_tail (.operand atom (hatoms atom (by simp)))
  | @group inner ls hinner hls ihinner ihls =>
    have hleast := hinner.weight_le
    have hleast' := hls.weight_le
    simp only [Part.weight, Lexeme.weight, List.map_cons, List.map_append, List.sum_cons,
      List.sum_append] at hweight hleast hleast'
    obtain ⟨p, rfl⟩ := ihinner (by simp only [Part.weight]; omega)
      fun atom hatom => hatoms atom (by simp [hatom])
    have htail := ihls (by simp only [Part.weight]; omega)
      fun atom hatom => hatoms atom (by simp [hatom])
    simpa [Phrase.lexemes] using htail.append_tail (.group p)
  | @call n inner more ls f harity hinner hmore hls ihinner ihmore ihls =>
    have hleast := hinner.weight_le
    have hleast' := hmore.weight_le
    have hleast'' := hls.weight_le
    simp only [Part.weight, Lexeme.weight, Item.weight, Item.arity, harity, List.map_cons,
      List.map_append, List.sum_cons, List.sum_append] at hweight hleast hleast' hleast''
    have hinner' := ihinner (by simp only [Part.weight]; omega)
      fun atom hatom => hatoms atom (by simp [hatom])
    have hmore' := ihmore (by simp only [Part.weight]; omega)
      fun atom hatom => hatoms atom (by simp [hatom])
    have htail := ihls (by simp only [Part.weight]; omega)
      fun atom hatom => hatoms atom (by simp [hatom])
    obtain ⟨v, hv⟩ := Part.IsFilled.exists_call harity hinner' hmore'
    simpa [hv] using htail.append_tail v
  | stop => exact .inl rfl
  | @binary ls op hls ih =>
    simp only [Part.weight, Lexeme.weight, Item.weight, Item.arity, List.map_cons,
      List.sum_cons] at hweight
    obtain ⟨p, rfl⟩ := ih (by simp only [Part.weight]; omega)
      fun atom hatom => hatoms atom (by simp [hatom])
    exact .inr ⟨op, p, rfl⟩
  | last => exact ⟨[], rfl, rfl⟩
  | @comma n inner more hinner hmore ihinner ihmore =>
    have hleast := hinner.weight_le
    have hleast' := hmore.weight_le
    simp only [Part.weight, Lexeme.weight, List.map_cons, List.map_append, List.sum_cons,
      List.sum_append] at hweight hleast hleast'
    obtain ⟨p, rfl⟩ := ihinner (by simp only [Part.weight]; omega)
      fun atom hatom => hatoms atom (by simp [hatom])
    obtain ⟨operands, hlength, rfl⟩ := ihmore (by simp only [Part.weight]; omega)
      fun atom hatom => hatoms atom (by simp [hatom])
    exact ⟨p :: operands, by simp [hlength], by simp⟩

end Sketch

/-- Lexemes are a phrase if they can be reordered and one value is left in the end. -/
theorem exists_phrase_of_polish {atoms : List String} {lexemes : List Lexeme} {items : List Item}
    (hclassify : classify expression atoms = .ok lexemes)
    (hpolish : polish expression lexemes = .ok items)
    (hheight : stackHeight? (items.map Item.arity) = some 1) :
    ∃ p : Phrase 1, p.lexemes = lexemes := by
  have hsketch := sketch_of_polish hclassify hpolish
  have hreversed : totalWeight [] items = (lexemes.reverse.map Lexeme.weight).sum := by
    simpa [totalWeight] using totalWeight_of_polishFrom hpolish
  have hweight : (lexemes.map Lexeme.weight).sum = Part.whole.weight := by
    rw [← List.sum_reverse, ← List.map_reverse, ← hreversed]
    exact totalWeight_of_stackHeight? hheight
  exact hsketch.isFilled hweight fun atom hatom =>
    isOperandAtom_of_mem_operandAtoms (mem_operandAtoms_of_classifyFrom hclassify hatom)

end Logo
