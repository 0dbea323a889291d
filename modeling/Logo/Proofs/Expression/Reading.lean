import Logo.Proofs.Expression.Grammar
import Mathlib.Data.List.Forall2

/-!
# Phrases in Polish order

The lexemes of an expression are read from right to left. When a phrase has been read, part of its
items are in the output, and the operators that stand on its left edge still wait on the stack. Once
these are moved to the output, all items of the phrase are there in Polish order.
-/

namespace Logo

variable {expression : String}

/-- The precedences of binary operators are the levels from one to six. -/
theorem BinaryOp.precedence_mem (op : BinaryOp) : 1 ≤ op.precedence ∧ op.precedence ≤ 6 := by
  cases op <;> decide

/-- Every function takes an operand. -/
theorem Function.arity_pos (f : Function) : 0 < f.arity := by
  cases f <;> decide

/-- Whether what waits is an operator that binds at least as tightly as a precedence. -/
def Pending.Binds (n : ℕ) : Pending → Prop
  | unary _ => n ≤ UnaryOp.precedence
  | binary op => n ≤ op.precedence
  | group _ _ => False

/-- Whether nothing on top of a stack binds tighter than a precedence. -/
def IsLoose (n : ℕ) : List Pending → Prop
  | .unary _ :: _ => UnaryOp.precedence ≤ n
  | .binary op :: _ => op.precedence ≤ n
  | .group _ _ :: _ => True
  | [] => True

/-- What binds at least as tightly as one precedence does so for all lower ones. -/
theorem Pending.Binds.mono {n k : ℕ} {w : Pending} (h : w.Binds k) (hnk : n ≤ k) :
    w.Binds n := by
  cases w with
  | unary op => exact le_trans hnk h
  | binary op => exact le_trans hnk h
  | group commas mark => exact h

/-- A stack on which nothing binds tighter than one precedence has nothing that binds tighter than a
higher one. -/
theorem IsLoose.mono {n k : ℕ} {stack : List Pending} (h : IsLoose n stack) (hnk : n ≤ k) :
    IsLoose k stack := by
  match stack, h with
  | .unary _ :: _, h => exact le_trans h hnk
  | .binary _ :: _, h => exact le_trans h hnk
  | .group _ _ :: _, _ => trivial
  | [], _ => trivial

/-- What is in the output before the waiting operators stays behind them. -/
theorem popAll?_append {spine : List Pending} {sent items : List Item}
    (h : popAll? spine sent = some items) (output : List Item) :
    popAll? spine (sent ++ output) = some (items ++ output) := by
  induction spine generalizing sent with
  | nil =>
    obtain rfl : sent = items := by simpa [popAll?] using h
    rfl
  | cons w spine ih =>
    cases w with
    | unary op => exact ih h
    | binary op => exact ih h
    | group commas mark => cases h

/-- Operators further down the stack come out after those above them. -/
theorem popAll?_append_stack {spine : List Pending} {output items : List Item}
    (h : popAll? spine output = some items) (stack : List Pending) :
    popAll? (spine ++ stack) output = popAll? stack items := by
  induction spine generalizing output with
  | nil =>
    obtain rfl : output = items := by simpa [popAll?] using h
    rfl
  | cons w spine ih =>
    cases w with
    | unary op => exact ih h
    | binary op => exact ih h
    | group commas mark => cases h

/-- The waiting operators of a group are those above it on the stack. -/
theorem popGroup?_of_popAll? {spine : List Pending} {output items : List Item}
    (h : popAll? spine output = some items) (commas mark : ℕ) (outside : List Pending) :
    popGroup? (spine ++ .group commas mark :: outside) output =
      some { commas, mark, outside, output := items } := by
  induction spine generalizing output with
  | nil =>
    obtain rfl : output = items := by simpa [popAll?] using h
    rfl
  | cons w spine ih =>
    cases w with
    | unary op => exact ih h
    | binary op => exact ih h
    | group commas mark => cases h

/-- A looser operator moves the operators of the phrase on its right, and no others. -/
theorem popTighter_of_popAll? {n : ℕ} {spine stack : List Pending} {output items : List Item}
    (h : popAll? spine output = some items) (hspine : ∀ w ∈ spine, w.Binds (n + 1))
    (hstack : IsLoose n stack) : popTighter n (spine ++ stack) output = (stack, items) := by
  induction spine generalizing output with
  | nil =>
    obtain rfl : output = items := by simpa [popAll?] using h
    match stack, hstack with
    | .unary _ :: _, hstack => simp [popTighter, Nat.not_lt.mpr hstack]
    | .binary _ :: _, hstack => simp [popTighter, Nat.not_lt.mpr hstack]
    | .group _ _ :: _, _ => rfl
    | [], _ => rfl
  | cons w spine ih =>
    have hw := hspine w (List.mem_cons_self)
    have hrest : ∀ w ∈ spine, w.Binds (n + 1) := fun w hw => hspine w (List.mem_cons_of_mem _ hw)
    cases w with
    | unary op =>
      have htighter : n < UnaryOp.precedence := hw
      rw [List.cons_append, popTighter, if_pos htighter]
      exact ih h hrest
    | binary op =>
      have htighter : n < op.precedence := hw
      rw [List.cons_append, popTighter, if_pos htighter]
      exact ih h hrest
    | group commas mark => exact hw.elim

/-- A comma completes an operand of the innermost group. -/
theorem polishFrom_comma {rest : List Lexeme} {stack : List Pending} {output : List Item}
    {g : Group} (h : popGroup? stack output = some g) :
    polishFrom expression (.comma :: rest) stack output =
      polishFrom expression rest (.group (g.commas + 1) g.mark :: g.outside) g.output := by
  simp [polishFrom, h]

/-- An opening parenthesis behind a function closes a call with the right number of operands. -/
theorem polishFrom_call {f : Function} {rest : List Lexeme} {stack : List Pending}
    {output : List Item} {g : Group} (h : popGroup? stack output = some g)
    (harity : f.arity = g.argumentCount) :
    polishFrom expression (.opening :: .function f :: rest) stack output =
      polishFrom expression rest g.outside (.call f :: g.output) := by
  simp [polishFrom, h, harity]

/-- Any other opening parenthesis closes a group that holds one expression. -/
theorem polishFrom_group {rest : List Lexeme} {stack : List Pending} {output : List Item}
    {g : Group} (h : popGroup? stack output = some g) (hcommas : g.commas = 0)
    (hempty : g.isEmpty = false) (hrest : ∀ f, rest.head? ≠ some (.function f)) :
    polishFrom expression (.opening :: rest) stack output =
      polishFrom expression rest g.outside g.output := by
  match rest, hrest with
  | .function f :: _, hrest => exact absurd rfl (hrest f)
  | [], _ | .operand _ :: _, _ | .unary _ :: _, _ | .binary _ :: _, _ | .opening :: _, _
  | .closing :: _, _ | .comma :: _, _ => simp [polishFrom, h, hcommas, hempty]

/-- Lexemes that read as a phrase of a level: they leave operators of at least that level waiting,
and with these moved to the output it has grown by the given items. -/
def Reads (expression : String) (n : ℕ) (lexemes : List Lexeme) (items : List Item) : Prop :=
  ∃ spine sent, popAll? spine sent = some items ∧ (∀ w ∈ spine, w.Binds n) ∧
    ∀ rest stack output, (∀ f, rest.head? ≠ some (.function f)) → IsLoose n stack →
      polishFrom expression (lexemes.reverse ++ rest) stack output =
        polishFrom expression rest (spine ++ stack) (sent ++ output)

namespace Reads

/-- An operand reads as a phrase of the tightest level. -/
theorem operand (atom : String) : Reads expression 8 [.operand atom] [.operand atom] :=
  ⟨[], [.operand atom], rfl, by simp, fun _ _ _ _ _ => rfl⟩

/-- What reads as a phrase of one level reads as a phrase of the level below. -/
theorem tighter {n : ℕ} {lexemes : List Lexeme} {items : List Item}
    (h : Reads expression (n + 1) lexemes items) : Reads expression n lexemes items := by
  obtain ⟨spine, sent, hitems, hspine, hread⟩ := h
  exact ⟨spine, sent, hitems, fun w hw => (hspine w hw).mono n.le_succ,
    fun rest stack output hrest hstack => hread rest stack output hrest (hstack.mono n.le_succ)⟩

/-- No operator of a primary waits. -/
theorem primary {lexemes : List Lexeme} {items : List Item}
    (h : Reads expression 8 lexemes items) {rest : List Lexeme} {stack : List Pending}
    {output : List Item} (hrest : ∀ f, rest.head? ≠ some (.function f)) (hstack : IsLoose 8 stack) :
    polishFrom expression (lexemes.reverse ++ rest) stack output =
      polishFrom expression rest stack (items ++ output) := by
  obtain ⟨spine, sent, hitems, hspine, hread⟩ := h
  cases spine with
  | nil =>
    obtain rfl : sent = items := by simpa [popAll?] using hitems
    exact hread rest stack output hrest hstack
  | cons w spine =>
    have hw := hspine w (List.mem_cons_self)
    cases w with
    | unary op =>
      have hprecedence : 8 ≤ 7 := hw
      omega
    | binary op =>
      have hprecedence : 8 ≤ op.precedence := hw
      have := op.precedence_mem
      omega
    | group commas mark => exact hw.elim

/-- Prefix operators are pushed from the last to the first, and come off the stack in order. -/
theorem signed (ops : List UnaryOp) {lexemes : List Lexeme} {items : List Item}
    (h : Reads expression 8 lexemes items) :
    Reads expression 7 (ops.map .unary ++ lexemes) (ops.reverse.map .unary ++ items) := by
  have hpop (ops : List UnaryOp) (items : List Item) :
      popAll? (ops.map .unary) items = some (ops.reverse.map .unary ++ items) := by
    induction ops generalizing items with
    | nil => rfl
    | cons op ops ih =>
      rw [List.map_cons, popAll?, ih]
      simp
  have hpush (ops : List UnaryOp) (rest : List Lexeme) (stack : List Pending)
      (output : List Item) :
      polishFrom expression ((ops.map Lexeme.unary).reverse ++ rest) stack output =
        polishFrom expression rest (ops.map .unary ++ stack) output := by
    induction ops generalizing rest with
    | nil => rfl
    | cons op ops ih =>
      rw [List.map_cons, List.reverse_cons, List.append_assoc, ih]
      rfl
  refine ⟨ops.map .unary, items, hpop ops items, ?_, ?_⟩
  · intro w hw
    obtain ⟨op, _, rfl⟩ := List.mem_map.mp hw
    exact le_refl 7
  · intro rest stack output hrest hstack
    rw [List.reverse_append, List.append_assoc, h.primary ?_ (hstack.mono (by omega)), hpush]
    intro f
    cases hops : (ops.map Lexeme.unary).reverse with
    | nil => simpa using hrest f
    | cons first others =>
      have hmem : first ∈ ops.map Lexeme.unary := by
        rw [← List.mem_reverse, hops]
        exact List.mem_cons_self
      obtain ⟨op, _, rfl⟩ := List.mem_map.mp hmem
      simp

/-- A binary operator moves the operators of its right operand to the output and waits below those
of its left operand. -/
theorem binary {op : BinaryOp} {left right : List Lexeme} {leftItems rightItems : List Item}
    (hleft : Reads expression op.precedence left leftItems)
    (hright : Reads expression (op.precedence + 1) right rightItems) :
    Reads expression op.precedence (left ++ .binary op :: right)
      (.binary op :: (leftItems ++ rightItems)) := by
  obtain ⟨spine, sent, hitems, hspine, hread⟩ := hleft
  obtain ⟨rightSpine, rightSent, hrightItems, hrightSpine, hrightRead⟩ := hright
  refine ⟨spine ++ [.binary op], sent ++ rightItems, ?_, ?_, ?_⟩
  · rw [popAll?_append_stack (popAll?_append hitems rightItems)]
    rfl
  · intro w hw
    rcases List.mem_append.mp hw with hw | hw
    · exact hspine w hw
    · rw [List.mem_singleton.mp hw]
      exact le_refl op.precedence
  · intro rest stack output hrest hstack
    have hpop := popTighter_of_popAll? (popAll?_append hrightItems output) hrightSpine hstack
    rw [List.reverse_append, List.reverse_cons, List.append_assoc, List.append_assoc,
      hrightRead _ _ _ (by simp) (hstack.mono (Nat.le_succ _))]
    simp only [List.singleton_append, polishFrom, hpop]
    have hloose : IsLoose op.precedence (.binary op :: stack) := le_refl op.precedence
    rw [hread _ _ _ hrest hloose]
    simp

/-- A parenthesised phrase leaves its items in the output, and nothing waits. -/
theorem group {lexemes : List Lexeme} {items : List Item}
    (h : Reads expression 1 lexemes items) (hitems : items ≠ []) :
    Reads expression 8 (.opening :: (lexemes ++ [.closing])) items := by
  obtain ⟨spine, sent, hpop, _, hread⟩ := h
  refine ⟨[], items, rfl, by simp, ?_⟩
  intro rest stack output hrest _
  have hgroup := popGroup?_of_popAll? (popAll?_append hpop output) 0 output.length stack
  have hlength : 0 < items.length := List.length_pos_iff.mpr hitems
  have hlexemes : (Lexeme.opening :: (lexemes ++ [.closing])).reverse ++ rest =
      .closing :: (lexemes.reverse ++ .opening :: rest) := by simp
  have hloose : IsLoose 1 (.group 0 output.length :: stack) := trivial
  rw [hlexemes, polishFrom, hread _ _ _ (by simp) hloose, polishFrom_group hgroup rfl ?_ hrest]
  · rfl
  · have hgrown : (items ++ output).length ≠ output.length := by
      rw [List.length_append]
      omega
    simp only [Group.isEmpty, decide_eq_false hgrown, Bool.false_and]

/-- Operands between commas, read from the last to the first, add to the commas of their group. -/
private theorem operands {lexemes : List (List Lexeme)} {items : List (List Item)}
    (hne : lexemes ≠ []) (h : List.Forall₂ (Reads expression 1) lexemes items) :
    ∃ spine sent, popAll? spine sent = some items.flatten ∧
      ∀ rest commas mark stack output, (∀ f, rest.head? ≠ some (.function f)) →
        polishFrom expression (([.comma].intercalate lexemes).reverse ++ rest)
            (.group commas mark :: stack) output =
          polishFrom expression rest
            (spine ++ .group (commas + (lexemes.length - 1)) mark :: stack) (sent ++ output) := by
  induction h with
  | nil => exact absurd rfl hne
  | @cons first firstItems lexemes items hfirst hothers ih =>
    obtain ⟨spine, sent, hpop, _, hread⟩ := hfirst
    cases hothers with
    | nil =>
      refine ⟨spine, sent, by simpa using hpop, ?_⟩
      intro rest commas mark stack output hrest
      have hloose : IsLoose 1 (.group commas mark :: stack) := trivial
      simpa using hread rest _ output hrest hloose
    | @cons second secondItems lexemes items hsecond hothers =>
      obtain ⟨spine', sent', hpop', hread'⟩ := ih (by simp)
      refine ⟨spine, sent ++ (secondItems :: items).flatten, popAll?_append hpop _, ?_⟩
      intro rest commas mark stack output hrest
      have hlexemes : ([.comma].intercalate (first :: second :: lexemes)).reverse ++ rest =
          ([.comma].intercalate (second :: lexemes)).reverse ++
            (.comma :: (first.reverse ++ rest)) := by simp
      have hgroup := popGroup?_of_popAll? (popAll?_append hpop' output)
        (commas + ((second :: lexemes).length - 1)) mark stack
      have hcount : commas + ((second :: lexemes).length - 1) + 1 =
          commas + ((first :: second :: lexemes).length - 1) := by simp [Nat.add_assoc]
      have hloose (commas : ℕ) : IsLoose 1 (.group commas mark :: stack) := trivial
      rw [hlexemes, hread' _ _ _ _ _ (by simp), polishFrom_comma hgroup,
        hread _ _ _ hrest (hloose _), hcount, List.append_assoc]

/-- A function leaves its own item before those of its operands, and nothing waits. -/
theorem call (f : Function) {lexemes : Fin f.arity → List Lexeme} {items : Fin f.arity → List Item}
    (h : ∀ k, Reads expression 1 (lexemes k) (items k)) (hitems : ∀ k, items k ≠ []) :
    Reads expression 8
      (.function f :: .opening :: ([.comma].intercalate (List.ofFn lexemes) ++ [.closing]))
      (.call f :: (List.ofFn items).flatten) := by
  have harity := f.arity_pos
  have hne : List.ofFn lexemes ≠ [] := by simpa [List.ofFn_eq_nil_iff] using harity.ne'
  have hall : List.Forall₂ (Reads expression 1) (List.ofFn lexemes) (List.ofFn items) := by
    rw [List.forall₂_iff_get]
    refine ⟨by simp, fun k hk _ => ?_⟩
    simpa using h ⟨k, by simpa using hk⟩
  obtain ⟨spine, sent, hpop, hread⟩ := operands hne hall
  refine ⟨[], .call f :: (List.ofFn items).flatten, rfl, by simp, ?_⟩
  intro rest stack output hrest _
  have hgroup := popGroup?_of_popAll? (popAll?_append hpop output)
    (0 + ((List.ofFn lexemes).length - 1)) output.length stack
  have hlength : 0 < (List.ofFn items).flatten.length := by
    have hmem : items ⟨0, harity⟩ ∈ List.ofFn items := List.mem_ofFn.mpr ⟨_, rfl⟩
    have hsub := List.sublist_flatten_of_mem hmem
    exact lt_of_lt_of_le (List.length_pos_iff.mpr (hitems _)) hsub.length_le
  have hlexemes : (Lexeme.function f :: .opening ::
      ([.comma].intercalate (List.ofFn lexemes) ++ [.closing])).reverse ++ rest =
      .closing :: (([.comma].intercalate (List.ofFn lexemes)).reverse ++
        (.opening :: .function f :: rest)) := by simp
  rw [hlexemes, polishFrom, hread _ _ _ _ _ (by simp), polishFrom_call hgroup]
  · simp
  · have hgrown : ((List.ofFn items).flatten ++ output).length ≠ output.length := by
      rw [List.length_append]
      omega
    simp only [Group.argumentCount, Group.isEmpty, decide_eq_false hgrown, Bool.false_and,
      Bool.false_eq_true, if_false, List.length_ofFn]
    omega

end Reads

/-- The items of a tree are at least one. -/
theorem Tree.polish_ne_nil {β : Type} {arity : β → ℕ} (t : Tree arity) : t.polish ≠ [] := by
  cases t with
  | node b operands => simp [Tree.polish]

/-- A phrase reads as the items of the tree that it is compiled to. -/
theorem Phrase.reads {n : ℕ} (p : Phrase n) :
    Reads expression n p.lexemes p.compiled.polish := by
  induction p with
  | operand atom hatom => exact .operand atom
  | group e ih => exact .group ih e.compiled.polish_ne_nil
  | call f operands ih => exact .call f ih fun k => (operands k).compiled.polish_ne_nil
  | signed ops e ih => simpa [lexemes, compiled] using Reads.signed ops ih
  | tighter hn e ih => exact .tighter ih
  | binary op hop left right ihleft ihright =>
    subst hop
    simpa [lexemes, compiled] using Reads.binary ihleft ihright

/-- The lexemes of a phrase are put in the Polish order of the tree that it is compiled to. -/
theorem Phrase.polish_lexemes (p : Phrase 1) :
    polish expression p.lexemes = .ok p.compiled.polish := by
  obtain ⟨spine, sent, hpop, _, hread⟩ : Reads expression 1 p.lexemes p.compiled.polish := p.reads
  have h := hread [] [] [] (by simp) trivial
  simp only [List.append_nil] at h
  rw [polish, h, polishFrom, hpop]

end Logo
