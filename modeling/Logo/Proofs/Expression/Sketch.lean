import Logo.Proofs.Expression.Classification
import Logo.Proofs.Expression.Reading
import Mathlib.Data.List.Chain

/-!
# Expressions with gaps

Reordering checks the parentheses and the commas of an expression, but it does not notice where an
operand is missing. What it accepts is an expression with gaps.
-/

namespace Logo

variable {expression : String}

/-- The parts of an expression with gaps. -/
inductive Part where
  /-- An expression. -/
  | whole
  /-- What follows a value: nothing, or a binary operator and an expression. -/
  | tail
  /-- A number of expressions with a comma before each of them. -/
  | further (count : ℕ)

/-- Whether lexemes are a part of an expression with gaps. The levels of the operators are left
open. -/
inductive Sketch : Part → List Lexeme → Prop
  | gap : Sketch .whole []
  | unary {ls : List Lexeme} (op : UnaryOp) : Sketch .whole ls → Sketch .whole (.unary op :: ls)
  | operand {ls : List Lexeme} (atom : String) :
      Sketch .tail ls → Sketch .whole (.operand atom :: ls)
  | group {inner ls : List Lexeme} :
      Sketch .whole inner → Sketch .tail ls → Sketch .whole (.opening :: (inner ++ .closing :: ls))
  | call {n : ℕ} {inner more ls : List Lexeme} (f : Function) (harity : f.arity = n + 1) :
      Sketch .whole inner → Sketch (.further n) more → Sketch .tail ls →
      Sketch .whole (.function f :: .opening :: (inner ++ (more ++ .closing :: ls)))
  | stop : Sketch .tail []
  | binary {ls : List Lexeme} (op : BinaryOp) : Sketch .whole ls → Sketch .tail (.binary op :: ls)
  | last : Sketch (.further 0) []
  | comma {n : ℕ} {inner more : List Lexeme} :
      Sketch .whole inner → Sketch (.further n) more →
      Sketch (.further (n + 1)) (.comma :: (inner ++ more))

/-! ## What has been read -/

/-- The numbers of commas in the open groups of a stack, from the innermost group outwards. -/
def openGroups : List Pending → List ℕ
  | [] => []
  | .unary _ :: stack | .binary _ :: stack => openGroups stack
  | .group commas _ :: stack => commas :: openGroups stack

/-- Moving operators to the output leaves all groups open. -/
theorem openGroups_popTighter (n : ℕ) (stack : List Pending) (output : List Item) :
    openGroups (popTighter n stack output).1 = openGroups stack := by
  fun_induction popTighter n stack output with
  | case1 op stack output htighter ih => simpa [openGroups] using ih
  | case2 op stack output htighter => rfl
  | case3 op stack output htighter ih => simpa [openGroups] using ih
  | case4 op stack output htighter => rfl
  | case5 stack output => rfl

/-- Closing a group takes the innermost one off the open groups. -/
theorem openGroups_of_popGroup? {stack : List Pending} {output : List Item} {g : Group}
    (h : popGroup? stack output = some g) :
    openGroups stack = g.commas :: openGroups g.outside := by
  fun_induction popGroup? stack output with
  | case1 output => cases h
  | case2 op stack output ih => exact ih h
  | case3 op stack output ih => exact ih h
  | case4 commas mark outside output =>
    cases h
    rfl

/-- Everything can be moved to the output only if no group is open. -/
theorem openGroups_of_popAll? {stack : List Pending} {output items : List Item}
    (h : popAll? stack output = some items) : openGroups stack = [] := by
  fun_induction popAll? stack output with
  | case1 output => rfl
  | case2 op stack output ih => exact ih h
  | case3 op stack output ih => exact ih h
  | case4 => cases h

/-- Whether lexemes, of which a part of an expression comes first, end open groups with the given
numbers of commas. -/
def Closes : Part → List ℕ → List Lexeme → Prop
  | part, [], ls => Sketch part ls
  | part, commas :: counts, ls =>
    ∃ now more after, ls = now ++ (more ++ .closing :: after) ∧ Sketch part now ∧
      Sketch (.further commas) more ∧ Closes .tail counts after

/-- What extends a part of an expression also extends it in front of open groups. -/
theorem Closes.append {part part' : Part} {counts : List ℕ} {ls : List Lexeme}
    (h : Closes part counts ls) (front : List Lexeme)
    (hextend : ∀ now, Sketch part now → Sketch part' (front ++ now)) :
    Closes part' counts (front ++ ls) := by
  cases counts with
  | nil => exact hextend ls h
  | cons commas counts =>
    obtain ⟨now, more, after, rfl, hnow, hmore, hafter⟩ := h
    exact ⟨front ++ now, more, after, by simp, hextend now hnow, hmore, hafter⟩

/-- Whether lexemes have been read from the right, with open groups of which the left end is still
to come. What follows a value is no value, and what an operator applies to is no binary operator. -/
structure IsRead (counts : List ℕ) (ls : List Lexeme) : Prop where
  tail : (∀ first ∈ ls.head?, first.startsValue = false) → Closes .tail counts ls
  whole : (∀ first ∈ ls.head?, first.isBinary = false) → Closes .whole counts ls

namespace IsRead

variable {counts : List ℕ} {ls : List Lexeme} {lexeme : Lexeme}

/-- Lexemes that start with a value have been read if they are a whole expression with gaps. -/
theorem of_startsValue (hstarts : lexeme.startsValue = true)
    (h : Closes .whole counts (lexeme :: ls)) : IsRead counts (lexeme :: ls) where
  tail hhead := by simp [hstarts] at hhead
  whole _ := h

/-- After a lexeme that ends a value comes the tail of one. -/
theorem closes_tail (h : IsRead counts ls) (hends : lexeme.endsValue = true)
    (hfits : ∀ first ∈ ls.head?, lexeme.MayPrecede first) : Closes .tail counts ls := by
  refine h.tail fun first hfirst => ?_
  by_contra hstarts
  have hnot := (hfits first hfirst).1 (by simpa using hstarts)
  simp [hends] at hnot

/-- After a lexeme that does not end a value comes an expression. -/
theorem closes_whole (h : IsRead counts ls) (hends : lexeme.endsValue = false)
    (hfits : ∀ first ∈ ls.head?, lexeme.MayPrecede first) : Closes .whole counts ls := by
  refine h.whole fun first hfirst => ?_
  by_contra hbinary
  have hvalue := (hfits first hfirst).2 (by simpa using hbinary)
  simp [hends] at hvalue

/-- An operand may come before what has been read. -/
theorem operand (h : IsRead counts ls) (atom : String)
    (hfits : ∀ first ∈ ls.head?, (Lexeme.operand atom).MayPrecede first) :
    IsRead counts (.operand atom :: ls) :=
  of_startsValue rfl ((h.closes_tail rfl hfits).append [.operand atom] fun _ => .operand atom)

/-- A prefix operator may come before what has been read. -/
theorem unary (h : IsRead counts ls) (op : UnaryOp)
    (hfits : ∀ first ∈ ls.head?, (Lexeme.unary op).MayPrecede first) :
    IsRead counts (.unary op :: ls) :=
  of_startsValue rfl ((h.closes_whole rfl hfits).append [.unary op] fun _ => .unary op)

/-- A binary operator may come before what has been read. -/
theorem binary (h : IsRead counts ls) (op : BinaryOp)
    (hfits : ∀ first ∈ ls.head?, (Lexeme.binary op).MayPrecede first) :
    IsRead counts (.binary op :: ls) where
  tail _ := (h.closes_whole rfl hfits).append [.binary op] fun _ => .binary op
  whole hhead := by simp [Lexeme.isBinary] at hhead

/-- A closing parenthesis opens one more group, with no commas so far. -/
theorem closing (h : IsRead counts ls)
    (hfits : ∀ first ∈ ls.head?, Lexeme.closing.MayPrecede first) :
    IsRead (0 :: counts) (.closing :: ls) where
  tail _ := ⟨[], [], ls, rfl, .stop, .last, h.closes_tail rfl hfits⟩
  whole _ := ⟨[], [], ls, rfl, .gap, .last, h.closes_tail rfl hfits⟩

/-- A comma counts for the innermost open group. -/
theorem comma {commas : ℕ} (h : IsRead (commas :: counts) ls)
    (hfits : ∀ first ∈ ls.head?, Lexeme.comma.MayPrecede first) :
    IsRead ((commas + 1) :: counts) (.comma :: ls) := by
  obtain ⟨now, more, after, rfl, hnow, hmore, hafter⟩ := h.closes_whole rfl hfits
  have hnext := Sketch.comma hnow hmore
  exact ⟨fun _ => ⟨[], _, after, by simp, .stop, hnext, hafter⟩,
    fun _ => ⟨[], _, after, by simp, .gap, hnext, hafter⟩⟩

/-- An opening parenthesis of its own ends a group without commas. -/
theorem group (h : IsRead (0 :: counts) ls)
    (hfits : ∀ first ∈ ls.head?, Lexeme.opening.MayPrecede first) :
    IsRead counts (.opening :: ls) := by
  obtain ⟨now, more, after, rfl, hnow, hmore, hafter⟩ := h.closes_whole rfl hfits
  cases hmore
  have hgroup := hafter.append (.opening :: (now ++ [.closing])) fun tail htail => by
    simpa using Sketch.group hnow htail
  exact of_startsValue rfl (by simpa using hgroup)

/-- The name of a function and an opening parenthesis end a group with a comma less than the
function has operands. -/
theorem call {commas : ℕ} (h : IsRead (commas :: counts) ls) (f : Function)
    (harity : f.arity = commas + 1)
    (hfits : ∀ first ∈ ls.head?, Lexeme.opening.MayPrecede first) :
    IsRead counts (.function f :: .opening :: ls) := by
  obtain ⟨now, more, after, rfl, hnow, hmore, hafter⟩ := h.closes_whole rfl hfits
  have hcall := hafter.append (.function f :: .opening :: (now ++ (more ++ [.closing])))
    fun tail htail => by simpa using Sketch.call f harity hnow hmore htail
  exact of_startsValue rfl (by simpa using hcall)

end IsRead

/-- A group that has as many operands as a function takes has one comma less. -/
theorem Function.arity_eq_of_argumentCount {f : Function} {g : Group}
    (h : f.arity = g.argumentCount) : f.arity = g.commas + 1 := by
  have hpos := f.arity_pos
  unfold Group.argumentCount at h
  split at h <;> omega

/-- What a lexeme among others may stand in front of. -/
private theorem mayPrecede_head {before after : List Lexeme} {lexeme : Lexeme}
    (h : (before ++ lexeme :: after).IsChain Lexeme.MayPrecede) :
    ∀ first ∈ after.head?, lexeme.MayPrecede first := by
  exact (List.isChain_cons.mp h.right_of_append).1

/-- Lexemes that are reordered without a fault have been read to the left end of every group. -/
theorem isRead_of_polishFrom {rest read : List Lexeme} {stack : List Pending}
    {output items : List Item} (h : polishFrom expression rest stack output = .ok items)
    (hchain : (rest.reverse ++ read).IsChain Lexeme.MayPrecede)
    (hread : IsRead (openGroups stack) read) : IsRead [] (rest.reverse ++ read) := by
  fun_induction polishFrom expression rest stack output generalizing read with
  | case1 stack output items' hpop =>
    rw [openGroups_of_popAll? hpop] at hread
    exact hread
  | case3 atom rest stack output ih =>
    rw [List.reverse_cons, List.append_assoc, List.singleton_append] at hchain ⊢
    exact ih h hchain (hread.operand atom (mayPrecede_head hchain))
  | case4 op rest stack output ih =>
    rw [List.reverse_cons, List.append_assoc, List.singleton_append] at hchain ⊢
    exact ih h hchain (hread.unary op (mayPrecede_head hchain))
  | case5 op rest stack output stack' output' hpop ih =>
    rw [List.reverse_cons, List.append_assoc, List.singleton_append] at hchain ⊢
    have hgroups : openGroups stack' = openGroups stack := by
      rw [← openGroups_popTighter op.precedence stack output, hpop]
    exact ih h hchain (hgroups ▸ hread.binary op (mayPrecede_head hchain))
  | case6 rest stack output ih =>
    rw [List.reverse_cons, List.append_assoc, List.singleton_append] at hchain ⊢
    exact ih h hchain (hread.closing (mayPrecede_head hchain))
  | case8 rest stack output g hpop ih =>
    rw [List.reverse_cons, List.append_assoc, List.singleton_append] at hchain ⊢
    rw [openGroups_of_popGroup? hpop] at hread
    exact ih h hchain (hread.comma (mayPrecede_head hchain))
  | case11 stack output g hpop f rest harity ih =>
    rw [List.reverse_cons, List.reverse_cons, List.append_assoc, List.append_assoc,
      List.singleton_append, List.singleton_append] at hchain ⊢
    rw [openGroups_of_popGroup? hpop] at hread
    have hopening : (rest.reverse ++ [Lexeme.function f] ++ Lexeme.opening :: read).IsChain
        Lexeme.MayPrecede := by simpa using hchain
    exact ih h hchain
      (hread.call f (Function.arity_eq_of_argumentCount harity) (mayPrecede_head hopening))
  | case15 stack output g hpop rest hname hcommas hempty ih =>
    rw [List.reverse_cons, List.append_assoc, List.singleton_append] at hchain ⊢
    have hnone : g.commas = 0 := by omega
    rw [openGroups_of_popGroup? hpop, hnone] at hread
    exact ih h hchain (hread.group (mayPrecede_head hchain))
  | case2 | case7 | case9 | case10 | case12 | case13 | case14 => cases h

/-- The lexemes of an expression that are reordered without a fault are an expression with gaps. -/
theorem sketch_of_polish {atoms : List String} {lexemes : List Lexeme} {items : List Item}
    (hclassify : classify expression atoms = .ok lexemes)
    (hpolish : polish expression lexemes = .ok items) : Sketch .whole lexemes := by
  have hchain : (lexemes.reverse.reverse ++ []).IsChain Lexeme.MayPrecede := by
    simpa using isChain_of_classifyFrom hclassify
  have hstart : IsRead (openGroups []) [] := ⟨fun _ => .stop, fun _ => .gap⟩
  have hread := isRead_of_polishFrom hpolish hchain hstart
  rw [List.reverse_reverse, List.append_nil] at hread
  exact hread.whole (not_isBinary_of_classifyFrom hclassify)

end Logo
