import Logo.Expression.Atom
import Logo.Expression.Polish
import Logo.Proofs.Expression.Tree
import Mathlib.Data.Fin.VecNotation

/-!
# The grammar of expressions

The phrases of an expression have eight levels. A phrase of one of the first six levels is built
from the left with the binary operators of that precedence, or is a phrase of the next level. A
phrase of the seventh level is a primary behind any number of prefix operators. A primary, of the
eighth level, is an operand, an expression between parentheses, or a function with its operands.

A phrase stands for a tree. The tree that an expression is compiled to differs from it in one point:
of several prefix operators in a row, the first one is applied first.
-/

namespace Logo

/-- How many operands an item in Polish order takes. -/
def Item.arity : Item → ℕ
  | operand _ => 0
  | unary _ => 1
  | binary _ => 2
  | call f => f.arity

/-- Trees of items. -/
abbrev ItemTree := Tree Item.arity

namespace ItemTree

/-- The tree of an operand. -/
def operand (atom : String) : ItemTree := .node (.operand atom) Fin.elim0

/-- The tree of a prefix operator. -/
def unary (op : UnaryOp) (t : ItemTree) : ItemTree := .node (.unary op) fun _ => t

/-- The tree of a binary operator. -/
def binary (op : BinaryOp) (left right : ItemTree) : ItemTree := .node (.binary op) ![left, right]

/-- The tree of a function. -/
def call (f : Function) (operands : Fin f.arity → ItemTree) : ItemTree := .node (.call f) operands

/-- An operand is alone in its Polish order. -/
@[simp] theorem polish_operand (atom : String) : (operand atom).polish = [.operand atom] := rfl

/-- A prefix operator stands before its operand. -/
@[simp] theorem polish_unary (op : UnaryOp) (t : ItemTree) :
    (unary op t).polish = .unary op :: t.polish := by
  simp [unary, Tree.polish, Item.arity]

/-- A binary operator stands before its operands, the left one first. -/
@[simp] theorem polish_binary (op : BinaryOp) (left right : ItemTree) :
    (binary op left right).polish = .binary op :: (left.polish ++ right.polish) := by
  simp [binary, Tree.polish, Item.arity]

/-- A function stands before its operands, in their order. -/
@[simp] theorem polish_call (f : Function) (operands : Fin f.arity → ItemTree) :
    (call f operands).polish =
      .call f :: (List.ofFn fun k => (operands k).polish).flatten := rfl

/-- Prefix operators that are applied from the last to the first keep their order. -/
@[simp] theorem polish_foldr_unary (ops : List UnaryOp) (t : ItemTree) :
    (ops.foldr unary t).polish = ops.map .unary ++ t.polish := by
  induction ops with
  | nil => rfl
  | cons op ops ih => simp [ih]

/-- Prefix operators that are applied from the first to the last come out in reverse. -/
@[simp] theorem polish_foldl_unary (ops : List UnaryOp) (t : ItemTree) :
    (ops.foldl (fun t op => unary op t) t).polish = ops.reverse.map .unary ++ t.polish := by
  induction ops generalizing t with
  | nil => rfl
  | cons op ops ih => simp [ih]

end ItemTree

/-- Whether an atom can be an operand: it is anything but a character of punctuation. -/
def isOperandAtom (atom : String) : Bool :=
  match atom.toList with
  | [c] => !isPunctuation c
  | _ => true

/-- The phrases of each level of the grammar. -/
inductive Phrase : ℕ → Type where
  /-- An operand. -/
  | operand (atom : String) (hatom : isOperandAtom atom = true) : Phrase 8
  /-- An expression between parentheses. -/
  | group (e : Phrase 1) : Phrase 8
  /-- A function with as many operands as it takes. -/
  | call (f : Function) (operands : Fin f.arity → Phrase 1) : Phrase 8
  /-- A primary behind prefix operators. -/
  | signed (ops : List UnaryOp) (e : Phrase 8) : Phrase 7
  /-- A phrase without an operator of the level in front. -/
  | tighter {n : ℕ} (hn : n < 7) (e : Phrase (n + 1)) : Phrase n
  /-- A phrase of the same level, an operator of that precedence, and a phrase of the next level. -/
  | binary {n : ℕ} (op : BinaryOp) (hop : op.precedence = n) (left : Phrase n)
      (right : Phrase (n + 1)) : Phrase n

-- The operators of each level, from the loosest to the tightest.
example : (List.range' 1 6).map (fun n =>
    String.ofList ((BinaryOp.all.filter (·.precedence = n)).map BinaryOp.symbol)) =
      [":", "|", "&", "=<>", "+-", "*/%"] := by decide

namespace Phrase

/-- The atoms of a phrase, as they are written. -/
def atoms : {n : ℕ} → Phrase n → List String
  | _, operand atom _ => [atom]
  | _, group e => "(" :: (e.atoms ++ [")"])
  | _, call f operands =>
    f.name :: "(" :: ([","].intercalate (List.ofFn fun k => (operands k).atoms) ++ [")"])
  | _, signed ops e => ops.map (·.symbol.toString) ++ e.atoms
  | _, tighter _ e => e.atoms
  | _, binary op _ left right => left.atoms ++ op.symbol.toString :: right.atoms

/-- The lexemes of a phrase. -/
def lexemes : {n : ℕ} → Phrase n → List Lexeme
  | _, operand atom _ => [.operand atom]
  | _, group e => .opening :: (e.lexemes ++ [.closing])
  | _, call f operands =>
    .function f :: .opening ::
      ([.comma].intercalate (List.ofFn fun k => (operands k).lexemes) ++ [.closing])
  | _, signed ops e => ops.map .unary ++ e.lexemes
  | _, tighter _ e => e.lexemes
  | _, binary op _ left right => left.lexemes ++ .binary op :: right.lexemes

/-- The tree that a phrase stands for. -/
def tree : {n : ℕ} → Phrase n → ItemTree
  | _, operand atom _ => .operand atom
  | _, group e => e.tree
  | _, call f operands => .call f fun k => (operands k).tree
  | _, signed ops e => ops.foldr .unary e.tree
  | _, tighter _ e => e.tree
  | _, binary op _ left right => .binary op left.tree right.tree

/-- The tree that a phrase is compiled to: prefix operators in a row are applied from the first to
the last. -/
def compiled : {n : ℕ} → Phrase n → ItemTree
  | _, operand atom _ => .operand atom
  | _, group e => e.compiled
  | _, call f operands => .call f fun k => (operands k).compiled
  | _, signed ops e => ops.foldl (fun t op => .unary op t) e.compiled
  | _, tighter _ e => e.compiled
  | _, binary op _ left right => .binary op left.compiled right.compiled

/-- Whether all prefix operators in a row read the same from both ends. -/
def IsSymmetric : {n : ℕ} → Phrase n → Prop
  | _, operand _ _ => True
  | _, group e => e.IsSymmetric
  | _, call _ operands => ∀ k, (operands k).IsSymmetric
  | _, signed ops e => ops.reverse = ops ∧ e.IsSymmetric
  | _, tighter _ e => e.IsSymmetric
  | _, binary _ _ left right => left.IsSymmetric ∧ right.IsSymmetric

end Phrase

end Logo
