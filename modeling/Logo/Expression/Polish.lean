import Logo.Expression.Lexeme

/-!
# From lexemes to Polish order

In Polish order an operator or function stands before its operands, and parentheses and commas are
gone. The lexemes are read from right to left, with a stack of the operators and groups that wait
for their left end. A binary operator sends those waiting operators ahead of it that bind tighter;
operators of its own precedence stay, so that equal ones group from the left.
-/

namespace Logo

/-- What stands in an expression in Polish order. -/
inductive Item where
  | operand (atom : String)
  | unary (op : UnaryOp)
  | binary (op : BinaryOp)
  | call (f : Function)
deriving DecidableEq, Repr

/-- What waits on the stack for its left end. -/
inductive Pending where
  | unary (op : UnaryOp)
  | binary (op : BinaryOp)
  /-- A group between parentheses: the commas seen in it, and how long the output was before it. -/
  | group (commas mark : Nat)
deriving DecidableEq, Repr

/-- A group of which the left end is reached. -/
structure Group where
  commas : Nat
  mark : Nat
  /-- What waits outside the group. -/
  outside : List Pending
  /-- The output with all of the group's operators. -/
  output : List Item

namespace Group

/-- Whether nothing stands in the group. -/
def isEmpty (g : Group) : Bool := g.output.length = g.mark && g.commas = 0

/-- How many operands the group holds as the arguments of a function. -/
def argumentCount (g : Group) : Nat := if g.isEmpty then 0 else g.commas + 1

end Group

/-- Moves the waiting operators that bind tighter than `precedence` to the output. -/
def popTighter (precedence : Nat) : List Pending → List Item → List Pending × List Item
  | .unary op :: stack, output =>
    if precedence < UnaryOp.precedence then popTighter precedence stack (.unary op :: output)
    else (.unary op :: stack, output)
  | .binary op :: stack, output =>
    if precedence < op.precedence then popTighter precedence stack (.binary op :: output)
    else (.binary op :: stack, output)
  | stack, output => (stack, output)

/-- Moves the waiting operators of the innermost group to the output. -/
def popGroup? : List Pending → List Item → Option Group
  | [], _ => none
  | .unary op :: stack, output => popGroup? stack (.unary op :: output)
  | .binary op :: stack, output => popGroup? stack (.binary op :: output)
  | .group commas mark :: outside, output => some { commas, mark, outside, output }

/-- Moves all waiting operators to the output, if no group is open. -/
def popAll? : List Pending → List Item → Option (List Item)
  | [], output => some output
  | .unary op :: stack, output => popAll? stack (.unary op :: output)
  | .binary op :: stack, output => popAll? stack (.binary op :: output)
  | .group _ _ :: _, _ => none

/-- Reorders lexemes that are given from right to left, in front of the output so far. -/
def polishFrom (expression : String) :
    List Lexeme → List Pending → List Item → Except Fault (List Item)
  | [], stack, output =>
    match popAll? stack output with
    | some items => .ok items
    | none => .error (.unbalancedGrouping expression)
  | .operand atom :: rest, stack, output =>
    polishFrom expression rest stack (.operand atom :: output)
  | .unary op :: rest, stack, output => polishFrom expression rest (.unary op :: stack) output
  | .binary op :: rest, stack, output =>
    let (stack, output) := popTighter op.precedence stack output
    polishFrom expression rest (.binary op :: stack) output
  | .closing :: rest, stack, output =>
    polishFrom expression rest (.group 0 output.length :: stack) output
  | .comma :: rest, stack, output =>
    match popGroup? stack output with
    | none => .error (.unbalancedGrouping expression)
    | some g => polishFrom expression rest (.group (g.commas + 1) g.mark :: g.outside) g.output
  | .function f :: _, _, _ => .error (.malformedExpression expression (.mustBeCalled f.name))
  | .opening :: rest, stack, output =>
    match popGroup? stack output with
    | none => .error (.unbalancedGrouping expression)
    | some g =>
      match rest with
      | .function f :: rest =>
        if f.arity = g.argumentCount then polishFrom expression rest g.outside (.call f :: g.output)
        else .error (.functionArity f.name f.arity g.argumentCount)
      | rest =>
        if g.commas > 0 then .error (.malformedExpression expression .commaOutsideCall)
        else if g.isEmpty then .error (.malformedExpression expression .emptyParentheses)
        else polishFrom expression rest g.outside g.output

/-- The items of an expression in Polish order. -/
def polish (expression : String) (lexemes : List Lexeme) : Except Fault (List Item) :=
  polishFrom expression lexemes.reverse [] []

end Logo
