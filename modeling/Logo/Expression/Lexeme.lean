import Logo.Expression.Function
import Logo.Expression.Operator
import Logo.Fault
import Logo.Text.Word

/-!
# From atoms to lexemes

Each atom of an expression gets its part in it. An operator character is binary after a value and
unary elsewhere, and an identifier right before an opening parenthesis is a function.
-/

namespace Logo

/-- An atom with its part in an expression. -/
inductive Lexeme where
  | operand (atom : String)
  | function (f : Function)
  | unary (op : UnaryOp)
  | binary (op : BinaryOp)
  | opening
  | closing
  | comma
deriving DecidableEq, Repr

namespace Lexeme

/-- Whether a value ends with a lexeme, so that an operator after it is binary. -/
def endsValue : Lexeme → Bool
  | operand _ | closing => true
  | _ => false

/-- Whether a value can start with a lexeme. -/
def startsValue : Lexeme → Bool
  | operand _ | function _ | unary _ | opening => true
  | _ => false

/-- The lexeme of an operator character. -/
def ofOperator (expression : String) (afterValue : Bool) (c : Char) : Except Fault Lexeme :=
  if afterValue then
    match BinaryOp.ofChar? c with
    | some op => .ok (binary op)
    | none => .error (.malformedExpression expression (.cannotFollowValue c))
  else
    match UnaryOp.ofChar? c with
    | some op => .ok (unary op)
    | none => .error (.malformedExpression expression (.missingLeftOperand c))

/-- The lexeme of an atom that is not punctuation. -/
def ofWord (atom : String) (next : Option String) : Except Fault Lexeme :=
  if next = some "(" && isIdentifier atom then
    match Function.ofName? atom with
    | some f => .ok (function f)
    | none => .error (.unknownFunction atom)
  else .ok (operand atom)

/-- The lexeme of an atom, given whether it follows a value and which atom is next. -/
def ofAtom (expression : String) (afterValue : Bool) (atom : String) (next : Option String) :
    Except Fault Lexeme :=
  match atom.toList with
  | [c] =>
    if c = '(' then .ok opening
    else if c = ')' then .ok closing
    else if c = ',' then .ok comma
    else if isOperator c then ofOperator expression afterValue c
    else ofWord atom next
  | _ => ofWord atom next

end Lexeme

/-- The lexemes of the rest of an expression; two values must have an operator between them. -/
def classifyFrom (expression : String) : Bool → List String → Except Fault (List Lexeme)
  | _, [] => .ok []
  | afterValue, atom :: rest =>
    match Lexeme.ofAtom expression afterValue atom rest.head? with
    | .error fault => .error fault
    | .ok lexeme =>
      if afterValue && lexeme.startsValue then
        .error (.malformedExpression expression (.missingOperatorBefore atom))
      else (classifyFrom expression lexeme.endsValue rest).map (lexeme :: ·)

/-- The lexemes of an expression. -/
def classify (expression : String) (atoms : List String) : Except Fault (List Lexeme) :=
  classifyFrom expression false atoms

end Logo
