/-!
# Operators

Binary operators group from the left, each with its precedence. The signs and the negation stand
before their operand and bind tighter than every binary operator.
-/

namespace Logo

/-- The operators between two operands. -/
inductive BinaryOp where
  | range
  | or
  | and
  | equal
  | less
  | greater
  | add
  | subtract
  | multiply
  | divide
  | remainder
deriving DecidableEq, Repr

/-- The operators before one operand. -/
inductive UnaryOp where
  | not
  | plus
  | negate
deriving DecidableEq, Repr

namespace BinaryOp

/-- The character that an operator is written with. -/
def symbol : BinaryOp → Char
  | range => ':'
  | or => '|'
  | and => '&'
  | equal => '='
  | less => '<'
  | greater => '>'
  | add => '+'
  | subtract => '-'
  | multiply => '*'
  | divide => '/'
  | remainder => '%'

/-- How tightly an operator binds. -/
def precedence : BinaryOp → Nat
  | range => 1
  | or => 2
  | and => 3
  | equal | less | greater => 4
  | add | subtract => 5
  | multiply | divide | remainder => 6

/-- All binary operators. -/
def all : List BinaryOp :=
  [range, or, and, equal, less, greater, add, subtract, multiply, divide, remainder]

/-- The binary operator that a character writes. -/
def ofChar? (c : Char) : Option BinaryOp := all.find? (·.symbol = c)

end BinaryOp

namespace UnaryOp

/-- The character that an operator is written with. -/
def symbol : UnaryOp → Char
  | not => '!'
  | plus => '+'
  | negate => '-'

/-- How tightly every unary operator binds. -/
def precedence : Nat := 7

/-- All unary operators. -/
def all : List UnaryOp := [not, plus, negate]

/-- The unary operator that a character writes. -/
def ofChar? (c : Char) : Option UnaryOp := all.find? (·.symbol = c)

end UnaryOp

/-- Whether a character writes an operator. -/
def isOperator (c : Char) : Bool := (BinaryOp.ofChar? c).isSome || (UnaryOp.ofChar? c).isSome

end Logo
