/-!
# Argument categories

A command says, for each position, which categories of argument it takes there. A set of
categories is a record of flags, so that two sets are equal exactly when they permit the same.
-/

namespace Logo

/-- A set of argument categories. -/
structure Categories where
  /-- A plain word, kept as text. -/
  word : Bool := false
  /-- An expression with a numeric value. -/
  numeric : Bool := false
  /-- An expression with an array or object as its value. -/
  array : Bool := false
  /-- A block, or a variable that holds code. -/
  code : Bool := false
  /-- A variable, replaced by its value. -/
  reference : Bool := false
  /-- An expression that the command itself evaluates later. -/
  expression : Bool := false
deriving DecidableEq, Repr

namespace Categories

/-- No category. -/
def none : Categories := {}

/-- What is in either set. -/
def union (a b : Categories) : Categories where
  word := a.word || b.word
  numeric := a.numeric || b.numeric
  array := a.array || b.array
  code := a.code || b.code
  reference := a.reference || b.reference
  expression := a.expression || b.expression

instance : Union Categories := ⟨union⟩

/-- Whatever has a value. -/
def value : Categories := { numeric := true, array := true, code := true, reference := true }

/-- The names of the categories in a set, in a fixed order. -/
def names (c : Categories) : List String :=
  [(c.word, "word"), (c.numeric, "numeric"), (c.array, "array"), (c.code, "code"),
    (c.reference, "variable"), (c.expression, "expression")].filterMap
      fun (permitted, name) => if permitted then some name else Option.none

/-- The names as one phrase: `word`, `word or code`, `word, numeric or code`. -/
def text (c : Categories) : String :=
  match c.names.reverse with
  | [] => "nothing"
  | [last] => last
  | last :: others => ", ".intercalate others.reverse ++ " or " ++ last

end Categories

end Logo
