/-!
# Functions of expressions

Every function has a name and takes a fixed number of operands.
-/

namespace Logo

/-- The functions that an expression can call. -/
inductive Function where
  | abs
  | sqrt
  | pow
  | vecsize
  | length
  | round
  | floor
  | ceil
  | interpolate
  | tostring
  | tonumber
  | min
  | max
  | sin
  | cos
  | tan
  | atan2
  | sign
  | keys
deriving DecidableEq, Repr

namespace Function

/-- The name that a function is called by. -/
def name : Function → String
  | abs => "abs"
  | sqrt => "sqrt"
  | pow => "pow"
  | vecsize => "vecsize"
  | length => "length"
  | round => "round"
  | floor => "floor"
  | ceil => "ceil"
  | interpolate => "interpolate"
  | tostring => "tostring"
  | tonumber => "tonumber"
  | min => "min"
  | max => "max"
  | sin => "sin"
  | cos => "cos"
  | tan => "tan"
  | atan2 => "atan2"
  | sign => "sign"
  | keys => "keys"

/-- How many operands a function takes. -/
def arity : Function → Nat
  | pow | min | max | atan2 => 2
  | interpolate => 3
  | _ => 1

/-- All functions, in the order in which they are listed. -/
def all : List Function :=
  [abs, sqrt, pow, vecsize, length, round, floor, ceil, interpolate, tostring, tonumber, min, max,
    sin, cos, tan, atan2, sign, keys]

/-- The function of a name. -/
def ofName? (name : String) : Option Function := all.find? (·.name = name)

end Function

end Logo
