import Logo.Number.Decimal

/-!
# The parts of a number

A finite number is a signed mantissa scaled by a power of two. Exact results that core gives only
at run time (floor, ceiling, rounding to a whole number, remainder) are computed here from these
parts, in natural-number arithmetic.
-/

namespace Logo

/-- A finite number `± mantissa · 2 ^ exponent`. -/
structure Binary where
  negative : Bool
  mantissa : Nat
  exponent : Int
deriving DecidableEq, Repr

namespace Binary

/-- The parts of a finite number. -/
def ofFloat (x : Float) : Binary :=
  let bits := x.toBits.toNat
  let field : Nat := bits / Nat.pow 2 52 % 2048
  let fraction : Nat := bits % Nat.pow 2 52
  let negative := bits / Nat.pow 2 63 = 1
  if field = 0 then ⟨negative, fraction, -1074⟩
  else ⟨negative, fraction + Nat.pow 2 52, (field : Int) - 1075⟩

/-- The exact decimal numeral of the magnitude. -/
def toDecimal (b : Binary) : Decimal :=
  match b.exponent with
  | .ofNat e => ⟨b.mantissa * Nat.pow 2 e, 0⟩
  | .negSucc e => ⟨b.mantissa * Nat.pow 5 (e + 1), .negSucc e⟩

/-- The number with the sign of `b` and the given magnitude. -/
def signed (b : Binary) (magnitude : Float) : Float :=
  if b.negative then -magnitude else magnitude

/-- The number that the parts make up. -/
def toFloat (b : Binary) : Float := b.signed b.toDecimal.toFloat

end Binary

namespace Number

/-- Brings a number to a whole one: `pick` gets the parts, and the mantissa divided by the power of
two below the point, quotient and remainder with the divisor, and gives the new magnitude. Whole
and non-finite numbers stay as they are. -/
def toWhole (pick : Binary → Nat → Nat → Nat → Nat) (x : Float) : Float :=
  if x.isFinite then
    let b := Binary.ofFloat x
    match b.exponent with
    | .ofNat _ => x
    | .negSucc e =>
      let unit := Nat.pow 2 (e + 1)
      let rest := b.mantissa % unit
      if rest = 0 then x else b.signed (Float.ofNat (pick b (b.mantissa / unit) rest unit))
  else x

/-- The greatest whole number that is not above `x`. -/
def floor : Float → Float :=
  toWhole fun b whole _ _ => if b.negative then whole + 1 else whole

/-- The least whole number that is not below `x`. -/
def ceil : Float → Float :=
  toWhole fun b whole _ _ => if b.negative then whole else whole + 1

/-- The whole number nearest to `x`, a half going away from zero. -/
def round : Float → Float :=
  toWhole fun _ whole rest unit => if 2 * rest < unit then whole else whole + 1

/-- The exact remainder of `x` by a non-zero `y`, with the sign of `x`. -/
def remainder (x y : Float) : Float :=
  if x.isFinite && !y.isNaN then
    if y.isFinite then
      let a := Binary.ofFloat x
      let b := Binary.ofFloat y
      let e := min a.exponent b.exponent
      let dividend := a.mantissa * Nat.pow 2 (a.exponent - e).toNat
      let divisor := b.mantissa * Nat.pow 2 (b.exponent - e).toNat
      Binary.toFloat ⟨a.negative, dividend % divisor, e⟩
    else x
  else 0.0 / 0.0

/-- The smaller of two numbers. A number that is not a number gives way to the other, and of two
equal ones the first is taken. -/
def least (x y : Float) : Float := if x.isNaN then y else if y < x then y else x

/-- The greater of two numbers, chosen like `least`. -/
def greatest (x y : Float) : Float := if x.isNaN then y else if x < y then y else x

/-- The sign of a number as a number: zero for both zeros, and no number for no number. -/
def sign (x : Float) : Float :=
  if x == 0.0 then 0.0 else if x < 0.0 then -1.0 else if x > 0.0 then 1.0 else x

/-- The circle constant. -/
def pi : Float := 3.141592653589793

/-- An angle in degrees, in radians. -/
def radians (degrees : Float) : Float := degrees * (pi / 180.0)

/-- An angle in radians, in degrees. -/
def degrees (radians : Float) : Float := radians * (180.0 / pi)

/-- The natural number that `x` is, for `x` below `2 ^ 64`. -/
def toNat? (x : Float) : Option Nat :=
  let n := x.toUInt64
  if n.toFloat == x then some n.toNat else none

end Number

end Logo
