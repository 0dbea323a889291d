import Logo.Number.Binary

/-!
# The text of a number

A number is written with the fewest decimal digits that read back as the same number, without an
exponent and without a point where there is no fraction. Reading also takes a sign, a power of ten
and the words for the infinities and for no number.
-/

namespace Logo.Number

/-- The numeral on the grid of multiples of `10 ^ power` that lies nearest to `b` and reads back as
`x`, if there is one among the two neighbours of `b` on that grid. A tie goes to the greater. -/
def onGrid? (b : Binary) (x : Float) (power : Int) : Option Decimal :=
  let num := b.mantissa * Nat.pow 2 b.exponent.toNat * Nat.pow 10 (-power).toNat
  let den := Nat.pow 2 (-b.exponent).toNat * Nat.pow 10 power.toNat
  let below : Decimal := ⟨num / den, power⟩
  let above : Decimal := ⟨num / den + 1, power⟩
  let nearer := if 2 * (num % den) < den then [below, above] else [above, below]
  nearer.find? fun d => decide (d.toFloat = x)

/-- The shortest numeral that reads back as the positive number `x` with parts `b`: the one on the
coarsest grid that has one. The search starts at a power of ten above `x`, and twenty grids reach
past the seventeen digits that always suffice. -/
def shortest (b : Binary) (x : Float) : Decimal :=
  let top := (b.mantissa.log2 + b.exponent + 1) * 30103 / 100000 + 1
  ((List.range 20).findSome? fun (k : Nat) => onGrid? b x (top - k)).getD b.toDecimal

/-- The text of a number of which the sign is already written. -/
def magnitudeText (x : Float) : List Char :=
  if x == 0.0 then ['0'] else (shortest (Binary.ofFloat x) x).positional

/-- The text of a number. -/
def text (x : Float) : String :=
  if x.isNaN then "NaN"
  else if x.isInf then (if x < 0.0 then "-inf" else "inf")
  else if (Binary.ofFloat x).negative then String.ofList ('-' :: magnitudeText (-x))
  else String.ofList (magnitudeText x)

/-- Reads an unsigned number: a numeral, or a word for an infinity or for no number in any case. -/
def ofUnsigned? (cs : List Char) : Option Float :=
  let lower := cs.map Char.toLower
  if lower = "inf".toList || lower = "infinity".toList then some (1.0 / 0.0)
  else if lower = "nan".toList then some (0.0 / 0.0)
  else (Decimal.ofText? cs).map Decimal.toFloat

/-- Reads a number with an optional sign. -/
def ofText? : List Char → Option Float
  | '-' :: rest => (ofUnsigned? rest).map fun x => -x
  | '+' :: rest => ofUnsigned? rest
  | cs => ofUnsigned? cs

end Logo.Number
