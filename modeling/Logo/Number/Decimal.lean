/-!
# Decimal numerals

A decimal numeral is a natural number scaled by a power of ten. This module reads numerals from
text, turns them into numbers and lays their digits out without an exponent.
-/

namespace Logo

/-- The numeral `digits · 10 ^ exponent`. -/
structure Decimal where
  digits : Nat
  exponent : Int
deriving DecidableEq, Repr

namespace Decimal

/-- The number nearest to a numeral. -/
def toFloat (d : Decimal) : Float :=
  match d.exponent with
  | .ofNat e => Float.ofScientific d.digits false e
  | .negSucc e => Float.ofScientific d.digits true (e + 1)

/-- The natural number that decimal digits spell, most significant first. -/
def natOfDigits (cs : List Char) : Nat :=
  cs.foldl (fun n c => 10 * n + (c.toNat - 48)) 0

/-- Reads at least one digit and nothing else. -/
def digits? (cs : List Char) : Option Nat :=
  if !cs.isEmpty && cs.all Char.isDigit then some (natOfDigits cs) else none

/-- Reads the rest of a numeral after its fraction: nothing, or a signed power of ten. -/
def exponent? : List Char → Option Int
  | [] => some 0
  | c :: rest =>
    if c = 'e' || c = 'E' then
      match rest with
      | '-' :: r => (digits? r).map fun n => -(n : Int)
      | '+' :: r => (digits? r).map fun n => (n : Int)
      | r => (digits? r).map fun n => (n : Int)
    else none

/-- Reads an unsigned numeral: digits with an optional point and an optional power of ten, at least
one digit standing before or after the point. -/
def ofText? (cs : List Char) : Option Decimal :=
  let whole := cs.takeWhile Char.isDigit
  let afterWhole := cs.dropWhile Char.isDigit
  let pointed := match afterWhole with
    | '.' :: r => r
    | _ => []
  let fraction := pointed.takeWhile Char.isDigit
  let rest := match afterWhole with
    | '.' :: r => r.dropWhile Char.isDigit
    | r => r
  if whole.isEmpty && fraction.isEmpty then none
  else (exponent? rest).map fun e => ⟨natOfDigits (whole ++ fraction), e - fraction.length⟩

/-- Writes a numeral in full, without an exponent: zeros are filled in up to the point, and a point
at the very left has a zero before it. -/
def positional (d : Decimal) : List Char :=
  let digits := Nat.toDigits 10 d.digits
  match d.exponent with
  | .ofNat e => digits ++ List.replicate e '0'
  | .negSucc e =>
    let places := e + 1
    if places < digits.length then
      digits.take (digits.length - places) ++ '.' :: digits.drop (digits.length - places)
    else '0' :: '.' :: (List.replicate (places - digits.length) '0' ++ digits)

end Decimal

end Logo
