import Logo.Expression.Function
import Logo.Expression.Operator
import Logo.Fault
import Logo.Text.Word
import Logo.Value.Basic
import Logo.Value.Text

/-!
# Operators and functions on values
-/

namespace Logo

/-- The longest array that a range may give. -/
def maxRange : Nat := 1000000

/-- The numbers from `first`, one apart, up to but without `last`. -/
def rangeValue (first last : Float) : Except Fault Value :=
  let tooLong := Fault.typeMismatch ":" (.boundsWithin maxRange) (.bounds first last)
  if first.isFinite && last.isFinite then
    let count := Number.ceil (last - first)
    if count > Float.ofNat maxRange then .error tooLong
    else
      .ok (.array ((List.range count.toUInt64.toNat).map fun k => .number (first + Float.ofNat k)))
  else .error tooLong

namespace UnaryOp

/-- Applies a unary operator. -/
def apply (op : UnaryOp) (v : Value) : Except Fault Value :=
  match op, v with
  | not, v => .ok (.ofBool !v.truthy)
  | plus, .number x => .ok (.number x)
  | negate, .number x => .ok (.number (-x))
  | op, v => .error (.typeMismatch op.symbol.toString .aNumber (.kind v.kind))

end UnaryOp

namespace BinaryOp

/-- Applies a binary operator to two numbers, for the operators that take nothing else. -/
def applyNumbers (op : BinaryOp) (x y : Float) : Except Fault Value :=
  match op with
  | subtract => .ok (.number (x - y))
  | multiply => .ok (.number (x * y))
  | divide => if y == 0.0 then .error .divisionByZero else .ok (.number (x / y))
  | remainder =>
    if y == 0.0 then .error .divisionByZero else .ok (.number (Number.remainder x y))
  | less => .ok (.ofBool (x < y))
  | greater => .ok (.ofBool (x > y))
  | range => rangeValue x y
  | add => .ok (.number (x + y))
  | equal => .ok (.ofBool (x == y))
  | and => .ok (.ofBool (x != 0.0 && y != 0.0))
  | or => .ok (.ofBool (x != 0.0 || y != 0.0))

/-- Applies a binary operator. -/
def apply (op : BinaryOp) (a b : Value) : Except Fault Value :=
  match op with
  | equal => .ok (.ofBool (a.same b))
  | and => .ok (.ofBool (a.truthy && b.truthy))
  | or => .ok (.ofBool (a.truthy || b.truthy))
  | add =>
    match a, b with
    | .number x, .number y => .ok (.number (x + y))
    | .array xs, .array ys => .ok (.array (xs ++ ys))
    | a, b =>
      .error (.typeMismatch op.symbol.toString .twoNumbersOrArrays (.kinds a.kind b.kind))
  | op =>
    match a, b with
    | .number x, .number y => op.applyNumbers x y
    | a, b => .error (.typeMismatch op.symbol.toString .twoNumbers (.kinds a.kind b.kind))

end BinaryOp

namespace Function

/-- The operand of a function that must be a number. -/
def number (f : Function) (v : Value) : Except Fault Float :=
  match v with
  | .number x => .ok x
  | v => .error (.typeMismatch f.name .aNumber (.kind v.kind))

/-- The operand of a function that must be an array of numbers. -/
def numbers (f : Function) (v : Value) : Except Fault (List Float) :=
  match v.numbers? with
  | some xs => .ok xs
  | none => .error (.typeMismatch f.name .numberArray (.kind v.kind))

/-- Applies a function of one number. -/
def onNumber (f : Function) (g : Float → Float) (v : Value) : Except Fault Value := do
  return .number (g (← f.number v))

/-- Applies a function of two numbers. -/
def onNumbers (f : Function) (g : Float → Float → Float) (v w : Value) : Except Fault Value := do
  let x ← f.number v
  let y ← f.number w
  return .number (g x y)

/-- The length of a vector. -/
def norm (xs : List Float) : Float := (xs.foldl (fun sum x => sum + x * x) (-0.0)).sqrt

/-- The value `t` of the way from one number, or array of numbers, to another. -/
def interpolateValue (a b : Value) (t : Float) : Except Fault Value :=
  let between (x y : Float) : Float := x + (y - x) * t
  match a, b with
  | .number x, .number y => .ok (.number (between x y))
  | a, b => do
    let xs ← interpolate.numbers a
    let ys ← interpolate.numbers b
    if xs.length = ys.length then
      return .array ((xs.zip ys).map fun (x, y) => .number (between x y))
    else throw (.typeMismatch interpolate.name (.arraysOfLength xs.length) (.length ys.length))

/-- The text of a value, without quotes if it is a text. -/
def plainText (v : Value) : String := v.text?.getD v.text

/-- The number that a text spells, blanks around it apart. -/
def readNumber (v : Value) : Except Fault Value :=
  match v with
  | .number x => .ok (.number x)
  | v =>
    match v.text? with
    | none => .error (.typeMismatch tonumber.name .numericText (.kind v.kind))
    | some s =>
      match Number.ofText? (Text.trim s.toList) with
      | some x => .ok (.number x)
      | none => .error (.typeMismatch tonumber.name .numericText (.text s))

/-- Applies a function to its operands. -/
def apply (f : Function) (operands : List Value) : Except Fault Value :=
  match f, operands with
  | abs, [v] => abs.onNumber Float.abs v
  | sqrt, [v] => sqrt.onNumber Float.sqrt v
  | pow, [v, w] => pow.onNumbers Float.pow v w
  | vecsize, [v] => do return .number (norm (← vecsize.numbers v))
  | length, [.array items] => .ok (.number (Float.ofNat items.length))
  | length, [.object fields] => .ok (.number (Float.ofNat fields.length))
  | length, [v] => .error (.typeMismatch length.name .arrayOrObject (.kind v.kind))
  | round, [v] => round.onNumber Number.round v
  | floor, [v] => floor.onNumber Number.floor v
  | ceil, [v] => ceil.onNumber Number.ceil v
  | interpolate, [v, w, t] => do interpolateValue v w (← interpolate.number t)
  | tostring, [v] => .ok (.ofText (plainText v))
  | tonumber, [v] => readNumber v
  | min, [v, w] => min.onNumbers Number.least v w
  | max, [v, w] => max.onNumbers Number.greatest v w
  | sin, [v] => sin.onNumber (fun x => (Number.radians x).sin) v
  | cos, [v] => cos.onNumber (fun x => (Number.radians x).cos) v
  | tan, [v] => tan.onNumber (fun x => (Number.radians x).tan) v
  | atan2, [v, w] => atan2.onNumbers (fun y x => Number.degrees (Float.atan2 y x)) v w
  | sign, [v] => sign.onNumber Number.sign v
  | keys, [.object fields] => .ok (.array (fields.map fun (name, _) => .ofText name))
  | keys, [v] => .error (.typeMismatch keys.name .anObject (.kind v.kind))
  | f, _ => .error (.typeMismatch f.name .aNumber .nothing)

end Function

end Logo
