import Logo.Expression.Apply
import Logo.Expression.Instruction
import Logo.Path.Resolve

/-!
# Evaluation of expressions

An expression is compiled and its instructions are run from the last to the first. The elements of
literals and the indexes of paths are expressions of their own, evaluated with one unit of effort
less.
-/

namespace Logo

/-- Where the variables of an expression come from. -/
inductive Environment where
  /-- There are none, and a path is not even read. -/
  | constant
  /-- The values of the variables that exist. -/
  | names (find? : String → Option Value)

namespace Environment

/-- The value of a path; `evaluate` gives the values of index expressions. -/
def load (env : Environment) (evaluate : String → Eval Value) (path : String) : Eval Value :=
  match env with
  | constant => throw (.missingVariable path)
  | names find? => Path.get find? evaluate path

end Environment

namespace Instruction

/-- Runs one instruction on a stack of values, topmost first. An operator finds its left operand
on top. -/
def run (expression : String) (load evaluate : String → Eval Value) (stack : List Value)
    (i : Instruction) : Eval (List Value) :=
  let missing := Fault.malformedExpression expression .missingOperand
  match i with
  | .number x => return .number x :: stack
  | .text s => return .ofText s :: stack
  | .load path => do return (← load path) :: stack
  | .array elements => do return .array (← elements.mapM evaluate) :: stack
  | .object entries => do
    let fields ← entries.foldlM (fun fields (key, value) => do
      return putField fields key (← evaluate value)) []
    return .object fields :: stack
  | .unary op =>
    match stack with
    | v :: rest => do return (← op.apply v) :: rest
    | _ => throw missing
  | .binary op =>
    match stack with
    | left :: right :: rest => do return (← op.apply left right) :: rest
    | _ => throw missing
  | .call f =>
    if f.arity ≤ stack.length then do
      return (← f.apply (stack.take f.arity)) :: stack.drop f.arity
    else throw missing

/-- Runs instructions from the last to the first and gives the one value that is left. -/
def runAll (expression : String) (load evaluate : String → Eval Value)
    (instructions : List Instruction) : Eval Value := do
  match ← instructions.reverse.foldlM (run expression load evaluate) [] with
  | [v] => return v
  | [] => throw (.malformedExpression expression .missingOperand)
  | _ => throw (.malformedExpression expression .missingOperator)

end Instruction

/-- The value of an expression, with the nesting of expressions bounded by `effort`. -/
def evaluate : (effort : Nat) → Environment → String → Eval Value
  | 0, _, _ => Eval.exhausted
  | effort + 1, env, expression => do
    let instructions ← compile expression
    Instruction.runAll expression (env.load (evaluate effort env)) (evaluate effort env)
      instructions

end Logo
