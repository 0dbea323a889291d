import Logo.Argument.Category
import Logo.Number.Text
import Logo.Value.Basic

/-!
# Faults

Everything that can go wrong has one constructor of `Fault`, which holds the facts of the case. The
wording is in `Fault.message` alone. A `Failure` is a fault with the line of the statement that
it arose in, once that is known.

Evaluating a text can go on for ever: a variable may hold text that is spliced into the very path
that reads it. An evaluation therefore gets a bound on its nesting and has three outcomes: a
value, a fault, or nothing when the bound is reached.
-/

namespace Logo

/-- Why an expression is malformed. -/
inductive ExpressionFlaw where
  | unterminatedString
  | emptyCharacter
  | unclosedName
  | unknownEscape (c : Char)
  | danglingEscape
  | cannotFollowValue (operator : Char)
  | missingLeftOperand (operator : Char)
  | missingOperatorBefore (atom : String)
  | commaOutsideCall
  | emptyParentheses
  | mustBeCalled (function : String)
  | textAfter (atom : String)
  | notANumber (atom : String)
  | unexpected (atom : String)
  | emptyElement (literal : String)
  | missingOperandOf (instruction : String)
  | emptyExpression
  | missingOperator
  | missingOperand
deriving DecidableEq, Repr

/-- The wording of an expression flaw. -/
def ExpressionFlaw.message : ExpressionFlaw → String
  | unterminatedString => "unterminated string"
  | emptyCharacter => "empty character literal"
  | unclosedName => "unclosed `<name>`"
  | unknownEscape c => "unknown escape `\\" ++ c.toString ++ "`"
  | danglingEscape => "dangling `\\`"
  | cannotFollowValue c => "`" ++ c.toString ++ "` cannot follow a value"
  | missingLeftOperand c => "`" ++ c.toString ++ "` is missing its left operand"
  | missingOperatorBefore atom => "missing operator before `" ++ atom ++ "`"
  | commaOutsideCall => "`,` outside a function call"
  | emptyParentheses => "empty parentheses"
  | mustBeCalled name => "`" ++ name ++ "` must be called"
  | textAfter atom => "unexpected text after `" ++ atom ++ "`"
  | notANumber atom => "`" ++ atom ++ "` is not a number"
  | unexpected atom => "unexpected `" ++ atom ++ "`"
  | emptyElement literal => "empty element in `" ++ literal ++ "`"
  | missingOperandOf instruction => "`" ++ instruction ++ "` is missing an operand"
  | emptyExpression => "empty expression"
  | missingOperator => "missing operator"
  | missingOperand => "missing operand"

/-- Why a path is invalid. -/
inductive PathFlaw where
  | unclosedName
  | expectedName
  | notText (name : String)
  | expectedVariable
  | expectedField
  | unclosedIndex
  | unexpected (c : Char)
  | indexAboveLimit (x : Float)
  | indexNotNatural (x : Float)
  | cannotIndexWith (kind : Kind)
  | outOfRange (i length : Nat)
  | cannotApply (accessor : Accessor) (kind : Kind)
  | growthAboveLimit (i : Nat)
deriving DecidableEq

/-- The wording of a path flaw. -/
def PathFlaw.message : PathFlaw → String
  | unclosedName => "unclosed `<name>`"
  | expectedName => "expected `<name>`"
  | notText name => "`" ++ name ++ "` does not hold text"
  | expectedVariable => "expected a variable name"
  | expectedField => "expected a field name after `.`"
  | unclosedIndex => "unclosed `[`"
  | unexpected c => "unexpected `" ++ c.toString ++ "`"
  | indexAboveLimit x =>
    "index " ++ Number.text x ++ " exceeds the limit of " ++ toString maxIndex
  | indexNotNatural x => "index " ++ Number.text x ++ " is not a non-negative integer"
  | cannotIndexWith kind => "cannot index with " ++ kind.name
  | outOfRange i length =>
    "index " ++ toString i ++ " out of range for length " ++ toString length
  | cannotApply accessor kind => "cannot apply `" ++ accessor.text ++ "` to " ++ kind.name
  | growthAboveLimit i =>
    "index " ++ toString i ++ " exceeds the limit of " ++ toString maxIndex

/-- Why a chain of branches is malformed. -/
inductive BranchFlaw where
  | missingCondition
  | expectedCode (argument : Nat)
  | keywordArguments (keyword : String)
  | expectedKeyword (argument : Nat)
  | strayKeyword
deriving DecidableEq, Repr

/-- The wording of a branch flaw. -/
def BranchFlaw.message : BranchFlaw → String
  | missingCondition => "`if` needs a condition and a block"
  | expectedCode argument => "expected a code block at argument " ++ toString argument
  | keywordArguments keyword => "`" ++ keyword ++ "` is not followed by the expected arguments"
  | expectedKeyword argument => "expected `elif` or `else` at argument " ++ toString argument
  | strayKeyword => "`elif`/`else` must continue an `if` on the same line"

/-- What an operator, function or command expects of its operands. -/
inductive Expectation where
  | aNumber
  | twoNumbers
  | twoNumbersOrArrays
  | numberArray
  | arrayOrObject
  | anObject
  | numericText
  | arraysOfLength (n : Nat)
  | boundsWithin (limit : Nat)
deriving DecidableEq, Repr

/-- The wording of an expectation. -/
def Expectation.message : Expectation → String
  | aNumber => "a number"
  | twoNumbers => "two numbers"
  | twoNumbersOrArrays => "two numbers or two arrays"
  | numberArray => "an array of numbers"
  | arrayOrObject => "an array or object"
  | anObject => "an object"
  | numericText => "numeric text"
  | arraysOfLength n => "arrays of equal length (" ++ toString n ++ ")"
  | boundsWithin limit => "finite bounds at most " ++ toString limit ++ " apart"

/-- What was found in place of what was expected. -/
inductive Finding where
  | nothing
  | word
  | kind (k : Kind)
  | kinds (left right : Kind)
  | length (n : Nat)
  | text (s : String)
  | bounds (first last : Float)
deriving DecidableEq

/-- The wording of a finding. -/
def Finding.message : Finding → String
  | nothing => "nothing"
  | word => "word"
  | kind k => k.name
  | kinds left right => left.name ++ " and " ++ right.name
  | length n => "length " ++ toString n
  | text s => "\"" ++ s ++ "\""
  | bounds first last => Number.text first ++ ":" ++ Number.text last

/-- How many arguments a command takes: at least `least`, and at most `most` if there is a bound. -/
structure ArgumentBounds where
  least : Nat
  most : Option Nat
deriving DecidableEq, Repr

/-- The wording of argument bounds. -/
def ArgumentBounds.message (b : ArgumentBounds) : String :=
  match b.most with
  | some most =>
    if most = b.least then toString b.least else toString b.least ++ " to " ++ toString most
  | none => "at least " ++ toString b.least

/-- What can stand where an argument of another category is required. -/
inductive Unfit where
  | block
  | text (s : String)
  | value (s : String) (kind : Kind)
deriving DecidableEq, Repr

/-- The wording of an unfit argument. -/
def Unfit.message : Unfit → String
  | block => "a code block"
  | text s => "`" ++ s ++ "`"
  | value s kind => "`" ++ s ++ "` (" ++ kind.name ++ ")"

/-- What went wrong. -/
inductive Fault where
  | unclosedBracket (bracket : Char) (pos : Position)
  | excessBracket (bracket : Char) (pos : Position)
  | unterminatedString (pos : Position)
  | malformedBinding (found : String) (pos : Position)
  | unmatchedBlock (pos : Position)
  | typeMismatch (operation : String) (expected : Expectation) (found : Finding)
  | unbalancedGrouping (expression : String)
  | malformedExpression (expression : String) (flaw : ExpressionFlaw)
  | unknownFunction (name : String)
  | functionArity (name : String) (expected got : Nat)
  | divisionByZero
  | mixedLiteral (literal : String)
  | missingVariable (name : String)
  | readOnlyVariable (name : String)
  | invalidPath (path : String) (flaw : PathFlaw)
  | argumentCount (command : String) (expected : ArgumentBounds) (got : Nat)
  | argumentCategory (command : String) (index : Nat) (permitted : Categories) (found : Unfit)
  | malformedBranch (flaw : BranchFlaw)
  | depthLimit (limit : Nat)
  | unknownCommand (label : String)
  | missingValue (command : String)
  | expiredScope
  | host (message : String)
  | invalidSettings (message : String)
deriving DecidableEq

namespace Fault

/-- The stage of work that a fault belongs to. -/
inductive Stage where
  | lexical
  | parse
  | expression
  | reference
  | argument
  | controlFlow
  | host
  | settings
deriving DecidableEq, Repr

/-- A place, as messages end with it. -/
private def place (pos : Position) : String :=
  " at line " ++ toString pos.line ++ ", char " ++ toString pos.column

/-- The wording of a fault. -/
def message : Fault → String
  | unclosedBracket bracket pos => "Unclosed `" ++ bracket.toString ++ "`" ++ place pos
  | excessBracket bracket pos => "Excess `" ++ bracket.toString ++ "`" ++ place pos
  | unterminatedString pos => "Unterminated string literal starting" ++ place pos
  | malformedBinding found pos => "Malformed return binding near `" ++ found ++ "`" ++ place pos
  | unmatchedBlock pos => "Unmatched block delimiter" ++ place pos
  | typeMismatch operation expected found =>
    "Operator `" ++ operation ++ "` expects " ++ expected.message ++ ", found " ++ found.message
  | unbalancedGrouping expression => "Unbalanced grouping in `" ++ expression ++ "`"
  | malformedExpression expression flaw =>
    "Malformed expression `" ++ expression ++ "`: " ++ flaw.message
  | unknownFunction name => "Unknown function `" ++ name ++ "`"
  | functionArity name expected got =>
    "Function `" ++ name ++ "` expects " ++ toString expected ++ " argument(s), got " ++
      toString got
  | divisionByZero => "Division by zero"
  | mixedLiteral literal =>
    "Literal `" ++ literal ++ "` mixes `key: value` entries with bare elements"
  | missingVariable name => "Variable `" ++ name ++ "` does not exist"
  | readOnlyVariable name => "Variable `" ++ name ++ "` is a read-only parameter"
  | invalidPath path flaw => "Invalid path `" ++ path ++ "`: " ++ flaw.message
  | argumentCount command expected got =>
    "`" ++ command ++ "` expects " ++ expected.message ++ " argument(s), got " ++ toString got
  | argumentCategory command index permitted found =>
    "Argument " ++ toString index ++ " of `" ++ command ++ "` must be " ++ permitted.text ++
      ", found " ++ found.message
  | malformedBranch flaw => "Malformed branch: " ++ flaw.message
  | depthLimit limit => "Nested invocation depth exceeded the limit of " ++ toString limit
  | unknownCommand label => "Unknown command `" ++ label ++ "`"
  | missingValue command => "`" ++ command ++ "` produced no value"
  | expiredScope => "Code block outlived the scope that defined it"
  | host message => "Aborted by host: " ++ message
  | invalidSettings message => "Invalid configuration: " ++ message

/-- The stage that a fault belongs to. -/
def stage : Fault → Stage
  | unclosedBracket .. | excessBracket .. | unterminatedString .. => .lexical
  | malformedBinding .. | unmatchedBlock .. => .parse
  | typeMismatch .. | unbalancedGrouping .. | malformedExpression .. | unknownFunction ..
  | functionArity .. | divisionByZero | mixedLiteral .. => .expression
  | missingVariable .. | readOnlyVariable .. | invalidPath .. => .reference
  | argumentCount .. | argumentCategory .. => .argument
  | malformedBranch .. | depthLimit .. | unknownCommand .. | missingValue .. | expiredScope =>
    .controlFlow
  | host .. => .host
  | invalidSettings .. => .settings

/-- The code under which a fault is documented. -/
def code : Fault → String
  | unclosedBracket .. => "lex::unclosed_bracket"
  | excessBracket .. => "lex::excess_bracket"
  | unterminatedString .. => "lex::unterminated_string"
  | malformedBinding .. => "parse::malformed_return_binding"
  | unmatchedBlock .. => "parse::unmatched_block"
  | typeMismatch .. => "expr::type_mismatch"
  | unbalancedGrouping .. => "expr::unbalanced_grouping"
  | malformedExpression .. => "expr::malformed"
  | unknownFunction .. => "expr::unknown_function"
  | functionArity .. => "expr::function_arity"
  | divisionByZero => "expr::division_by_zero"
  | mixedLiteral .. => "expr::mixed_literal"
  | missingVariable .. => "var::non_existing"
  | readOnlyVariable .. => "var::read_only"
  | invalidPath .. => "var::invalid_path"
  | argumentCount .. => "arg::count"
  | argumentCategory .. => "arg::category"
  | malformedBranch .. => "flow::malformed_branch"
  | depthLimit .. => "flow::recursion_limit"
  | unknownCommand .. => "flow::unknown_command"
  | missingValue .. => "flow::missing_value"
  | expiredScope => "flow::scope_expired"
  | host .. => "host::aborted"
  | invalidSettings .. => "config::invalid"

/-- Advice that goes with a fault. -/
def help? : Fault → Option String
  | unclosedBracket .. =>
    some "statement separators are not allowed inside `(...)` or `[...]`"
  | malformedBinding .. => some "write `name := command ...` or `new name := command ...`"
  | mixedLiteral .. =>
    some "a literal is either an array `[1, 2]` or an object `[a: 1, b: 2]`"
  | missingVariable .. => some "did you mean to declare this variable with `new`?"
  | depthLimit .. => some "raise `max_call_depth` in the interpreter configuration"
  | _ => none

end Fault

/-- A fault, with the line of the statement that it arose in. -/
structure Failure where
  fault : Fault
  line : Option Nat := none
deriving DecidableEq

namespace Failure

/-- Notes the line that a failure arose in, unless an inner statement has noted its own. -/
def atLine (f : Failure) (line : Nat) : Failure :=
  match f.line with
  | some _ => f
  | none => { f with line := some line }

/-- The wording of a failure, with its line if it has one. -/
def message (f : Failure) : String :=
  match f.line with
  | some line => "line " ++ toString line ++ ": " ++ f.fault.message
  | none => f.fault.message

end Failure

/-- An evaluation: a value or a fault, or nothing if it was given too little effort. -/
abbrev Eval (α : Type) : Type := ExceptT Fault Option α

namespace Eval

/-- The evaluation that ran out of effort. -/
def exhausted {α : Type} : Eval α := ExceptT.mk none

/-- The evaluation that is finished. -/
def ofExcept {α : Type} (r : Except Fault α) : Eval α := ExceptT.mk (some r)

end Eval

end Logo
