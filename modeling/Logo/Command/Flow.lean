import Logo.Interpreter.Command

/-!
# Branches and loops

`if` runs the block of the first condition that holds. `while`, `repeat` and `each` run a block
again and again, each time in a new frame, until they are done or the block leaves the procedure.
-/

namespace Logo

/-- A block of an `if` with its condition; the block of an `else` has none. -/
structure Branch where
  condition : Option Actual
  body : Code

namespace Branch

/-- Reads the branches after the first one, from the argument at `index` on. -/
def readFrom (index : Nat) : List Actual → Except Fault (List Branch)
  | [] => .ok []
  | .word "elif" :: condition :: body :: rest =>
    match body.code? with
    | some body => (readFrom (index + 3) rest).map ({ condition := some condition, body } :: ·)
    | none => .error (.malformedBranch (.expectedCode (index + 3)))
  | [.word "else", body] =>
    match body.code? with
    | some body => .ok [{ condition := none, body }]
    | none => .error (.malformedBranch (.expectedCode (index + 2)))
  | .word keyword :: _ =>
    if keyword = "elif" || keyword = "else" then
      .error (.malformedBranch (.keywordArguments keyword))
    else .error (.malformedBranch (.expectedKeyword (index + 1)))
  | .value _ :: _ => .error (.malformedBranch (.expectedKeyword (index + 1)))

/-- Reads all branches of an `if`: a condition and a block, then any number of further ones behind
`elif`, and perhaps a last block behind `else`. -/
def read (arguments : List Actual) : Except Fault (List Branch) :=
  match arguments with
  | [] => .error (.malformedBranch .missingCondition)
  | condition :: rest =>
    match Actual.codeAt arguments 1 with
    | .error f => .error f
    | .ok body => (readFrom 2 (rest.drop 1)).map ({ condition := some condition, body } :: ·)

end Branch

variable {σ : Type}

/-- Whether a condition holds. A word is an expression, and code is run. -/
def holds (runner : Runner σ) (frame : FrameId) : Actual → Action σ Bool
  | .word text => do
    let store ← Action.store
    return (← Action.ofEval (evaluate runner.effort (store.environment frame) text)).truthy
  | .value (.code code) => do return (← runner.invoke code none false).truthy
  | .value v => return v.truthy

/-- Runs the block of the first branch whose condition holds. -/
def runBranches (runner : Runner σ) (frame : FrameId) : List Branch → Action σ Flow
  | [] => proceed
  | branch :: rest => do
    let taken ← match branch.condition with
      | some condition => holds runner frame condition
      | none => pure true
    if taken then runner.invoke branch.body none false else runBranches runner frame rest

/-- Runs a block as long as a condition has a true value, for at most `rounds` rounds. -/
def whileLoop (condition body : Action σ Flow) : (rounds : Nat) → Action σ Flow
  | 0 => Action.exhausted
  | rounds + 1 => do
    let flow ← condition
    if flow.isLeave then return flow
    else if flow.truthy then
      let flow ← body
      if flow.isLeave then return flow else whileLoop condition body rounds
    else proceed

/-- Runs a block for each number from `counter` on that is below `limit`, one apart. -/
def countLoop (limit : Float) (body : Float → Action σ Flow) :
    (rounds : Nat) → (counter : Float) → Action σ Flow
  | 0, _ => Action.exhausted
  | rounds + 1, counter =>
    if counter < limit then do
      let flow ← body counter
      if flow.isLeave then return flow else countLoop limit body rounds (counter + 1.0)
    else proceed

/-- Runs a block for each of some values, in order. -/
def eachLoop (body : Value → Action σ Flow) : List Value → Action σ Flow
  | [] => proceed
  | v :: rest => do
    let flow ← body v
    if flow.isLeave then return flow else eachLoop body rest

namespace Command

/-- A condition, a keyword or a block. Conditions stay unevaluated until their turn comes. -/
def branchPart : Categories := { word := true, expression := true, code := true }

/-- Runs the block of the first condition that holds, or the one behind `else`. -/
def ifElse : Command σ where
  name := "if"
  signature := .variadic [] [] branchPart ⟨2, none⟩
  handler := .control fun runner frame arguments =>
    match Branch.read arguments with
    | .error f => Action.fail f
    | .ok branches => runBranches runner frame branches

/-- A keyword that stands where no `if` goes on. -/
def stray (keyword : String) : Command σ where
  name := keyword
  signature := .variadic [] [] branchPart ⟨0, none⟩
  handler := .simple fun _ _ _ => Action.fail (.malformedBranch .strayKeyword)

/-- Runs a block as long as another one has a true value. -/
def whileTrue : Command σ where
  name := "while"
  signature := .fixed [{ code := true }, { code := true }]
  handler := .control fun runner _ arguments =>
    match Actual.codeAt arguments 0, Actual.codeAt arguments 1 with
    | .ok condition, .ok body =>
      whileLoop (runner.invoke condition none false) (runner.invoke body none false) runner.effort
    | .error f, _ | _, .error f => Action.fail f

/-- The arguments of a loop: perhaps a name, what is run over, and a block. -/
def loopSignature (subject : Categories) : Signature :=
  .variadic [{ word := true }] [subject ∪ { reference := true }, { code := true }] .none
    ⟨2, some 3⟩

/-- Splits the arguments of a loop into its name, which may be left out, and the rest. -/
def loopName (default : String) (arguments : List Actual) : String × List Actual :=
  if arguments.length = 3 then (Actual.wordAt arguments 0, arguments.drop 1)
  else (default, arguments)

/-- Runs a block a number of times, with a counter from zero. -/
def repeatTimes : Command σ where
  name := "repeat"
  aliases := ["rep"]
  signature := loopSignature { numeric := true }
  handler := .control fun runner _ arguments =>
    let (name, rest) := loopName runner.settings.loopVariable arguments
    match Actual.codeAt arguments (arguments.length - 1) with
    | .error f => Action.fail f
    | .ok body =>
      countLoop (Number.floor (Actual.numberAt rest 0))
        (fun counter => runner.invoke body (some [(name, .number counter)]) false)
        runner.effort 0.0

/-- What `each` runs over: the items of an array or the names of an object's fields. -/
def eachItems (data : Option Actual) : Except Fault (List Value) :=
  match data with
  | some (.value (.array items)) => .ok items
  | some (.value (.object fields)) => .ok (fields.map fun (name, _) => .ofText name)
  | some other => .error (.typeMismatch "each" .arrayOrObject other.finding)
  | none => .error (.typeMismatch "each" .arrayOrObject .nothing)

/-- Runs a block for each item of an array or name of a field. -/
def eachItem : Command σ where
  name := "each"
  signature := loopSignature { array := true }
  handler := .control fun runner _ arguments =>
    let (name, rest) := loopName runner.settings.eachVariable arguments
    match Actual.codeAt arguments (arguments.length - 1) with
    | .error f => Action.fail f
    | .ok body =>
      match eachItems rest.head? with
      | .error f => Action.fail f
      | .ok items => eachLoop (fun v => runner.invoke body (some [(name, v)]) false) items

end Command

end Logo
