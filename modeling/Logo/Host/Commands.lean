import Logo.Interpreter.Command

/-!
# Commands of a host

A host can add commands of its own to those of the language: here a simple one that has a value, and
a control command that runs a block twice.
-/

namespace Logo.Command

variable {σ : Type}

/-- Sends a size with the depth of nested blocks; its value is twice the size. -/
def stampAs (name : String) (aliases : List String) : Command σ where
  name
  aliases
  signature := .fixed [{ numeric := true }]
  handler := .simple fun _ _ arguments => do
    let size := Actual.numberAt arguments 0
    let depth := (← get).depth
    Action.publish ⟨"turtle.stamp",
      .record [("size", .ofFloat size), ("depth", .ofFloat (Float.ofNat depth))]⟩
    return .next (some (.number (size * 2.0)))

/-- The stamp command under its own names. -/
def stamp : Command σ := stampAs "stamp" ["st"]

/-- The stamp command under the names of two commands of the language. -/
def stampOver : Command σ := stampAs "f" ["print"]

/-- Runs a block twice, with `turn` bound to zero and then to one. -/
def twice : Command σ where
  name := "twice"
  signature := .fixed [{ code := true }]
  handler := .control fun runner _ arguments =>
    match Actual.codeAt arguments 0 with
    | .error f => Action.fail f
    | .ok body => do
      let flow ← runner.invoke body (some [("turn", .number 0.0)]) false
      if flow.isLeave then return flow
      else runner.invoke body (some [("turn", .number 1.0)]) false

end Logo.Command
