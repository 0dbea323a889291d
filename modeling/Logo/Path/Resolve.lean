import Logo.Fault
import Logo.Path.Access
import Logo.Text.Literal
import Logo.Text.Word

/-!
# Paths

A path is written as the name of a variable followed by `.field` and `[index]` parts. Before it is
read, each `<name>` outside brackets is replaced by the text that the variable of that name holds.
The expression in an index is evaluated to a natural number or to the text of a field name.
-/

namespace Logo

/-- A path of which all indexes are evaluated. -/
structure Path where
  base : String
  accessors : List Accessor
deriving DecidableEq, Repr

namespace Path

/-- Replaces each `<name>` outside brackets: `depth` counts the open brackets, and `name?` holds the
characters read after a `<`, last first. -/
def expandFrom (path : String) (find? : String → Option Value) :
    Nat → Option (List Char) → List Char → Except Fault (List Char)
  | _, none, [] => .ok []
  | _, some _, [] => .error (.invalidPath path .unclosedName)
  | depth, some name, c :: rest =>
    if c = '>' then
      let name := String.ofList name.reverse
      if isIdentifier name then
        match find? name with
        | none => .error (.missingVariable name)
        | some v =>
          match v.text? with
          | none => .error (.invalidPath path (.notText name))
          | some s => (expandFrom path find? depth none rest).map (s.toList ++ ·)
      else .error (.invalidPath path .expectedName)
    else expandFrom path find? depth (some (c :: name)) rest
  | depth, none, c :: rest =>
    if c = '<' && depth = 0 then expandFrom path find? depth (some []) rest
    else
      let depth := if c = '[' then depth + 1 else if c = ']' then depth - 1 else depth
      (expandFrom path find? depth none rest).map (c :: ·)

/-- The text of a path with every `<name>` outside brackets replaced. -/
def expand (find? : String → Option Value) (path : String) : Except Fault (List Char) :=
  expandFrom path find? 0 none path.toList

/-- A part of a path after its variable, as written. -/
inductive Part where
  | field (name : String)
  | index (expression : String)
  /-- What cannot be read, and with it all that follows. -/
  | flawed (flaw : PathFlaw)
deriving DecidableEq

/-- The parts of a path after its variable. -/
def parts : List Char → List Part
  | [] => []
  | c :: rest =>
    if c = '.' then
      let name := rest.takeWhile isIdentChar
      if name.isEmpty then [.flawed .expectedField]
      else .field (String.ofList name) :: parts (rest.drop name.length)
    else if c = '[' then
      match Text.matchingBracket? (c :: rest) 0 with
      | none => [.flawed .unclosedIndex]
      | some close => .index (String.ofList (rest.take (close - 1))) :: parts (rest.drop close)
    else [.flawed (.unexpected c)]
termination_by cs => cs.length
decreasing_by all_goals simp only [List.length_drop, List.length_cons]; omega

/-- The accessor that an index has when its expression has the given value. -/
def indexAccessor (path : String) (v : Value) : Except Fault Accessor :=
  match v with
  | .number x =>
    if x > Float.ofNat maxIndex then .error (.invalidPath path (.indexAboveLimit x))
    else
      match Number.toNat? x with
      | some i => .ok (.index i)
      | none => .error (.invalidPath path (.indexNotNatural x))
  | v =>
    match v.text? with
    | some name => .ok (.field name)
    | none => .error (.invalidPath path (.cannotIndexWith v.kind))

/-- The accessor of a part; `evaluate` gives the value of an index expression. -/
def Part.resolve (path : String) (evaluate : String → Eval Value) : Part → Eval Accessor
  | .field name => pure (.field name)
  | .index expression => do
    let v ← evaluate expression
    indexAccessor path v
  | .flawed flaw => throw (.invalidPath path flaw)

/-- Reads a path: `find?` gives the values of variables, and `evaluate` those of index expressions.
-/
def resolve (find? : String → Option Value) (evaluate : String → Eval Value) (path : String) :
    Eval Path := do
  let expanded ← expand find? path
  let cs := Text.trim expanded
  let base := cs.takeWhile fun c => c != '.' && c != '['
  if isIdentifierChars base then
    let accessors ← (parts (cs.drop base.length)).mapM (Part.resolve path evaluate)
    return ⟨String.ofList base, accessors⟩
  else throw (.invalidPath path .expectedVariable)

/-- The value that a path leads to. -/
def get (find? : String → Option Value) (evaluate : String → Eval Value) (path : String) :
    Eval Value := do
  let resolved ← resolve find? evaluate path
  match find? resolved.base with
  | some v => v.read path resolved.accessors
  | none => throw (.missingVariable resolved.base)

end Path

end Logo
