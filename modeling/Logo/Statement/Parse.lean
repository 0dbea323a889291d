import Logo.Fault
import Logo.Statement.Basic
import Logo.Text.Word

/-!
# From tokens to statements

The tokens are read from left to right with a stack of the blocks that are open. A statement starts
with its label, or with `name :=` or `new name :=` and then its label; the tokens `:=` and `new` are
found by position alone, whatever stands between. A block becomes the last argument of the statement
it follows; where there is none, its statements join those of the enclosing block.
-/

namespace Logo

/-- A statement whose arguments are still being read, last first. -/
structure Draft where
  label : String
  target : Option Target
  pos : Position
  arguments : List Argument := []

namespace Draft

/-- Adds an argument. -/
def add (d : Draft) (a : Argument) : Draft := { d with arguments := a :: d.arguments }

/-- The statement as read so far. -/
def finish (d : Draft) : Statement := ⟨d.label, d.arguments.reverse, d.target, d.pos⟩

end Draft

/-- The statements read so far on one level of nesting, last first, and the one being read. -/
structure Level where
  statements : List Statement := []
  draft : Option Draft := none

namespace Level

/-- Ends the statement being read. -/
def commit (l : Level) : Level :=
  match l.draft with
  | some d => { statements := d.finish :: l.statements }
  | none => l

/-- All statements of the level, in order. -/
def close (l : Level) : List Statement := l.commit.statements.reverse

/-- Adds a block that ends on this level. -/
def attach (l : Level) (id : BlockId) (body : List Statement) : Level :=
  match l.draft with
  | some d => { l with draft := some (d.add (.block id body)) }
  | none => { l with statements := body.reverse ++ l.statements }

end Level

/-- The fault of a return binding that goes wrong at a token. -/
def Token.malformedBinding (t : Token) : Fault := .malformedBinding t.shown t.pos

/-- Starts a statement at the token `first` whose value goes to a variable: `name` is the token that
spells the variable, and `label?` the token after the binding, if there is one. -/
def Draft.bound (first name : Token) (fresh : Bool) (label? : Option Token) : Except Fault Draft :=
  if isIdentifier name.value then
    match label? with
    | some label =>
      if label.kind.isStructural then .error label.malformedBinding
      else .ok { label := label.value, target := some ⟨name.value, fresh⟩, pos := first.pos }
    | none => .error (.malformedBinding ":=" first.pos)
  else .error name.malformedBinding

/-- Starts a statement at the token `first`, which is its label. -/
def Draft.plain (first : Token) : Draft := { label := first.value, target := none, pos := first.pos }

/-- Starts a statement at the token `first`, and counts the tokens of `rest` that belong to its
return binding and label. -/
def Draft.start (first : Token) (rest : List Token) : Except Fault (Draft × Nat) :=
  match rest with
  | second :: third :: more =>
    if first.value = "new" && third.value = ":=" then
      (Draft.bound first second true more.head?).map (·, 3)
    else if second.value = ":=" then (Draft.bound first first false (some third)).map (·, 2)
    else .ok (.plain first, 0)
  | [second] =>
    if second.value = ":=" then (Draft.bound first first false none).map (·, 1)
    else .ok (.plain first, 0)
  | [] => .ok (.plain first, 0)

/-- Reads statements: `enclosing` holds the levels around the current one with the places where
their blocks were opened, innermost first, and `skip` counts the tokens that are already read as
part of a return binding. -/
def parseFrom (unit : Nat) :
    List (Position × Level) → Level → Nat → List Token → Except Fault (List Statement)
  | [], level, _, [] => .ok level.close
  | (opened, _) :: _, _, _, [] => .error (.unmatchedBlock opened)
  | enclosing, level, skip + 1, _ :: rest => parseFrom unit enclosing level skip rest
  | enclosing, level, 0, t :: rest =>
    match t.kind with
    | .blockOpen => parseFrom unit ((t.pos, level) :: enclosing) {} 0 rest
    | .blockClose =>
      match enclosing with
      | [] => .error (.unmatchedBlock t.pos)
      | (opened, outer) :: enclosing =>
        parseFrom unit enclosing (outer.attach ⟨unit, opened⟩ level.close) 0 rest
    | .separator => parseFrom unit enclosing level.commit 0 rest
    | .word word =>
      match level.draft with
      | some d => parseFrom unit enclosing { level with draft := some (d.add (.text word)) } 0 rest
      | none =>
        match Draft.start t rest with
        | .error fault => .error fault
        | .ok (d, skip) => parseFrom unit enclosing { level with draft := some d } skip rest

/-- The statements that tokens spell. The number `unit` tells the blocks of this program text from
those of others. -/
def parse (unit : Nat) (tokens : List Token) : Except Fault (List Statement) :=
  parseFrom unit [] {} 0 tokens

end Logo
