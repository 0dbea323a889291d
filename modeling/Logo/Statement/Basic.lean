import Logo.Token.Basic

/-!
# Statements

A program is a list of statements. A statement is a label followed by arguments, each a text or a
block of statements, and may bind its value to a variable.
-/

namespace Logo

/-- The variable that receives the value of a statement. -/
structure Target where
  name : String
  /-- Whether the variable is declared, in contrast to being set. -/
  fresh : Bool
deriving DecidableEq, Repr

/-- What tells one block from another: the program text it comes from, and the place of its opening
delimiter there. Two blocks with the same statements are still different blocks. -/
structure BlockId where
  unit : Nat
  opened : Position
deriving DecidableEq, Repr

mutual

/-- An argument of a statement. -/
inductive Argument where
  | text (s : String)
  | block (id : BlockId) (body : List Statement)

/-- A statement, with the place of its first token. -/
structure Statement where
  label : String
  arguments : List Argument
  target : Option Target
  pos : Position

end

namespace Argument

/-- The text of an argument as a statement shows it: a block is shown by its size. -/
def shown : Argument → String
  | text s => s
  | block _ body => "\x7b " ++ toString body.length ++ " command(s) \x7d"

/-- Whether an argument is a block. -/
def isBlock : Argument → Bool
  | text _ => false
  | block _ _ => true

end Argument

namespace Statement

/-- How many of the arguments are blocks. -/
def blockCount (s : Statement) : Nat := s.arguments.countP Argument.isBlock

/-- The text of a statement on one line. -/
def text (s : Statement) : String :=
  let binding := match s.target with
    | some ⟨name, true⟩ => "new " ++ name ++ " := "
    | some ⟨name, false⟩ => name ++ " := "
    | none => ""
  s.arguments.foldl (fun line a => line ++ " " ++ a.shown) (binding ++ s.label)

end Statement

mutual

/-- A statement followed by the statements of its blocks, in order. -/
def Statement.preorder : Statement → List Statement
  | ⟨label, arguments, target, pos⟩ =>
    ⟨label, arguments, target, pos⟩ :: Argument.listPreorder arguments

/-- The statements of an argument's block, in order. -/
def Argument.preorder : Argument → List Statement
  | .text _ => []
  | .block _ body => Statement.listPreorder body

/-- The statements of the blocks among some arguments, in order. -/
def Argument.listPreorder : List Argument → List Statement
  | [] => []
  | a :: rest => a.preorder ++ Argument.listPreorder rest

/-- Some statements, each followed by the statements of its blocks. -/
def Statement.listPreorder : List Statement → List Statement
  | [] => []
  | s :: rest => s.preorder ++ Statement.listPreorder rest

end

end Logo
