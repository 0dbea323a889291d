import Logo.Expression.Evaluate

/-!
# Frames of variables

Variables live in frames. A frame has variables of its own, perhaps some read-only bindings, and a
parent. A name is looked up in the variables of a frame, then among its bindings, then in its
parent. The store holds the frames that are in use, newest first, so that a parent always stands
behind its children. A frame that is dropped leaves its number unused.
-/

namespace Logo

/-- Named values that a frame starts with and that cannot be set. -/
abbrev Bindings := List (String × Value)

/-- A frame of variables. -/
structure Frame where
  id : FrameId
  parent : Option FrameId
  bindings : Option Bindings
  /-- The variables that the frame itself has, by name. -/
  cells : List (String × Value)

namespace Frame

/-- Whether a frame has a variable of its own of the given name. -/
def owns (f : Frame) (name : String) : Bool := (f.cells.lookup name).isSome

/-- The value that a frame itself gives a name. -/
def find? (f : Frame) (name : String) : Option Value :=
  match f.cells.lookup name with
  | some v => some v
  | none => (f.bindings.getD []).lookup name

/-- The names of a frame's own variables, in alphabetical order. -/
def names (f : Frame) : List String := (f.cells.map Prod.fst).mergeSort

/-- What a frame holds, in one line. -/
def summary (f : Frame) : String :=
  "Memory \x7b variables: [" ++ ", ".intercalate (f.names.map Text.quoted) ++ "], has_parent: " ++
    toString f.parent.isSome ++ ", has_injector: " ++ toString f.bindings.isSome ++ " \x7d"

end Frame

/-- The frames that are in use. -/
structure Store where
  /-- The frames, newest first. -/
  frames : List Frame := []
  /-- The number of the next frame. -/
  next : FrameId := 0

/-- The frame of a number, its parent, and so on: the frames in which a name is looked up. -/
def Frame.chain : List Frame → Option FrameId → List Frame
  | _, none => []
  | [], some _ => []
  | f :: rest, some id => if f.id = id then f :: chain rest f.parent else chain rest (some id)

namespace Store

/-- The frames in which a name is looked up from a frame. -/
def chain (s : Store) (id : FrameId) : List Frame := Frame.chain s.frames (some id)

/-- The frame of a number. -/
def frame? (s : Store) (id : FrameId) : Option Frame := s.frames.find? (·.id = id)

/-- Whether a frame is in use. -/
def isLive (s : Store) (id : FrameId) : Bool := s.frames.any (·.id = id)

/-- Adds a frame. -/
def push (s : Store) (parent : Option FrameId) (bindings : Option Bindings) : Store :=
  { frames := { id := s.next, parent, bindings, cells := [] } :: s.frames, next := s.next + 1 }

/-- Drops a frame. -/
def drop (s : Store) (id : FrameId) : Store := { s with frames := s.frames.eraseP (·.id = id) }

/-- The value of a name, looked up from a frame. -/
def find? (s : Store) (id : FrameId) (name : String) : Option Value :=
  (s.chain id).findSome? (·.find? name)

/-- The nearest frame, seen from a frame, that gives a name a value. -/
def holder? (s : Store) (id : FrameId) (name : String) : Option Frame :=
  (s.chain id).find? fun f => (f.find? name).isSome

/-- The variables that an expression in a frame can use. -/
def environment (s : Store) (id : FrameId) : Environment := .names (s.find? id)

/-- Puts a value into a variable of a frame itself. -/
def write (s : Store) (id : FrameId) (name : String) (v : Value) : Store :=
  { s with
    frames := s.frames.map fun f =>
      if f.id = id then { f with cells := putField f.cells name v } else f }

/-- Reads a path in a frame. -/
def resolve (s : Store) (effort : Nat) (id : FrameId) (path : String) : Eval Path :=
  Path.resolve (s.find? id) (evaluate effort (s.environment id)) path

/-- The value that a path leads to from a frame. -/
def get (s : Store) (effort : Nat) (id : FrameId) (path : String) : Eval Value :=
  Path.get (s.find? id) (evaluate effort (s.environment id)) path

/-- Sets a variable, or a member of one, in the nearest frame that gives its name a value. -/
def set (s : Store) (effort : Nat) (id : FrameId) (path : String) (v : Value) : Eval Store := do
  let resolved ← s.resolve effort id path
  match s.holder? id resolved.base with
  | none => throw (.missingVariable resolved.base)
  | some f =>
    match f.cells.lookup resolved.base with
    | none => throw (.readOnlyVariable resolved.base)
    | some cell => do
      let cell ← Value.assign path v cell resolved.accessors
      return s.write f.id resolved.base cell

/-- The value of a frame's own variable. -/
def own? (s : Store) (id : FrameId) (name : String) : Option Value :=
  (s.frame? id).bind fun f => f.cells.lookup name

/-- Makes a variable, or a member of one, in a frame itself. -/
def create (s : Store) (effort : Nat) (id : FrameId) (path : String) (v : Value) : Eval Store := do
  let resolved ← s.resolve effort id path
  let cell := (s.own? id resolved.base).getD (.number 0.0)
  let cell ← Value.materialize path v cell resolved.accessors
  return s.write id resolved.base cell

end Store

end Logo
