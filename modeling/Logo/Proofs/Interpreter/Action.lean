import Logo.Interpreter.Command
import Logo.Interpreter.Run

/-!
# What actions do to a machine

Each way to build an action has an equation for its effect on a machine. A sequence stops at the
first failure, and where the effort runs out.
-/

namespace Logo

/-- The machine after a block, one level up. -/
def Machine.rise {σ : Type} (m : Machine σ) : Machine σ := { m with depth := m.depth - 1 }

/-- The machine without a frame. -/
def Machine.dropFrame {σ : Type} (frame : FrameId) (m : Machine σ) : Machine σ :=
  { m with store := m.store.drop frame }

namespace Action

variable {σ α β : Type}

/-- Goes on after an action that has come to an end. -/
def continueWith (f : α → Machine σ → Option (Except Failure β × Machine σ)) :
    Option (Except Failure α × Machine σ) → Option (Except Failure β × Machine σ)
  | none => none
  | some (.ok a, m) => f a m
  | some (.error failure, m) => some (.error failure, m)

/-- Nothing follows an action that ran out of effort. -/
@[simp] theorem continueWith_none (f : α → Machine σ → Option (Except Failure β × Machine σ)) :
    continueWith f none = none := rfl

/-- After a success, the next action gets its value and its machine. -/
@[simp] theorem continueWith_ok (f : α → Machine σ → Option (Except Failure β × Machine σ)) (a : α)
    (m : Machine σ) : continueWith f (some (.ok a, m)) = f a m := rfl

/-- After a failure, nothing is done any more. -/
@[simp] theorem continueWith_error (f : α → Machine σ → Option (Except Failure β × Machine σ))
    (failure : Failure) (m : Machine σ) :
    continueWith f (some (.error failure, m)) = some (.error failure, m) := rfl

/-- An action that is given by a function is applied as this function. -/
@[simp] theorem apply_ofFun (f : Machine σ → Option (Except Failure α × Machine σ))
    (m : Machine σ) : (ofFun f).apply m = f m := rfl

/-- An action that does nothing keeps the machine. -/
@[simp] theorem apply_pure (a : α) (m : Machine σ) :
    (pure a : Action σ α).apply m = some (.ok a, m) := rfl

/-- A fault is a failure without a line, and keeps the machine. -/
@[simp] theorem apply_fail (f : Fault) (m : Machine σ) :
    (fail f : Action σ α).apply m = some (.error { fault := f }, m) := rfl

/-- An action that ran out of effort comes to no end. -/
@[simp] theorem apply_exhausted (m : Machine σ) : (exhausted : Action σ α).apply m = none := rfl

/-- A sequence goes on with the value and the machine that its first part has come to. -/
@[simp] theorem apply_bind (a : Action σ α) (f : α → Action σ β) (m : Machine σ) :
    (a >>= f).apply m = continueWith (fun a m => (f a).apply m) (a.apply m) := by
  change Option.bind (a.run m) _ = continueWith _ (a.run m)
  rcases a.run m with _ | ⟨_ | _, m⟩
  · rfl
  · rfl
  · rfl

/-- Looking at the store keeps the machine. -/
@[simp] theorem apply_store (m : Machine σ) :
    (store : Action σ Store).apply m = some (.ok m.store, m) := rfl

/-- An evaluation leaves the machine alone. -/
theorem apply_ofEval (e : Eval α) (m : Machine σ) :
    (ofEval e : Action σ α).apply m =
      e.run.map fun r => (r.mapError fun fault => { fault }, m) := by
  rw [ofEval, apply_ofFun]
  rcases e.run with _ | _ | a
  · rfl
  · rfl
  · rfl

/-- A new store is the only change that its evaluation makes. -/
theorem apply_updateStore (f : Store → Eval Store) (m : Machine σ) :
    (updateStore f : Action σ Unit).apply m =
      match (f m.store).run with
      | none => none
      | some (.ok s) => some (.ok (), { m with store := s })
      | some (.error fault) => some (.error { fault }, m) := by
  simp only [updateStore, apply_bind, apply_store, continueWith_ok, ofEval, apply_ofFun]
  rcases (f m.store).run with _ | _ | s
  · rfl
  · rfl
  · rfl

/-- The line of a statement is noted on its failure and nowhere else. -/
theorem apply_atLine (a : Action σ α) (line : Nat) (m : Machine σ) :
    (a.atLine line).apply m = (a.apply m).map (Prod.map (Except.mapError (·.atLine line)) id) := by
  rw [atLine, apply_ofFun]
  rcases a.apply m with _ | ⟨_ | _, m⟩
  · rfl
  · rfl
  · rfl

/-- What a nested action does, if the limit admits it. -/
theorem apply_nested {limit : Nat} {m : Machine σ} (h : m.depth < limit) (a : Action σ α) :
    (nested limit a).apply m =
      (a.apply { m with depth := m.depth + 1 }).map (Prod.map id Machine.rise) := by
  rw [nested, apply_ofFun, if_neg (Nat.not_le.mpr h)]
  rcases a.apply { m with depth := m.depth + 1 } with _ | ⟨r, m⟩
  · rfl
  · rfl

/-- What an action in a new frame does, if the frame around it is in use. -/
theorem apply_inFrame {code : Code} {m : Machine σ} (h : m.store.isLive code.frame = true)
    (bindings : Option Bindings) (a : FrameId → Action σ α) :
    (inFrame code bindings a).apply m =
      ((a m.store.next).apply { m with store := m.store.push (some code.frame) bindings }).map
        (Prod.map id (Machine.dropFrame m.store.next)) := by
  rw [inFrame, apply_ofFun, if_pos h]
  dsimp only
  rcases (a m.store.next).apply { m with store := m.store.push (some code.frame) bindings }
    with _ | ⟨r, m⟩
  · rfl
  · rfl

end Action

end Logo
