import Logo.Command.Flow
import Logo.Proofs.Interpreter.Action
import Mathlib.Data.Nat.Notation

/-!
# Scripts of control commands

A control command runs blocks, and what it does next depends on how they end. Its script spells this
out: it tells of each block how the command goes on for every flow that the block can end with. From
a script one reads off which blocks a command runs on a machine, and how each of them ended.
-/

namespace Logo

/-- What a command runs a block for. -/
inductive Role where
  | condition
  | body
deriving DecidableEq

/-- An expression that a command has to know the value of, in a frame and with some effort. -/
structure Question where
  effort : ℕ
  frame : FrameId
  text : String

/-- The value of the expression in a store. -/
def Question.answer (q : Question) (store : Store) : Eval Value :=
  evaluate q.effort (store.environment q.frame) q.text

/-- How a control command goes on. -/
inductive Script where
  | finish (flow : Flow)
  | fail (f : Fault)
  | exhausted
  /-- Evaluates in the store of the machine. -/
  | ask (question : Question) (next : Value → Script)
  /-- Runs a block that is not the body of a procedure. -/
  | block (role : Role) (code : Code) (bindings : Option Bindings) (next : Flow → Script)

/-- A block that a command has run, with its outcome. -/
structure Call (σ : Type) where
  role : Role
  code : Code
  bindings : Option Bindings
  start : Machine σ
  outcome : Option (Except Failure Flow × Machine σ)

namespace Script

variable {σ : Type}

/-- The action of a script. -/
def run (invoke : Code → Option Bindings → Bool → Action σ Flow) : Script → Action σ Flow
  | finish flow => pure flow
  | fail f => Action.fail f
  | exhausted => Action.exhausted
  | ask question next => do
    let store ← Action.store
    let v ← Action.ofEval (question.answer store)
    (next v).run invoke
  | block _ code bindings next => do
    let flow ← invoke code bindings false
    (next flow).run invoke

/-- A script that depends on a condition is run as the one that is chosen. -/
@[simp] theorem run_ite (invoke : Code → Option Bindings → Bool → Action σ Flow) (p : Prop)
    [Decidable p] (s t : Script) :
    (if p then s else t).run invoke = if p then s.run invoke else t.run invoke :=
  apply_ite (run invoke) p s t

/-- The blocks that a script runs on a machine, in order. -/
def calls (invoke : Code → Option Bindings → Bool → Action σ Flow) :
    Script → Machine σ → List (Call σ)
  | finish _, _ | fail _, _ | exhausted, _ => []
  | ask question next, m =>
    match (question.answer m.store).run with
    | some (.ok v) => (next v).calls invoke m
    | some (.error _) => []
    | none => []
  | block role code bindings next, m =>
    let outcome := (invoke code bindings false).apply m
    { role, code, bindings, start := m, outcome } ::
      match outcome with
      | some (.ok flow, m) => (next flow).calls invoke m
      | some (.error _, _) => []
      | none => []

/-- Whether the script is at its end, with the same flow, once a block of one of the given roles has
left. -/
def Forwards (roles : Role → Prop) : Script → Prop
  | ask _ next => ∀ v, (next v).Forwards roles
  | block role _ _ next =>
    (roles role → ∀ v, next (.leave v) = .finish (.leave v)) ∧ ∀ flow, (next flow).Forwards roles
  | _ => True

/-- Whether the script cannot leave before it has run a block. -/
def Stays : Script → Prop
  | finish flow => flow.isLeave = false
  | ask _ next => ∀ v, (next v).Stays
  | _ => True

/-- Whether the script does not leave at once when a block of one of the given roles has left. -/
def Absorbs (roles : Role → Prop) : Script → Prop
  | ask _ next => ∀ v, (next v).Absorbs roles
  | block role _ _ next =>
    (roles role → ∀ v, (next (.leave v)).Stays) ∧ ∀ flow, (next flow).Absorbs roles
  | _ => True

variable {invoke : Code → Option Bindings → Bool → Action σ Flow} {roles : Role → Prop}

/-- The run of a script from one of its calls on. -/
theorem exists_next_of_calls {s : Script} {m : Machine σ} {before after : List (Call σ)}
    {call : Call σ} (h : s.calls invoke m = before ++ call :: after) :
    ∃ next : Flow → Script,
      (∀ roles, s.Forwards roles → (block call.role call.code call.bindings next).Forwards roles) ∧
      (∀ roles, s.Absorbs roles → (block call.role call.code call.bindings next).Absorbs roles) ∧
      call.outcome = (invoke call.code call.bindings false).apply call.start ∧
      (s.run invoke).apply m =
        Action.continueWith (fun flow m => ((next flow).run invoke).apply m) call.outcome ∧
      ∀ flow m', call.outcome = some (.ok flow, m') → after = (next flow).calls invoke m' := by
  induction s generalizing m before with
  | finish | fail | exhausted => simp [calls] at h
  | ask question next ih =>
    simp only [calls] at h
    split at h
    · next v hv =>
      obtain ⟨next', hforwards, habsorbs, houtcome, hrun, hafter⟩ := ih v h
      refine ⟨next', fun roles hs => hforwards roles (hs v), fun roles hs => habsorbs roles (hs v),
        houtcome, ?_, hafter⟩
      rw [← hrun]
      simp [run, Action.ofEval, Action.apply_ofFun, hv]
    · simp at h
    · simp at h
  | block role code bindings next ih =>
    simp only [calls] at h
    cases before with
    | nil =>
      obtain ⟨rfl, rfl⟩ := List.cons.inj h
      refine ⟨next, fun _ hs => hs, fun _ hs => hs, rfl, by simp [run], ?_⟩
      intro flow m' houtcome
      simp only at houtcome
      rw [houtcome]
    | cons first before =>
      obtain ⟨rfl, hrest⟩ := List.cons.inj h
      split at hrest
      · next flow m' houtcome =>
        obtain ⟨next', hforwards, habsorbs, houtcome', hrun, hafter⟩ := ih flow hrest
        refine ⟨next', fun roles hs => hforwards roles (hs.2 flow),
          fun roles hs => habsorbs roles (hs.2 flow), houtcome', ?_, hafter⟩
        rw [← hrun]
        simp [run, houtcome]
      · simp at hrest
      · simp at hrest

/-- A block that leaves is the last one of a script that forwards its role, and the script leaves
right after it. -/
theorem Forwards.run_of_leave {s : Script} {m m' : Machine σ} {before after : List (Call σ)}
    {call : Call σ} {v : Option Value} (hs : s.Forwards roles)
    (h : s.calls invoke m = before ++ call :: after) (hrole : roles call.role)
    (houtcome : call.outcome = some (.ok (.leave v), m')) :
    after = [] ∧ (s.run invoke).apply m = some (.ok (.leave v), m') := by
  obtain ⟨next, hforwards, _, _, hrun, hafter⟩ := exists_next_of_calls h
  have hnext := (hforwards roles hs).1 hrole v
  constructor
  · rw [hafter _ _ houtcome, hnext, calls]
  · rw [hrun, houtcome, Action.continueWith_ok, hnext, run, Action.apply_pure]

/-- A script that stays has run a block when it leaves. -/
theorem Stays.calls_ne_nil {s : Script} {m m' : Machine σ} {v : Option Value} (hs : s.Stays)
    (hrun : (s.run invoke).apply m = some (.ok (.leave v), m')) : s.calls invoke m ≠ [] := by
  induction s generalizing m with
  | finish flow =>
    obtain ⟨rfl, _⟩ : flow = .leave v ∧ m = m' := by simpa [run] using hrun
    cases hs
  | fail f => simp [run] at hrun
  | exhausted => simp [run] at hrun
  | ask question next ih =>
    simp only [run, Action.apply_bind, Action.apply_store, Action.continueWith_ok, Action.ofEval,
      Action.apply_ofFun] at hrun
    simp only [calls]
    rcases hquestion : (question.answer m.store).run with _ | _ | w
    · simp [hquestion] at hrun
    · simp [hquestion] at hrun
    · rw [hquestion] at hrun
      exact ih w (hs w) hrun
  | block role code bindings next ih => simp [calls]

/-- A script that absorbs a role runs another block, or it ends without leaving, after a block of
that role has left. -/
theorem Absorbs.not_run_of_leave {s : Script} {m m' : Machine σ} {before after : List (Call σ)}
    {call : Call σ} {v : Option Value} (hs : s.Absorbs roles)
    (h : s.calls invoke m = before ++ call :: after) (hrole : roles call.role)
    (houtcome : call.outcome = some (.ok (.leave v), m')) :
    ¬(after = [] ∧ (s.run invoke).apply m = some (.ok (.leave v), m')) := by
  rintro ⟨rfl, hleave⟩
  obtain ⟨next, _, habsorbs, _, hrun, hafter⟩ := exists_next_of_calls h
  have hstays := (habsorbs roles hs).1 hrole v
  rw [hrun, houtcome, Action.continueWith_ok] at hleave
  exact hstays.calls_ne_nil hleave (hafter _ _ houtcome).symm

end Script

end Logo
