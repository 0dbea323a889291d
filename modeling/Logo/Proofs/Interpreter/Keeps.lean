import Logo.Proofs.Interpreter.Effect
import Logo.Proofs.Interpreter.Leave
import Mathlib.Order.Defs.Unbundled

/-!
# What actions keep

An action keeps a relation between machines if the machine that it leaves, also by a failure, is in
this relation to the one that it was given. If a relation can be followed from step to step, then
what is kept by the hook, the commands, the calls and the return binding of a statement is kept by
the statement, and what is kept by all statements of a block is kept by the block.
-/

namespace Logo

variable {σ α β : Type} {R S : Machine σ → Machine σ → Prop}

namespace Action

/-- Whether the machine that an action leaves is always in a relation to the one that it was
given. -/
def Keeps (R : Machine σ → Machine σ → Prop) (a : Action σ α) : Prop :=
  ∀ m r m', a.apply m = some (r, m') → R m m'

namespace Keeps

/-- What keeps a relation keeps every wider one. -/
theorem mono {a : Action σ α} (h : a.Keeps R) (hRS : ∀ m m', R m m' → S m m') : a.Keeps S :=
  fun m r m' ha => hRS m m' (h m r m' ha)

/-- An action that comes to no end keeps every relation. -/
theorem exhausted : (exhausted : Action σ α).Keeps R := by
  intro m r m' h
  cases h

/-- The line that is noted on a failure does not matter. -/
theorem atLine {a : Action σ α} (h : a.Keeps R) (line : ℕ) : (a.atLine line).Keeps R := by
  intro m r m' hr
  rw [Action.atLine, apply_ofFun] at hr
  rcases ha : a.apply m with _ | ⟨_ | _, m₁⟩
  · rw [ha] at hr
    cases hr
  · rw [ha] at hr
    cases hr
    exact h m _ _ ha
  · rw [ha] at hr
    cases hr
    exact h m _ _ ha

/-- A new store is kept if its evaluation keeps it. -/
theorem updateStore {f : Store → Eval Store} (hrefl : ∀ m, R m m)
    (h : ∀ (m : Machine σ) s, f m.store = pure s → R m { m with store := s }) :
    (updateStore f : Action σ Unit).Keeps R := by
  intro m r m' hr
  rw [apply_updateStore] at hr
  rcases hf : (f m.store).run with _ | _ | s
  · rw [hf] at hr
    cases hr
  · rw [hf] at hr
    cases hr
    exact hrefl m
  · rw [hf] at hr
    cases hr
    exact h m s hf

variable [IsPreorder (Machine σ) R]

/-- Doing nothing keeps each reflexive relation. -/
theorem pure (a : α) : (Pure.pure a : Action σ α).Keeps R := by
  intro m r m' h
  cases h
  exact refl_of R m

/-- Failing keeps each reflexive relation. -/
theorem fail (f : Fault) : (fail f : Action σ α).Keeps R := by
  intro m r m' h
  cases h
  exact refl_of R m

/-- An evaluation keeps each reflexive relation. -/
theorem ofEval (e : Eval α) : (ofEval e : Action σ α).Keeps R := by
  intro m r m' h
  rw [apply_ofEval] at h
  obtain ⟨_, _, h⟩ := Option.map_eq_some_iff.mp h
  cases h
  exact refl_of R m

/-- Looking at the store keeps each reflexive relation. -/
theorem store : (store : Action σ Store).Keeps R := by
  intro m r m' h
  cases h
  exact refl_of R m

/-- Actions in a row keep each transitive relation that they keep one by one. -/
theorem bind {a : Action σ α} {f : α → Action σ β} (ha : a.Keeps R) (hf : ∀ x, (f x).Keeps R) :
    (a >>= f).Keeps R := by
  intro m r m' h
  rw [apply_bind] at h
  rcases hm : a.apply m with _ | ⟨_ | x, m₁⟩
  · rw [hm] at h
    cases h
  · rw [hm] at h
    cases h
    exact ha m _ _ hm
  · rw [hm] at h
    exact trans_of R (ha m _ _ hm) (hf x m₁ r m' h)

/-- A relation is kept one level deeper if it can be followed down and up again. -/
theorem nested {a : Action σ α} (h : a.Keeps R)
    (hlevel : ∀ m m', R { m with depth := m.depth + 1 } m' → R m m'.rise) (limit : ℕ) :
    (nested limit a).Keeps R := by
  intro m r m' hr
  by_cases hdepth : m.depth < limit
  · rw [apply_nested hdepth] at hr
    obtain ⟨⟨r₁, m₁⟩, hrun, heq⟩ := Option.map_eq_some_iff.mp hr
    cases heq
    exact hlevel m m₁ (h _ _ _ hrun)
  · rw [Action.nested, apply_ofFun, if_pos (Nat.not_lt.mp hdepth)] at hr
    cases hr
    exact refl_of R m

/-- What is kept inside a new frame may depend on this frame. -/
theorem inFrame {T : FrameId → Machine σ → Machine σ → Prop} {a : FrameId → Action σ α}
    (h : ∀ id, (a id).Keeps (T id)) (code : Code) (bindings : Option Bindings)
    (hframe : ∀ m m', T m.store.next
      { m with store := m.store.push (some code.frame) bindings } m' →
        R m (m'.dropFrame m.store.next)) :
    (inFrame code bindings a).Keeps R := by
  intro m r m' hr
  by_cases hlive : m.store.isLive code.frame = true
  · rw [apply_inFrame hlive] at hr
    obtain ⟨⟨r₁, m₁⟩, hrun, heq⟩ := Option.map_eq_some_iff.mp hr
    cases heq
    exact hframe m m₁ (h _ _ _ _ hrun)
  · rw [Action.inFrame, apply_ofFun, if_neg hlive] at hr
    cases hr
    exact refl_of R m

end Keeps

end Action

open Logo.Action

variable [IsPreorder (Machine σ) R]

/-- A script keeps what the blocks that it runs keep. -/
theorem Script.keeps_run {invoke : Code → Option Bindings → Bool → Action σ Flow}
    (hinvoke : ∀ code bindings procedure, (invoke code bindings procedure).Keeps R) (s : Script) :
    (s.run invoke).Keeps R := by
  induction s with
  | finish flow => exact .pure flow
  | fail f => exact .fail f
  | exhausted => exact .exhausted
  | ask question next ih => exact Keeps.store.bind fun _ => (Keeps.ofEval _).bind ih
  | block role code bindings next ih => exact (hinvoke code bindings false).bind ih

/-- Statements in order keep what each of them keeps. -/
theorem keeps_runStatements {step : Statement → Action σ Flow} {body : List Statement}
    (h : ∀ s ∈ body, (step s).Keeps R) (last : Option Value) :
    (runStatements step last body).Keeps R := by
  induction body generalizing last with
  | nil => exact .pure _
  | cons s rest ih =>
    refine ((h s List.mem_cons_self).atLine s.pos.line).bind fun flow => ?_
    cases flow with
    | leave v => exact .pure _
    | next v => exact ih (fun s hs => h s (List.mem_cons_of_mem _ hs)) v

namespace Interpreter

variable {i : Interpreter σ} {runner : Runner σ} {frame : FrameId} {s : Statement}

/-- What a statement says keeps what its command, or the call of its procedure, keeps. -/
theorem keeps_dispatch
    (hinvoke : ∀ code bindings procedure, (runner.invoke code bindings procedure).Keeps R)
    (hcommand : ∀ command, i.registry.find? s.label = some command →
      ∀ arguments, (command.handler.run runner frame arguments).Keeps R) :
    (i.dispatch runner frame s).Keeps R := by
  refine Keeps.store.bind fun store => ?_
  cases hfind : i.registry.find? s.label with
  | some command => exact (Keeps.ofEval _).bind fun arguments => hcommand command hfind arguments
  | none =>
    dsimp only
    cases store.procedure? frame s.label with
    | some code =>
      exact Keeps.store.bind fun _ => (Keeps.ofEval _).bind fun _ => hinvoke code _ true
    | none => exact (Keeps.ofEval _).bind fun _ => .pure _

/-- A statement keeps a relation if its announcement, its command and its binding do. -/
theorem keeps_runStatement (hannounce : (i.hooks.announce s).Keeps R)
    (hdispatch : (i.dispatch runner frame s).Keeps R)
    (hbind : ∀ flow, (bindTarget runner.effort frame s flow : Action σ Unit).Keeps R) :
    (i.runStatement runner frame s).Keeps R :=
  hannounce.bind fun _ => hdispatch.bind fun flow => (hbind flow).bind fun _ => .pure flow

end Interpreter

/-- A control command keeps what the blocks that it runs keep. -/
theorem Control.keeps_handler_run (c : Control) {runner : Runner σ}
    (hinvoke : ∀ code bindings procedure, (runner.invoke code bindings procedure).Keeps R)
    (frame : FrameId) (arguments : List Actual) :
    ((c.command.handler : Handler σ).run runner frame arguments).Keeps R := by
  rw [c.handler_run]
  exact Script.keeps_run hinvoke _

end Logo
