import Logo.Expression.Evaluate
import Logo.Proofs.Eval
import Logo.Proofs.Expression.Tree

/-!
# The stack machine and the tree of its instructions

An instruction list that leaves one value on the stack is the Polish order of a tree. Running the
list gives what the tree evaluates to when the operands of each node are evaluated from the last to
the first. Every instruction finds its operands on top of the stack, the first one uppermost.
-/

namespace Logo

/-- Evaluates from the last to the first, and stops at the first fault met. -/
def Eval.rightToLeft {α : Type} : {n : ℕ} → (Fin n → Eval α) → Eval (Fin n → α)
  | 0, _ => return Fin.elim0
  | _ + 1, evaluations => do
    let results ← rightToLeft fun k => evaluations k.succ
    let result ← evaluations 0
    return Fin.cons result results

namespace Instruction

/-- What an instruction gives on its operands, of which it has as many as it consumes. -/
def result (load evaluate : String → Eval Value) :
    (i : Instruction) → (Fin i.consumed → Value) → Eval Value
  | .number x, _ => return .number x
  | .text s, _ => return .ofText s
  | .load path, _ => load path
  | .array elements, _ => do return .array (← elements.mapM evaluate)
  | .object entries, _ => do
    let fields ← entries.foldlM (fun fields (key, value) => do
      return putField fields key (← evaluate value)) []
    return .object fields
  | .unary op, operands => op.apply (operands (0 : Fin 1))
  | .binary op, operands => op.apply (operands (0 : Fin 2)) (operands (1 : Fin 2))
  | .call f, operands => f.apply (List.ofFn operands)

end Instruction

/-- The value of a tree of instructions: the operands of a node are evaluated from the last to the
first, none of them is left out, and the node gets them in their order. -/
def Tree.value (load evaluate : String → Eval Value) : Tree Instruction.consumed → Eval Value
  | node i operands => do
    let values ← Eval.rightToLeft fun k => (operands k).value load evaluate
    i.result load evaluate values

namespace Instruction

variable {expression : String} {load evaluate : String → Eval Value}

/-- An instruction replaces its operands on the stack by its result. -/
theorem run_ofFn_append (i : Instruction) (operands : Fin i.consumed → Value)
    (stack : List Value) :
    run expression load evaluate (List.ofFn operands ++ stack) i = do
      return (← i.result load evaluate operands) :: stack := by
  cases i with
  | number | text | load | array | object =>
    have hnone : List.ofFn operands = [] := List.ofFn_zero
    simp [run, result, hnone]
  | unary op =>
    have hone : List.ofFn operands = [operands (0 : Fin 1)] := List.ofFn_succ
    simp [run, result, hone]
  | binary op =>
    have htwo : List.ofFn operands = [operands (0 : Fin 2), operands (1 : Fin 2)] := List.ofFn_succ
    simp [run, result, htwo]
  | call f =>
    have hlength : (List.ofFn operands).length = f.arity := List.length_ofFn
    simp [run, result, hlength, List.take_left' hlength, List.drop_left' hlength]

/-- On a stack that is high enough, an instruction leaves one value more than it spares. -/
theorem run_eq_of_le (i : Instruction) {stack : List Value} (h : i.consumed ≤ stack.length) :
    run expression load evaluate stack i = do
      let v ← i.result load evaluate fun k => stack.get (k.castLE h)
      return v :: stack.drop i.consumed := by
  have hsplit : (List.ofFn fun k : Fin i.consumed => stack.get (k.castLE h)) ++
      stack.drop i.consumed = stack := by
    have htake : (List.ofFn fun k : Fin i.consumed => stack.get (k.castLE h)) =
        stack.take i.consumed := by
      apply List.ext_getElem
      · simp [h]
      · intro k _ _
        simp
    rw [htake, List.take_append_drop]
  conv_lhs => rw [← hsplit]
  exact run_ofFn_append i _ _

/-- The depth that the check of a program computes is the height of the stack. -/
theorem stackDepth_eq_ok_iff {instructions : List Instruction} {depth : ℕ} :
    stackDepth expression instructions = .ok depth ↔
      stackHeight? (instructions.map consumed) = some depth := by
  induction instructions generalizing depth with
  | nil => simp [stackDepth, stackHeight?]
  | cons i rest ih =>
    simp only [stackDepth, List.map_cons, stackHeight?]
    cases hrest : stackDepth expression rest with
    | error fault =>
      cases hheight : stackHeight? (rest.map consumed) with
      | none => simp
      | some height => simp [ih.mpr hheight] at hrest
    | ok before =>
      rw [ih.mp hrest]
      by_cases hi : i.consumed ≤ before
      · simp [hi]
      · simp [hi]

/-- A program is accepted exactly if it leaves one value on the stack. -/
theorem checkStack_eq_ok_iff {instructions : List Instruction} :
    checkStack expression instructions = .ok () ↔
      stackHeight? (instructions.map consumed) = some 1 := by
  rw [← stackDepth_eq_ok_iff, checkStack]
  cases stackDepth expression instructions with
  | error fault => simp
  | ok depth =>
    rcases depth with _ | _ | depth
    · simp
    · simp
    · simp

/-- Runs instructions from the last to the first on top of a stack. -/
def runOnto (expression : String) (load evaluate : String → Eval Value) (stack : List Value) :
    List Instruction → Eval (List Value)
  | [] => return stack
  | i :: rest => do
    let below ← runOnto expression load evaluate stack rest
    i.run expression load evaluate below

/-- Running on top of a stack is the left fold over the reversed list. -/
theorem foldlM_run_reverse (stack : List Value) (instructions : List Instruction) :
    instructions.reverse.foldlM (run expression load evaluate) stack =
      runOnto expression load evaluate stack instructions := by
  induction instructions with
  | nil => rfl
  | cons i rest ih => simp [runOnto, ih]

/-- The height of a stack that a run reaches is known beforehand. -/
theorem length_of_runOnto {instructions : List Instruction} {height : ℕ} {stack : List Value}
    (hheight : stackHeight? (instructions.map consumed) = some height)
    (hrun : runOnto expression load evaluate [] instructions = pure stack) :
    stack.length = height := by
  induction instructions generalizing height stack with
  | nil =>
    obtain rfl : 0 = height := by simpa [stackHeight?] using hheight
    obtain rfl : [] = stack := by simpa [runOnto] using hrun
    rfl
  | cons i rest ih =>
    obtain ⟨below, hbelow, hi⟩ := Eval.bind_eq_pure_iff.mp hrun
    obtain ⟨before, hrest, hle, rfl⟩ := exists_stackHeight?_of_cons hheight
    have hlength := ih hrest hbelow
    rw [run_eq_of_le i (by omega), Eval.bind_eq_pure_iff] at hi
    obtain ⟨v, _, hv⟩ := hi
    obtain rfl : v :: below.drop i.consumed = stack := by simpa using hv
    simp only [List.length_cons, List.length_drop]
    omega

end Instruction

namespace Tree

open Instruction (runOnto)

variable {expression : String} {load evaluate : String → Eval Value}

/-- Operands that run to their values one by one do so side by side, the last one first. -/
private theorem runOnto_operands_append {n : ℕ} (operands : Fin n → Tree Instruction.consumed)
    (rest : List Instruction) (stack : List Value)
    (h : ∀ k rest, runOnto expression load evaluate stack ((operands k).polish ++ rest) = do
      let below ← runOnto expression load evaluate stack rest
      return (← (operands k).value load evaluate) :: below) :
    runOnto expression load evaluate stack
        ((List.ofFn fun k => (operands k).polish).flatten ++ rest) = do
      let below ← runOnto expression load evaluate stack rest
      return List.ofFn (← Eval.rightToLeft fun k => (operands k).value load evaluate) ++ below := by
  induction n with
  | zero => simp [Eval.rightToLeft]
  | succ n ih =>
    rw [List.ofFn_succ, List.flatten_cons, List.append_assoc, h,
      ih (fun k => operands k.succ) (fun k => h k.succ)]
    simp [Eval.rightToLeft]

/-- The instructions of a tree put its value on the stack, on top of what the instructions after
them have left. -/
theorem runOnto_polish_append (t : Tree Instruction.consumed) (rest : List Instruction)
    (stack : List Value) :
    runOnto expression load evaluate stack (t.polish ++ rest) = do
      let below ← runOnto expression load evaluate stack rest
      return (← t.value load evaluate) :: below := by
  induction t generalizing rest with
  | node i operands ih =>
    rw [polish, List.cons_append, runOnto, runOnto_operands_append operands rest stack ih, value]
    simp only [bind_assoc, pure_bind, Instruction.run_ofFn_append]

/-- Running the instructions of a tree gives the value of the tree. -/
theorem runAll_polish (t : Tree Instruction.consumed) :
    Instruction.runAll expression load evaluate t.polish = t.value load evaluate := by
  have hrun : runOnto expression load evaluate [] t.polish = do
      return [← t.value load evaluate] := by
    simpa [runOnto] using runOnto_polish_append t [] []
  rw [Instruction.runAll, Instruction.foldlM_run_reverse, hrun]
  simp

end Tree

end Logo
