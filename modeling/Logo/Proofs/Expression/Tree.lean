import Mathlib.Algebra.Ring.Nat
import Mathlib.Data.List.OfFn

/-!
# Ranked trees in Polish order

A ranked tree has a symbol at every node and, below it, as many operands as that symbol takes. In
Polish order a symbol stands before its operands. A list of symbols is read back from its end onto a
stack of trees: the reading finds every tree again, so that no two trees have the same Polish
order, and the height of the stack depends on the numbers of operands alone.
-/

namespace Logo

/-- Trees of symbols, each with as many operands as its arity says. -/
inductive Tree {β : Type} (arity : β → ℕ) where
  | node (b : β) (operands : Fin (arity b) → Tree arity)

/-- The height of a stack after symbols of the given arities, the last one first: each takes its
operands off the stack and puts one result on it. -/
def stackHeight? : List ℕ → Option ℕ
  | [] => some 0
  | n :: rest =>
    match stackHeight? rest with
    | none => none
    | some height => if n ≤ height then some (height - n + 1) else none

/-- A symbol leaves a stack only if it finds its operands on the one before it. -/
theorem exists_stackHeight?_of_cons {n height : ℕ} {rest : List ℕ}
    (h : stackHeight? (n :: rest) = some height) :
    ∃ before, stackHeight? rest = some before ∧ n ≤ before ∧ before - n + 1 = height := by
  simp only [stackHeight?] at h
  cases hrest : stackHeight? rest with
  | none => simp [hrest] at h
  | some before =>
    simp only [hrest, Option.ite_none_right_eq_some, Option.some.injEq] at h
    exact ⟨before, rfl, h⟩

/-- A stack that never ran short holds one result for each symbol, less the operands taken. -/
theorem add_sum_eq_length_of_stackHeight? {arities : List ℕ} {height : ℕ}
    (h : stackHeight? arities = some height) : height + arities.sum = arities.length := by
  induction arities generalizing height with
  | nil =>
    obtain rfl : 0 = height := by simpa [stackHeight?] using h
    rfl
  | cons n rest ih =>
    obtain ⟨before, hrest, hn, rfl⟩ := exists_stackHeight?_of_cons h
    have hcount := ih hrest
    simp only [List.sum_cons, List.length_cons]
    omega

namespace Tree

variable {β : Type} {arity : β → ℕ}

/-- The symbols of a tree in Polish order: a symbol stands before those of its operands. -/
def polish : Tree arity → List β
  | node b operands => b :: (List.ofFn fun k => (operands k).polish).flatten

/-- Reads symbols back from the last to the first, with the trees read so far on a stack. -/
def forest? (arity : β → ℕ) : List β → Option (List (Tree arity))
  | [] => some []
  | b :: rest =>
    match forest? arity rest with
    | none => none
    | some trees =>
      if h : arity b ≤ trees.length then
        some (node b (fun k => trees.get (k.castLE h)) :: trees.drop (arity b))
      else none

/-- The height of the stack of trees is that of a stack of results. -/
theorem map_length_forest? (symbols : List β) :
    (forest? arity symbols).map List.length = stackHeight? (symbols.map arity) := by
  induction symbols with
  | nil => rfl
  | cons b rest ih =>
    simp only [forest?, List.map_cons, stackHeight?, ← ih]
    cases forest? arity rest with
    | none => rfl
    | some trees =>
      by_cases hb : arity b ≤ trees.length
      · simp [hb]
      · simp [hb]

/-- Operands that are read back one by one are read back side by side. -/
private theorem forest?_operands_append {n : ℕ} (operands : Fin n → Tree arity) (rest : List β)
    (h : ∀ k rest, forest? arity ((operands k).polish ++ rest) =
      (forest? arity rest).map (operands k :: ·)) :
    forest? arity ((List.ofFn fun k => (operands k).polish).flatten ++ rest) =
      (forest? arity rest).map (List.ofFn operands ++ ·) := by
  induction n with
  | zero => simp
  | succ n ih =>
    rw [List.ofFn_succ, List.flatten_cons, List.append_assoc, h,
      ih (fun k => operands k.succ) (fun k => h k.succ), Option.map_map, List.ofFn_succ]
    rfl

/-- A tree in Polish order is read back, whatever symbols follow it. -/
theorem forest?_polish_append (t : Tree arity) (rest : List β) :
    forest? arity (t.polish ++ rest) = (forest? arity rest).map (t :: ·) := by
  induction t generalizing rest with
  | node b operands ih =>
    rw [polish, List.cons_append, forest?, forest?_operands_append operands rest ih]
    cases forest? arity rest with
    | none => rfl
    | some trees =>
      have hle : arity b ≤ (List.ofFn operands ++ trees).length := by simp
      have hget : (fun k : Fin (arity b) => (List.ofFn operands ++ trees).get (k.castLE hle)) =
          operands := by
        funext k
        simp
      simp only [Option.map_some, dif_pos hle, hget]
      congr 2
      exact List.drop_left' (List.length_ofFn)

/-- No two trees have the same Polish order. -/
theorem polish_injective : Function.Injective (polish : Tree arity → List β) := by
  intro t u h
  have ht := forest?_polish_append t []
  have hu := forest?_polish_append u []
  rw [h, hu] at ht
  simpa [forest?] using ht.symm

/-- What is read back are trees with the given Polish order. -/
theorem flatten_polish_of_forest? {symbols : List β} {trees : List (Tree arity)}
    (h : forest? arity symbols = some trees) : (trees.map polish).flatten = symbols := by
  induction symbols generalizing trees with
  | nil =>
    obtain rfl : [] = trees := by simpa [forest?] using h
    rfl
  | cons b rest ih =>
    simp only [forest?] at h
    cases hrest : forest? arity rest with
    | none => simp [hrest] at h
    | some below =>
      by_cases hb : arity b ≤ below.length
      · obtain rfl : node b (fun k => below.get (k.castLE hb)) :: below.drop (arity b) = trees := by
          simpa [hrest, hb] using h
        have htake : (List.ofFn fun k : Fin (arity b) => (below.get (k.castLE hb)).polish) =
            (below.take (arity b)).map polish := by
          apply List.ext_getElem
          · simp [hb]
          · intro i _ _
            simp
        rw [List.map_cons, List.flatten_cons, polish, htake, List.cons_append,
          ← List.flatten_append, ← List.map_append, List.take_append_drop, ih hrest]
      · simp [hrest, hb] at h

/-- Symbols that leave one result on the stack are the Polish order of exactly one tree. -/
theorem existsUnique_polish_eq {symbols : List β}
    (h : stackHeight? (symbols.map arity) = some 1) : ∃! t : Tree arity, t.polish = symbols := by
  rw [← map_length_forest?, Option.map_eq_some_iff] at h
  obtain ⟨trees, hforest, hlength⟩ := h
  obtain ⟨t, rfl⟩ := List.length_eq_one_iff.mp hlength
  refine ⟨t, by simpa using flatten_polish_of_forest? hforest, ?_⟩
  intro u hu
  apply polish_injective
  rw [hu, ← flatten_polish_of_forest? hforest]
  simp

/-- The symbols of a tree leave one more result on the stack. -/
theorem stackHeight?_polish_append (t : Tree arity) (rest : List β) :
    stackHeight? ((t.polish ++ rest).map arity) =
      (stackHeight? (rest.map arity)).map (· + 1) := by
  rw [← map_length_forest?, ← map_length_forest?, forest?_polish_append, Option.map_map,
    Option.map_map]
  rfl

end Tree

end Logo
