import Logo.Proofs.Evaluation.Brackets
import Logo.Proofs.Text.Enclosed

/-!
# Cuts at the top level

A separator counts if it stands outside of literals and of brackets of both kinds. A text is cut at
the first separator that counts, and what is behind it is cut in the same way; a text in which none
counts stays whole.
-/

namespace Logo.Text

/-- How deep a reader stands in literals and brackets. -/
structure Level where
  mode : LiteralMode
  /-- The number of open brackets, round and square ones. -/
  depth : ℕ

namespace Level

/-- Outside of all literals and brackets. -/
def top : Level := ⟨.outside, 0⟩

/-- The level after one more character. A closing bracket without a partner does not count. -/
def read (n : Level) (c : Char) : Level :=
  if n.mode ≠ .outside then { n with mode := n.mode.step c }
  else if c = '(' ∨ c = '[' then { n with depth := n.depth + 1 }
  else if c = ')' ∨ c = ']' then { n with depth := n.depth - 1 }
  else { n with mode := LiteralMode.outside.step c }

/-- The level after some characters. -/
def after (n : Level) (cs : List Char) : Level := cs.foldl read n

end Level

variable {separator c : Char} {n : Level} {cs left right left' right' : List Char}

/-- The separator in front of `right` is the first one in a text that counts. -/
structure CutAt (separator : Char) (cs left right : List Char) : Prop where
  eq_append : cs = left ++ separator :: right
  after_left : Level.top.after left = .top
  first : ∀ l r, left = l ++ separator :: r → Level.top.after l ≠ .top

namespace CutAt

/-- A text has only one first separator. -/
theorem unique (h : CutAt separator cs left right) (h' : CutAt separator cs left' right') :
    left = left' ∧ right = right' := by
  have heq : left ++ separator :: right = left' ++ separator :: right' :=
    h.eq_append.symm.trans h'.eq_append
  obtain ⟨between, hleft, hright⟩ | ⟨between, hleft, hright⟩ := List.append_eq_append_iff.mp heq
  · cases between with
    | nil => simp_all
    | cons d between =>
      obtain ⟨rfl, -⟩ := List.cons.inj hright
      exact absurd h.after_left (h'.first _ _ hleft)
  · cases between with
    | nil => simp_all
    | cons d between =>
      obtain ⟨rfl, -⟩ := List.cons.inj hright
      exact absurd h'.after_left (h.first _ _ hleft)

/-- A text has a first separator if any counts in it. -/
theorem exists_of_after {r : List Char} (heq : cs = left ++ separator :: r)
    (htop : Level.top.after left = .top) : ∃ left right, CutAt separator cs left right := by
  induction hlength : left.length using Nat.strong_induction_on generalizing left r with
  | _ length ih =>
    by_cases hearlier : ∃ l r, left = l ++ separator :: r ∧ Level.top.after l = .top
    · obtain ⟨l, r', rfl, hl⟩ := hearlier
      refine ih l.length ?_ (r := r' ++ separator :: r) ?_ hl rfl
      · rw [← hlength]
        simp
      · simpa using heq
    · exact ⟨left, r, heq, htop, fun l r' hleft hl => hearlier ⟨l, r', hleft, hl⟩⟩

end CutAt

/-- A separator that counts ends a part. -/
theorem splitTopLevelFrom_separator (h : isDelimiter separator = false) (part rest : List Char) :
    splitTopLevelFrom separator .outside 0 part (separator :: rest) =
      part.reverse :: splitTopLevel separator rest := by
  have hne := ne_of_isDelimiter_eq_false h
  simp [splitTopLevelFrom, hne, splitTopLevel]

/-- Any other character goes on with the part. -/
theorem splitTopLevelFrom_of_passes (h : n = .top → c ≠ separator) (part rest : List Char) :
    splitTopLevelFrom separator n.mode n.depth part (c :: rest) =
      splitTopLevelFrom separator (n.read c).mode (n.read c).depth (c :: part) rest := by
  obtain ⟨mode, depth⟩ := n
  by_cases hmode : mode = .outside
  · subst hmode
    have hcounts : ¬(c = separator ∧ depth = 0) := by
      rintro ⟨rfl, rfl⟩
      exact h rfl rfl
    by_cases hliteral : c = '"' ∨ c = '\''
    · rcases hliteral with rfl | rfl
      · rfl
      · rfl
    · obtain ⟨hquote, hapostrophe⟩ := by simpa only [not_or] using hliteral
      have hstep : LiteralMode.outside.step c = .outside := by
        simp [LiteralMode.step, hquote, hapostrophe]
      by_cases hopening : c = '(' ∨ c = '['
      · simp [splitTopLevelFrom, Level.read, hquote, hapostrophe, hopening]
      · by_cases hclosing : c = ')' ∨ c = ']'
        · simp [splitTopLevelFrom, Level.read, hquote, hapostrophe, hopening, hclosing]
        · simp [splitTopLevelFrom, Level.read, hquote, hapostrophe, hopening, hclosing, hstep,
            hcounts]
  · rw [splitTopLevelFrom]
    · simp [Level.read, hmode]
    · exact hmode

/-- A part goes on to the first separator that counts. -/
theorem splitTopLevelFrom_append_separator (hseparator : isDelimiter separator = false)
    (hafter : n.after left = .top)
    (hfirst : ∀ l r, left = l ++ separator :: r → n.after l ≠ .top) (part right : List Char) :
    splitTopLevelFrom separator n.mode n.depth part (left ++ separator :: right) =
      (part.reverse ++ left) :: splitTopLevel separator right := by
  induction left generalizing n part with
  | nil =>
    obtain rfl : n = .top := hafter
    rw [List.nil_append, List.append_nil]
    exact splitTopLevelFrom_separator hseparator part right
  | cons c left ih =>
    have hpasses : n = .top → c ≠ separator := by
      rintro rfl rfl
      exact hfirst [] left rfl rfl
    rw [List.cons_append, splitTopLevelFrom_of_passes hpasses,
      ih hafter fun l r hleft => hfirst (c :: l) r (by rw [hleft, List.cons_append])]
    simp

/-- A part goes on to the end if no separator counts. -/
theorem splitTopLevelFrom_of_forall_ne (h : ∀ l r, cs = l ++ separator :: r → n.after l ≠ .top)
    (part : List Char) :
    splitTopLevelFrom separator n.mode n.depth part cs = [part.reverse ++ cs] := by
  induction cs generalizing n part with
  | nil => simp [splitTopLevelFrom]
  | cons c cs ih =>
    have hpasses : n = .top → c ≠ separator := by
      rintro rfl rfl
      exact h [] cs rfl rfl
    rw [splitTopLevelFrom_of_passes hpasses,
      ih fun l r hcs => h (c :: l) r (by rw [hcs, List.cons_append])]
    simp

/-- A text is cut at the first separator that counts. -/
theorem CutAt.splitTopLevel_eq (h : CutAt separator cs left right)
    (hseparator : isDelimiter separator = false) :
    splitTopLevel separator cs = left :: splitTopLevel separator right := by
  rw [h.eq_append]
  exact splitTopLevelFrom_append_separator hseparator h.after_left h.first [] right

/-- A text in which no separator counts is one part. -/
theorem splitTopLevel_of_not_cutAt (h : ∀ left right, ¬CutAt separator cs left right) :
    splitTopLevel separator cs = [cs] := by
  have hnone : ∀ l r, cs = l ++ separator :: r → Level.top.after l ≠ .top := by
    intro l r heq htop
    obtain ⟨left, right, hcut⟩ := CutAt.exists_of_after heq htop
    exact h left right hcut
  exact splitTopLevelFrom_of_forall_ne hnone []

/-- The parts of a text between the separators that count. -/
inductive Parts (separator : Char) : List Char → List (List Char) → Prop
  | whole {cs : List Char} (h : ∀ left right, ¬CutAt separator cs left right) :
      Parts separator cs [cs]
  | cut {cs left right : List Char} {parts : List (List Char)}
      (h : CutAt separator cs left right) (hright : Parts separator right parts) :
      Parts separator cs (left :: parts)

/-- A text is cut into its parts. -/
theorem parts_iff (hseparator : isDelimiter separator = false) {parts : List (List Char)} :
    Parts separator cs parts ↔ splitTopLevel separator cs = parts := by
  constructor
  · intro h
    induction h with
    | whole h => exact splitTopLevel_of_not_cutAt h
    | cut h _ ih => rw [h.splitTopLevel_eq hseparator, ih]
  · rintro rfl
    induction hlength : cs.length using Nat.strong_induction_on generalizing cs with
    | _ length ih =>
      by_cases hcut : ∃ left right, CutAt separator cs left right
      · obtain ⟨left, right, h⟩ := hcut
        have hshorter : right.length < length := by
          rw [← hlength, h.eq_append]
          simp only [List.length_append, List.length_cons]
          omega
        rw [h.splitTopLevel_eq hseparator]
        exact .cut h (ih _ hshorter rfl)
      · have hnone : ∀ left right, ¬CutAt separator cs left right := fun left right h =>
          hcut ⟨left, right, h⟩
        rw [splitTopLevel_of_not_cutAt hnone]
        exact .whole hnone

end Logo.Text
