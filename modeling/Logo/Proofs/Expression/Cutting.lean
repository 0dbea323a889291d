import Logo.Expression.Atom
import Mathlib.Data.List.Infix
import Mathlib.Data.Nat.Notation

/-!
# Cutting as a run over characters

Where a text has no `.<`, the cutting of an expression needs no look at the next character. It is a
run that takes one character at a time and keeps how deep it stands in literals and brackets, the
characters of the current atom and the atoms before it. What can be cut and what the atoms are does
not depend on the expression that the faults name.
-/

namespace Logo

/-! ## Enclosures -/

/-- How deep a reader stands in literals and square brackets. -/
structure Enclosure where
  mode : LiteralMode
  /-- The number of open square brackets. -/
  depth : ℕ
deriving DecidableEq

namespace Enclosure

/-- Outside of all literals and brackets. -/
def top : Enclosure := ⟨.outside, 0⟩

/-- The enclosure after one more character. Brackets in literals are not counted. -/
def read (n : Enclosure) (c : Char) : Enclosure :=
  if n.mode ≠ .outside then { n with mode := n.mode.step c }
  else if c = '[' then { n with depth := n.depth + 1 }
  else if c = ']' then { n with depth := n.depth - 1 }
  else { n with mode := LiteralMode.outside.step c }

/-- The enclosure after some characters. -/
def after (n : Enclosure) (cs : List Char) : Enclosure := cs.foldl read n

/-- No characters leave the enclosure as it is. -/
@[simp] theorem after_nil (n : Enclosure) : n.after [] = n := rfl

/-- The enclosure after some characters is that of the rest after the first one. -/
@[simp] theorem after_cons (n : Enclosure) (c : Char) (cs : List Char) :
    n.after (c :: cs) = (n.read c).after cs := rfl

/-- The enclosure after two texts in a row is that of the second after the first. -/
@[simp] theorem after_append (n : Enclosure) (cs rest : List Char) :
    n.after (cs ++ rest) = (n.after cs).after rest :=
  List.foldl_append

/-- A character without a meaning for literals and brackets leaves a reader where it stands. -/
theorem read_of_not_mem {n : Enclosure} (hmode : n.mode = .outside) {c : Char}
    (hc : c ∉ ['"', '\'', '[', ']']) : n.read c = n := by
  obtain ⟨mode, depth⟩ := n
  simp only [List.mem_cons, List.not_mem_nil, or_false, not_or] at hc
  simp_all [read, LiteralMode.step]

/-- What ends an atom leaves a reader where it stands. -/
theorem read_of_ends {c : Char} (hc : Text.isBlank c = true ∨ isPunctuation c = true) :
    top.read c = top := by
  refine read_of_not_mem rfl fun hmem => ?_
  simp only [List.mem_cons, List.not_mem_nil, or_false] at hmem
  rcases hmem with rfl | rfl | rfl | rfl <;> revert hc <;> decide

/-- In a literal only the literal counts. -/
theorem read_of_mode_ne {n : Enclosure} (hmode : n.mode ≠ .outside) (c : Char) :
    n.read c = ⟨n.mode.step c, n.depth⟩ := by
  rw [read, if_pos hmode]

/-- The mode in which an expression is cut at an enclosure. -/
def atomMode (n : Enclosure) : AtomMode :=
  if n.depth = 0 then if n.mode = .outside then .free else .literal n.mode
  else .bracket n.mode n.depth

/-- Outside of all literals and brackets, an expression is cut freely. -/
theorem atomMode_top : top.atomMode = .free := rfl

/-- A reader is outside of everything if it is in no literal and no bracket. -/
theorem eq_top_iff {n : Enclosure} : n = top ↔ n.mode = .outside ∧ n.depth = 0 := by
  obtain ⟨mode, depth⟩ := n
  simp [top]

/-- Inside of a literal or a bracket, an expression is not cut freely. -/
theorem atomMode_ne_free {n : Enclosure} (h : n ≠ top) : n.atomMode ≠ .free := by
  rw [ne_eq, eq_top_iff] at h
  unfold atomMode
  split_ifs with hdepth hmode
  · exact absurd ⟨hmode, hdepth⟩ h
  · exact AtomMode.noConfusion
  · exact AtomMode.noConfusion

/-- Inside a part that stays whole, the mode follows the enclosure. -/
theorem step_atomMode {n : Enclosure} (h : n ≠ top) (c : Char) :
    n.atomMode.step c = (n.read c).atomMode := by
  rw [ne_eq, eq_top_iff] at h
  obtain ⟨mode, depth⟩ := n
  by_cases hmode : mode = .outside
  · subst hmode
    have hdepth : depth ≠ 0 := fun hdepth => h ⟨rfl, hdepth⟩
    by_cases hopen : c = '['
    · simp [atomMode, read, AtomMode.step, hdepth, hopen]
    by_cases hclose : c = ']'
    · have hlast : depth - 1 = 0 ↔ depth ≤ 1 := by omega
      simp [atomMode, read, AtomMode.step, hdepth, hclose, hlast]
    · simp [atomMode, read, AtomMode.step, hdepth, hopen, hclose]
  · rw [read_of_mode_ne hmode]
    by_cases hdepth : depth = 0
    · simp [atomMode, hdepth, hmode, AtomMode.step]
    · simp only [atomMode, hdepth, if_false]
      cases mode with
      | outside => exact absurd rfl hmode
      | string | stringEscape | character | characterEscape => rfl

end Enclosure

/-! ## The run -/

/-- The state of the cutting between two characters. -/
structure Cutting where
  enclosure : Enclosure := .top
  /-- The characters of the current atom, last first. -/
  atom : List Char := []
  /-- The atoms before the current one. -/
  atoms : List String := []
deriving DecidableEq

namespace Cutting

/-- Adds a character to the current atom. -/
def push (s : Cutting) (c : Char) : Cutting :=
  { s with enclosure := s.enclosure.read c, atom := c :: s.atom }

/-- Ends the current atom, if there is one. -/
def flush (s : Cutting) : Cutting :=
  { s with atom := [], atoms := s.atoms ++ consAtom s.atom [] }

/-- Ending an atom does not change how deep the reader stands. -/
@[simp] theorem enclosure_flush (s : Cutting) : s.flush.enclosure = s.enclosure := rfl

/-- An atom that has been ended is not ended once more. -/
@[simp] theorem flush_flush (s : Cutting) : s.flush.flush = s.flush := by
  simp [flush, consAtom]

/-- Reads a character. -/
def read (s : Cutting) (c : Char) : Option Cutting :=
  if s.enclosure ≠ .top then some (s.push c)
  else if c = ']' then none
  else if Text.isBlank c then some s.flush
  else if isPunctuation c then some { s.flush with atoms := s.flush.atoms ++ [c.toString] }
  else some (s.push c)

/-- The atoms of a text that ends here. -/
def finish? (s : Cutting) : Option (List String) :=
  if s.enclosure = .top then some s.flush.atoms else none

/-- A text may end outside of all literals and brackets only, and its last atom ends with it. -/
theorem finish?_eq_some_iff {s : Cutting} {atoms : List String} :
    s.finish? = some atoms ↔ s.enclosure = .top ∧ s.flush.atoms = atoms := by
  simp [finish?]

end Cutting

/-- An expression must not end in a part that stays whole. -/
theorem AtomMode.exists_unfinished? (expression : String) {mode : AtomMode} (h : mode ≠ .free) :
    ∃ fault, mode.unfinished? expression = some fault := by
  cases mode with
  | free => exact absurd rfl h
  | literal mode => cases mode <;> exact ⟨_, rfl⟩
  | bracket | name => exact ⟨_, rfl⟩

/-- The character after a `.` in a text without `.<` starts no name. -/
theorem AtomMode.opening?_of_not_infix {c : Char} {rest : List Char}
    (h : ¬['.', '<'] <:+: c :: rest) : opening? c rest.head? = opening? c none := by
  have hname : ¬(c = '.' ∧ rest.head? = some '<') := by
    rintro ⟨rfl, hhead⟩
    obtain ⟨tail, rfl⟩ := List.head?_eq_some_iff.mp hhead
    exact h ⟨[], tail, rfl⟩
  simp only [not_and] at hname
  by_cases hdot : c = '.'
  · simp [opening?, hdot, hname hdot]
  · simp [opening?, hdot]

/-- An atom in front of others is an atom by itself. -/
theorem consAtom_eq_append (atom : List Char) (atoms : List String) :
    consAtom atom atoms = consAtom atom [] ++ atoms := by
  unfold consAtom
  split <;> rfl

/-- A mapped result that is a success has the mapped value. -/
theorem toOption_map {ε α β : Type} (e : Except ε α) (f : α → β) :
    (e.map f).toOption = e.toOption.map f := by
  cases e <;> rfl

namespace Cutting

variable {s t : Cutting} {c : Char}

/-- Inside of a literal or a bracket, each character belongs to the current atom. -/
theorem read_of_ne_top (h : s.enclosure ≠ .top) (c : Char) : s.read c = some (s.push c) := by
  rw [read, if_pos h]

/-- A closing bracket without a partner cannot be read. -/
theorem read_bracket (h : s.enclosure = .top) : s.read ']' = none := by
  rw [read, if_neg (not_not.mpr h), if_pos rfl]

/-- A blank ends an atom. -/
theorem read_blank (h : s.enclosure = .top) (hc : Text.isBlank c = true) :
    s.read c = some s.flush := by
  have hne : c ≠ ']' := by
    rintro rfl
    cases hc
  rw [read, if_neg (not_not.mpr h), if_neg hne, if_pos hc]

/-- A punctuation character ends an atom and is one of its own. -/
theorem read_punctuation (h : s.enclosure = .top) (hc : c ≠ ']') (hblank : Text.isBlank c = false)
    (hpunctuation : isPunctuation c = true) :
    s.read c = some { s.flush with atoms := s.flush.atoms ++ [c.toString] } := by
  simp [read, h, hc, hblank, hpunctuation]

/-- Other characters than blanks and punctuation go on with an atom. -/
theorem read_other (hc : c ≠ ']') (hblank : Text.isBlank c = false)
    (hpunctuation : isPunctuation c = false) : s.read c = some (s.push c) := by
  simp [read, hc, hblank, hpunctuation]

/-- The atoms in front of the current one stay in front. -/
theorem append_comp_consAtom (s : Cutting) :
    (s.atoms ++ ·) ∘ consAtom s.atom = (s.flush.atoms ++ ·) := by
  funext atoms
  simp only [Function.comp_apply, flush, consAtom_eq_append s.atom atoms, List.append_assoc]

/-- The cutting of a text goes on after its first character. -/
theorem splitAtomsFrom_cons {rest : List Char} (h : ¬['.', '<'] <:+: c :: rest)
    (expression : String) (s : Cutting) :
    (splitAtomsFrom expression s.enclosure.atomMode s.atom (c :: rest)).toOption.map
        (s.atoms ++ ·) =
      (s.read c).bind fun t =>
        (splitAtomsFrom expression t.enclosure.atomMode t.atom rest).toOption.map
          (t.atoms ++ ·) := by
  by_cases htop : s.enclosure = .top
  · rw [htop, Enclosure.atomMode_top, splitAtomsFrom, AtomMode.opening?_of_not_infix h]
    by_cases hopening : c = '"' ∨ c = '\'' ∨ c = '['
    · obtain ⟨hmode, hc, hblank, hpunctuation⟩ :
          AtomMode.opening? c none = some (Enclosure.top.read c).atomMode ∧ c ≠ ']' ∧
            Text.isBlank c = false ∧ isPunctuation c = false := by
        rcases hopening with rfl | rfl | rfl <;> decide
      rw [hmode, read_other hc hblank hpunctuation]
      simp [push, htop]
    · obtain ⟨hquote, hapostrophe, hbracket⟩ := by simpa only [not_or] using hopening
      have hmode : AtomMode.opening? c none = none := by
        simp [AtomMode.opening?, hquote, hapostrophe, hbracket]
      simp only [hmode]
      by_cases hc : c = ']'
      · rw [if_pos hc, hc, read_bracket htop]
        rfl
      · rw [if_neg hc]
        by_cases hblank : Text.isBlank c = true
        · rw [if_pos hblank, read_blank htop hblank, toOption_map, Option.map_map,
            append_comp_consAtom]
          simp only [flush, htop, Enclosure.atomMode_top, Option.bind_some]
        · rw [if_neg hblank]
          rw [Bool.not_eq_true] at hblank
          by_cases hpunctuation : isPunctuation c = true
          · have hcons : (fun atoms => consAtom s.atom (c.toString :: atoms)) =
                consAtom s.atom ∘ ([c.toString] ++ ·) := rfl
            rw [if_pos hpunctuation, read_punctuation htop hc hblank hpunctuation, toOption_map,
              hcons, Option.map_map, ← Function.comp_assoc, append_comp_consAtom, Option.bind_some]
            simp [flush, htop, Enclosure.atomMode_top, Function.comp_def]
          · have htop' : Enclosure.top.read c = .top :=
              Enclosure.read_of_not_mem rfl (by simp [hquote, hapostrophe, hbracket, hc])
            rw [if_neg hpunctuation, read_other hc hblank (Bool.not_eq_true _ ▸ hpunctuation)]
            simp only [push, htop, htop', Enclosure.atomMode_top, Option.bind_some]
  · rw [read_of_ne_top htop, splitAtomsFrom, Enclosure.step_atomMode htop]
    · rfl
    · exact Enclosure.atomMode_ne_free htop

end Cutting

/-- The cutting of a text without `.<` is a run over its characters. -/
theorem splitAtomsFrom_eq_foldlM {cs : List Char} (h : ¬['.', '<'] <:+: cs) (expression : String)
    (s : Cutting) :
    (splitAtomsFrom expression s.enclosure.atomMode s.atom cs).toOption.map (s.atoms ++ ·) =
      (cs.foldlM Cutting.read s).bind Cutting.finish? := by
  induction cs generalizing s with
  | nil =>
    rw [List.foldlM_nil, splitAtomsFrom]
    by_cases htop : s.enclosure = .top
    · simp [htop, Enclosure.atomMode_top, AtomMode.unfinished?, Cutting.finish?, Cutting.flush,
        Except.toOption]
    · obtain ⟨fault, hfault⟩ :=
        AtomMode.exists_unfinished? expression (Enclosure.atomMode_ne_free htop)
      simp [hfault, htop, Cutting.finish?, Except.toOption]
  | cons c rest ih =>
    have hrest : ¬['.', '<'] <:+: rest := fun hin => h (List.infix_cons hin)
    rw [Cutting.splitAtomsFrom_cons h, List.foldlM_cons]
    simp only [ih hrest]
    exact (Option.bind_assoc _ _ _).symm

/-- A text without `.<` is cut into the atoms that a run over its characters finds. -/
theorem splitAtoms_eq_ok_iff {expression : String} (h : ¬['.', '<'] <:+: expression.toList)
    {atoms : List String} :
    splitAtoms expression = .ok atoms ↔
      ∃ s, expression.toList.foldlM Cutting.read {} = some s ∧ s.finish? = some atoms := by
  have hrun := splitAtomsFrom_eq_foldlM h expression {}
  rw [← Option.bind_eq_some_iff, ← hrun]
  have hstart : splitAtomsFrom expression ({} : Cutting).enclosure.atomMode ({} : Cutting).atom
      expression.toList = splitAtoms expression := rfl
  rw [hstart]
  cases splitAtoms expression <;> simp [Except.toOption]

/-! ## Reading on -/

namespace Cutting

variable {s t : Cutting} {cs : List Char}

/-- A character is added to the current atom, or it ends this atom outside of literals and
brackets. -/
theorem read_cases {c : Char} (h : s.read c = some t) :
    t = s.push c ∨
      s.enclosure = .top ∧ ∃ more, t = { s.flush with atoms := s.flush.atoms ++ more } := by
  unfold read at h
  split_ifs at h with htop _ hblank hpunctuation
  · exact .inl (Option.some.inj h).symm
  · refine .inr ⟨not_not.mp htop, [], ?_⟩
    rw [List.append_nil]
    exact (Option.some.inj h).symm
  · exact .inr ⟨not_not.mp htop, [c.toString], (Option.some.inj h).symm⟩
  · exact .inl (Option.some.inj h).symm

/-- The cutting and the enclosure are read side by side. -/
theorem enclosure_of_read {c : Char} (h : s.read c = some t) :
    t.enclosure = s.enclosure.read c := by
  unfold read at h
  split_ifs at h with htop _ hblank hpunctuation
  · rw [← Option.some.inj h, push]
  · rw [← Option.some.inj h, not_not.mp htop, Enclosure.read_of_ends (.inl hblank)]
    exact not_not.mp htop
  · rw [← Option.some.inj h, not_not.mp htop, Enclosure.read_of_ends (.inr hpunctuation)]
    exact not_not.mp htop
  · rw [← Option.some.inj h, push]

/-- The enclosure of the cutting is the one after the characters that have been read. -/
theorem enclosure_of_foldlM (h : cs.foldlM read s = some t) :
    t.enclosure = s.enclosure.after cs := by
  induction cs generalizing s with
  | nil =>
    cases h
    rfl
  | cons c cs ih =>
    rw [List.foldlM_cons] at h
    obtain ⟨u, hread, hrest⟩ := Option.bind_eq_some_iff.mp h
    rw [ih hrest, enclosure_of_read hread, Enclosure.after_cons]

/-- The current atom alone leads to the enclosure of the cutting. -/
theorem enclosure_eq_after_atom (hs : s.enclosure = Enclosure.top.after s.atom.reverse)
    (h : cs.foldlM read s = some t) : t.enclosure = Enclosure.top.after t.atom.reverse := by
  induction cs generalizing s with
  | nil =>
    cases h
    exact hs
  | cons c cs ih =>
    rw [List.foldlM_cons] at h
    obtain ⟨u, hread, hrest⟩ := Option.bind_eq_some_iff.mp h
    refine ih ?_ hrest
    obtain rfl | ⟨htop, more, rfl⟩ := read_cases hread
    · simp [push, hs]
    · exact htop

/-- The atoms that have been found stay in front. -/
theorem atoms_prefix_of_foldlM (h : cs.foldlM read s = some t) {atoms : List String}
    (hfinish : t.finish? = some atoms) : s.atoms <+: atoms := by
  induction cs generalizing s with
  | nil =>
    cases h
    obtain ⟨_, rfl⟩ := finish?_eq_some_iff.mp hfinish
    exact List.prefix_append _ _
  | cons c cs ih =>
    rw [List.foldlM_cons] at h
    obtain ⟨u, hread, hrest⟩ := Option.bind_eq_some_iff.mp h
    refine List.IsPrefix.trans ?_ (ih hrest)
    obtain rfl | ⟨_, more, rfl⟩ := read_cases hread
    · exact List.prefix_rfl
    · exact (List.prefix_append _ _).trans (List.prefix_append _ _)

/-- The atom in hand is among the atoms once it has been ended. -/
theorem mem_flush_atoms (h : s.atom ≠ []) : String.ofList s.atom.reverse ∈ s.flush.atoms := by
  simp [flush, consAtom, h]

/-- An atom that has been begun is found, with the characters read of it in front. -/
theorem exists_mem_of_foldlM (hatom : s.atom ≠ []) (h : cs.foldlM read s = some t)
    {atoms : List String} (hfinish : t.finish? = some atoms) :
    ∃ rest, String.ofList (s.atom.reverse ++ rest) ∈ atoms := by
  induction cs generalizing s with
  | nil =>
    cases h
    obtain ⟨_, rfl⟩ := finish?_eq_some_iff.mp hfinish
    exact ⟨[], by simpa using mem_flush_atoms hatom⟩
  | cons c cs ih =>
    rw [List.foldlM_cons] at h
    obtain ⟨u, hread, hrest⟩ := Option.bind_eq_some_iff.mp h
    obtain rfl | ⟨_, more, rfl⟩ := read_cases hread
    · obtain ⟨rest, hmem⟩ := ih (by simp [push]) hrest
      exact ⟨c :: rest, by simpa [push] using hmem⟩
    · have hfound := List.mem_append_left more (mem_flush_atoms hatom)
      exact ⟨[], by simpa using (atoms_prefix_of_foldlM hrest hfinish).subset hfound⟩

end Cutting

end Logo
