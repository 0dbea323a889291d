import Logo.Proofs.Evaluation.Brackets
import Logo.Proofs.Expression.Cutting
import Logo.Proofs.Path.Name

/-!
# Stray characters in paths

Neither a `#` nor a `;` is part of a path, other than inside of its brackets. A text that holds one
outside of literals and brackets, or that ends with one, cannot be read as a path.
-/

namespace Logo

variable {c : Char} {cs x y rest : List Char} {k : ℕ}

/-! ## Where literals and brackets end -/

/-- A literal ends no later than the characters after which a reader stands outside of it. -/
theorem LiteralMode.lt_of_closing? {mode : LiteralMode} (hmode : mode ≠ .outside)
    (h : mode.closing? (cs ++ rest) = some k) (hcs : Enclosure.after ⟨mode, 0⟩ cs = .top) :
    k < cs.length := by
  induction cs generalizing mode k with
  | nil => exact absurd (Enclosure.eq_top_iff.mp hcs).1 hmode
  | cons c cs ih =>
    rw [Enclosure.after_cons, Enclosure.read_of_mode_ne hmode] at hcs
    rw [List.cons_append, closing?] at h
    by_cases hend : mode.step c = .outside
    · rw [if_pos hend] at h
      cases h
      simp
    · rw [if_neg hend] at h
      obtain ⟨k, hk, rfl⟩ := Option.map_eq_some_iff.mp h
      simpa using ih hend hk hcs

/-- A bracket is open behind a character, unless this closes the last one. -/
theorem Enclosure.depth_read_pos {n : Enclosure} (hdepth : 0 < n.depth)
    (h : ¬(n.mode = .outside ∧ c = ']' ∧ n.depth ≤ 1)) : 0 < (n.read c).depth := by
  unfold read
  split_ifs with hmode hopen hclose
  · exact hdepth
  · exact Nat.succ_pos _
  · have hmany : ¬n.depth ≤ 1 := fun hle => h ⟨not_not.mp hmode, hclose, hle⟩
    exact Nat.sub_pos_of_lt (Nat.lt_of_not_le hmany)
  · exact hdepth

namespace Text

/-- What ends a bracket is a `]`. -/
theorem getElem?_of_bracketOffset? {mode : LiteralMode} {depth : ℕ}
    (h : bracketOffset? mode depth cs = some k) : cs[k]? = some ']' := by
  fun_induction bracketOffset? mode depth cs generalizing k with
  | case1 | case3 => cases h
  | case4 =>
    cases h
    rfl
  | case2 _ _ ih | case5 _ _ _ ih | case6 _ _ _ _ _ ih | case7 _ _ _ _ _ ih =>
    obtain ⟨k, hk, rfl⟩ := Option.map_eq_some_iff.mp h
    exact ih hk

/-- The end of a bracket is looked for from the character behind the one that opens it. -/
theorem exists_of_matchingBracket? {close : ℕ} (h : matchingBracket? ('[' :: cs) 0 = some close) :
    ∃ k, bracketOffset? .outside 1 cs = some k ∧ k + 1 = close := by
  simpa [matchingBracket?, bracketOffset?] using h

/-- The search for the end of a bracket goes on from the enclosure after a character, unless this
closes the last bracket or has no partner. -/
theorem bracketOffset?_cons_eq (n : Enclosure) (c : Char) (cs : List Char) :
    bracketOffset? n.mode n.depth (c :: cs) =
      if n.mode = .outside ∧ c = ']' ∧ n.depth ≤ 1 then if n.depth = 1 then some 0 else none
      else (bracketOffset? (n.read c).mode (n.read c).depth cs).map (· + 1) := by
  obtain ⟨mode, depth⟩ := n
  by_cases hmode : mode = .outside
  · subst hmode
    by_cases hopen : c = '['
    · simp [bracketOffset?, Enclosure.read, hopen]
    by_cases hclose : c = ']'
    · obtain _ | _ | depth := depth
      · simp [bracketOffset?, hclose]
      · simp [bracketOffset?, hclose]
      · simp [bracketOffset?, Enclosure.read, hclose]
    · simp [bracketOffset?, Enclosure.read, hopen, hclose]
  · rw [Enclosure.read_of_mode_ne hmode, if_neg fun h => hmode h.1]
    rw [bracketOffset?]
    exact hmode

/-- A bracket ends with a character, or the search for its end goes on from the enclosure after the
character. -/
theorem bracketOffset?_cons {n : Enclosure} (hdepth : 0 < n.depth)
    (h : bracketOffset? n.mode n.depth (c :: cs) = some k) :
    n.read c = .top ∧ k = 0 ∨
      0 < (n.read c).depth ∧
        ∃ j, k = j + 1 ∧ bracketOffset? (n.read c).mode (n.read c).depth cs = some j := by
  rw [bracketOffset?_cons_eq] at h
  by_cases hlast : n.mode = .outside ∧ c = ']' ∧ n.depth ≤ 1
  · obtain ⟨hmode, rfl, hle⟩ := hlast
    have hone : n.depth = 1 := Nat.le_antisymm hle hdepth
    rw [if_pos ⟨hmode, rfl, hle⟩, if_pos hone] at h
    exact .inl ⟨by simp [Enclosure.read, hmode, hone, Enclosure.top], (Option.some.inj h).symm⟩
  · rw [if_neg hlast] at h
    obtain ⟨j, hj, rfl⟩ := Option.map_eq_some_iff.mp h
    exact .inr ⟨Enclosure.depth_read_pos hdepth hlast, j, rfl, hj⟩

/-- A bracket ends no later than the characters after which a reader stands outside of it, and from
its end on these lead outside again. -/
theorem lt_of_bracketOffset? {n : Enclosure} (hdepth : 0 < n.depth)
    (h : bracketOffset? n.mode n.depth (cs ++ rest) = some k) (hcs : n.after cs = .top) :
    k < cs.length ∧ Enclosure.top.after (cs.drop (k + 1)) = .top := by
  induction cs generalizing n k with
  | nil =>
    have hzero : n.depth = 0 := (Enclosure.eq_top_iff.mp hcs).2
    omega
  | cons c cs ih =>
    rw [Enclosure.after_cons] at hcs
    obtain ⟨htop, rfl⟩ | ⟨hpos, j, rfl, hj⟩ := bracketOffset?_cons hdepth h
    · exact ⟨by simp, by simpa [htop] using hcs⟩
    · obtain ⟨hlt, hrest⟩ := ih hpos hj hcs
      exact ⟨by simpa using hlt, by simpa using hrest⟩

end Text

/-! ## Reading paths -/

/-- The characters of a path that are neither part of a name nor of a literal or bracket. -/
def strayChars : List Char := ['#', ';']

/-- A stray character is no part of a name, no blank, and opens and closes nothing. -/
theorem strayChars_spec (hc : c ∈ strayChars) :
    isIdentChar c = false ∧ Text.isBlank c = false ∧ c ∉ ['.', '[', ']', '"', '\''] := by
  simp only [strayChars, List.mem_cons, List.not_mem_nil, or_false] at hc
  rcases hc with rfl | rfl <;> decide

namespace Enclosure

/-- Characters that leave a reader outside of everything do so one after another. -/
theorem after_of_forall_read {p : Char → Bool} (hp : ∀ c, p c = true → top.read c = top)
    (h : ∀ c ∈ cs, p c = true) : top.after cs = top := by
  induction cs with
  | nil => rfl
  | cons c cs ih =>
    obtain ⟨hc, hcs⟩ := List.forall_mem_cons.mp h
    rw [after_cons, hp c hc, ih hcs]

/-- Characters that leave a reader outside can be taken off the front. -/
theorem after_dropWhile {p : Char → Bool} (hp : ∀ c, p c = true → top.read c = top)
    (h : top.after cs = top) : top.after (cs.dropWhile p) = top := by
  rw [← List.takeWhile_append_dropWhile (p := p) (l := cs), after_append,
    after_of_forall_read hp fun c hc => List.mem_takeWhile_imp hc] at h
  exact h

/-- A character of an identifier leaves a reader outside of everything. -/
theorem read_of_isIdentChar (hc : isIdentChar c = true) : top.read c = top := by
  refine read_of_not_mem rfl fun hmem => ?_
  simp only [List.mem_cons, List.not_mem_nil, or_false] at hmem
  rcases hmem with rfl | rfl | rfl | rfl <;> revert hc <;> decide

end Enclosure

/-- A run of characters ends in front of one that is not of their kind. -/
theorem dropWhile_append_cons {p : Char → Bool} (hc : p c = false) (x y : List Char) :
    (x ++ c :: y).dropWhile p = x.dropWhile p ++ c :: y := by
  rw [List.dropWhile_append]
  split
  · next hempty => simp_all
  · rfl

/-- What is left behind the first characters of a kind is what remains when they are dropped. -/
theorem drop_length_takeWhile (p : Char → Bool) (cs : List Char) :
    cs.drop (cs.takeWhile p).length = cs.dropWhile p := by
  induction cs with
  | nil => rfl
  | cons c cs ih => by_cases hc : p c = true <;> simp [hc, ih]

/-- A character in a text that does not start with it stands behind the first one. -/
theorem exists_of_append_cons_eq {d : Char} (h : x ++ c :: y = d :: rest) (hne : c ≠ d) :
    ∃ x', x = d :: x' ∧ x' ++ c :: y = rest := by
  cases x with
  | nil => exact absurd (List.cons.inj h).1 hne
  | cons d' x =>
    obtain ⟨rfl, hrest⟩ := List.cons.inj h
    exact ⟨x, rfl, hrest⟩

namespace Path

/-- Parts without a flaw are fields, of a point and a name, and brackets that end. -/
@[elab_as_elim]
theorem parts_induction {motive : List Char → Prop}
    (h : ∀ flaw, Part.flawed flaw ∉ parts cs) (nil : motive [])
    (field : ∀ name rest, name ≠ [] → (∀ c ∈ name, isIdentChar c = true) → motive rest →
      motive ('.' :: (name ++ rest)))
    (index : ∀ cs k, Text.bracketOffset? .outside 1 cs = some k → motive (cs.drop (k + 1)) →
      motive ('[' :: cs)) : motive cs := by
  fun_induction parts cs with
  | case1 => exact nil
  | case2 | case4 | case6 => exact absurd (List.mem_singleton_self _) (h _)
  | case3 rest name hname =>
    rename_i ih
    have hrest : name ++ rest.drop name.length = rest := by
      rw [drop_length_takeWhile]
      exact List.takeWhile_append_dropWhile
    have hparts := ih fun flaw hflaw => h flaw (List.mem_cons_of_mem _ hflaw)
    rw [← hrest]
    exact field name _ (by simpa using hname) (fun c hc => List.mem_takeWhile_imp hc) hparts
  | case5 rest close _ hclose ih =>
    obtain ⟨k, hk, rfl⟩ := Text.exists_of_matchingBracket? hclose
    exact index rest k hk (ih fun flaw hflaw => h flaw (List.mem_cons_of_mem _ hflaw))

/-- What stands in brackets ends before a character that is outside of them, or that is the last
one and no bracket. -/
theorem lt_of_matchingBracket? {close : ℕ}
    (h : Text.matchingBracket? ('[' :: (x ++ c :: y)) 0 = some close)
    (hx : Enclosure.top.after ('[' :: x) = .top ∨ y = [] ∧ c ≠ ']') :
    close ≤ x.length ∧ (Enclosure.top.after (x.drop close) = .top ∨ y = [] ∧ c ≠ ']') := by
  obtain ⟨k, hk, rfl⟩ := Text.exists_of_matchingBracket? h
  rcases hx with hx | ⟨rfl, hc⟩
  · obtain ⟨hlt, hafter⟩ := Text.lt_of_bracketOffset? (n := ⟨.outside, 1⟩) Nat.one_pos hk hx
    exact ⟨hlt, .inl hafter⟩
  · refine ⟨?_, .inr ⟨rfl, hc⟩⟩
    have hclose := Text.getElem?_of_bracketOffset? hk
    have hlt := (List.getElem?_eq_some_iff.mp hclose).1
    rcases Nat.lt_or_ge k x.length with hk' | hk'
    · exact hk'
    · obtain rfl : k = x.length := by simp at hlt; omega
      exact absurd (by simpa using hclose) hc

/-- Whether a character can stand in a path outside of literals and brackets, or opens a bracket. -/
def isPathChar (c : Char) : Bool := isIdentChar c || c = '.' || c = '['

/-- A character that does not belong to paths and is outside of literals and brackets, or that is
the last one, cannot be read as a part of a path. -/
theorem exists_flawed_of_isPathChar (hc : isPathChar c = false)
    (hx : Enclosure.top.after x = .top ∨ y = [] ∧ c ≠ ']') :
    ∃ flaw, Part.flawed flaw ∈ parts (x ++ c :: y) := by
  obtain ⟨⟨hident, hdot⟩, hopen⟩ : (isIdentChar c = false ∧ c ≠ '.') ∧ c ≠ '[' := by
    simpa [isPathChar] using hc
  generalize hcs : x ++ c :: y = cs
  fun_induction parts cs generalizing x with
  | case1 => simp at hcs
  | case2 rest hname => exact ⟨.expectedField, List.mem_singleton_self _⟩
  | case4 rest _ hclose => exact ⟨.unclosedIndex, List.mem_singleton_self _⟩
  | case6 d rest _ _ => exact ⟨.unexpected d, List.mem_singleton_self _⟩
  | case3 rest name hname =>
    rename_i ih
    obtain ⟨x, rfl, rfl⟩ := exists_of_append_cons_eq hcs hdot
    have hread : Enclosure.top.read '.' = .top := rfl
    rw [Enclosure.after_cons, hread] at hx
    have hafter := hx.imp_left (Enclosure.after_dropWhile fun _ => Enclosure.read_of_isIdentChar)
    obtain ⟨flaw, hflaw⟩ := ih hafter (by rw [drop_length_takeWhile, dropWhile_append_cons hident])
    exact ⟨flaw, List.mem_cons_of_mem _ hflaw⟩
  | case5 rest close _ hclose ih =>
    obtain ⟨x, rfl, rfl⟩ := exists_of_append_cons_eq hcs hopen
    obtain ⟨hle, hafter⟩ := lt_of_matchingBracket? hclose hx
    obtain ⟨flaw, hflaw⟩ := ih hafter (List.drop_append_of_le_length hle).symm
    exact ⟨flaw, List.mem_cons_of_mem _ hflaw⟩

/-- Whether a text is a path without a flaw: an identifier and parts that can be read. -/
def Reads (cs : List Char) : Prop :=
  isIdentifierChars (cs.takeWhile fun c => c != '.' && c != '[') = true ∧
    ∀ flaw, Part.flawed flaw ∉
      parts (cs.drop (cs.takeWhile fun c => c != '.' && c != '[').length)

/-- A text with a character that does not belong to paths and is outside of literals and brackets,
or that is the last one, is no path. -/
theorem not_reads_of_isPathChar (hc : isPathChar c = false)
    (hx : Enclosure.top.after x = .top ∨ y = [] ∧ c ≠ ']') : ¬Reads (x ++ c :: y) := by
  rintro ⟨hbase, hparts⟩
  obtain ⟨⟨hident, hdot⟩, hopen⟩ : (isIdentChar c = false ∧ c ≠ '.') ∧ c ≠ '[' := by
    simpa [isPathChar] using hc
  rw [List.takeWhile_append] at hbase hparts
  split at hbase
  · -- The character would be part of the identifier.
    have hmem : c ∈ x ++ (c :: y).takeWhile fun c => c != '.' && c != '[' := by simp [hdot, hopen]
    have htrue := isIdentChar_of_mem hbase hmem
    simp [hident] at htrue
  · next hshort =>
    rw [if_neg hshort, List.drop_append_of_le_length (List.takeWhile_sublist _).length_le,
      drop_length_takeWhile] at hparts
    have hbefore := Enclosure.after_of_forall_read (fun _ => Enclosure.read_of_isIdentChar)
      fun d hd => isIdentChar_of_mem hbase hd
    have hafter := hx.imp_left fun hx => by
      rwa [← List.takeWhile_append_dropWhile (l := x), Enclosure.after_append, hbefore] at hx
    obtain ⟨flaw, hflaw⟩ := exists_flawed_of_isPathChar hc hafter
    exact hparts flaw hflaw

/-- A text with a stray character that is outside of literals and brackets, or that is the last one,
is no path. -/
theorem not_reads_of_stray (hc : c ∈ strayChars) (hx : Enclosure.top.after x = .top ∨ y = []) :
    ¬Reads (x ++ c :: y) := by
  obtain ⟨hident, _, hnot⟩ := strayChars_spec hc
  simp only [List.mem_cons, List.not_mem_nil, or_false, not_or] at hnot
  refine not_reads_of_isPathChar ?_ (hx.imp_right fun hy => ⟨hy, hnot.2.2.1⟩)
  simp [isPathChar, hident, hnot]

/-- Trimming does not go past a character that is no blank. -/
theorem trim_append_cons (hc : Text.isBlank c = false) (x y : List Char) :
    Text.trim (x ++ c :: y) =
      x.dropWhile Text.isBlank ++ c :: (y.reverse.dropWhile Text.isBlank).reverse := by
  rw [Text.trim, dropWhile_append_cons hc, List.reverse_append, List.reverse_cons,
    List.append_assoc, List.singleton_append, dropWhile_append_cons hc]
  simp

/-- A path that can be resolved is read without a flaw, once the names in it are replaced. -/
theorem exists_reads_of_resolve {find? : String → Option Value} {evaluate : String → Eval Value}
    {path : String} {resolved : Path} (h : resolve find? evaluate path = pure resolved) :
    ∃ expanded, expand find? path = .ok expanded ∧ Reads (Text.trim expanded) := by
  obtain ⟨expanded, hexpand, hrest⟩ := Eval.bind_eq_pure_iff.mp h
  refine ⟨expanded, Eval.liftM_eq_pure_iff.mp hexpand, ?_⟩
  dsimp only at hrest
  split at hrest
  · next hbase =>
    obtain ⟨accessors, haccessors, _⟩ := Eval.bind_eq_pure_iff.mp hrest
    refine ⟨hbase, fun flaw hflaw => ?_⟩
    obtain ⟨accessor, haccessor⟩ := Eval.exists_of_mem_of_mapM_eq_pure haccessors hflaw
    cases haccessor
  · cases hrest

/-- A path that has a value is read without a flaw, once the names in it are replaced. -/
theorem exists_reads_of_get {find? : String → Option Value} {evaluate : String → Eval Value}
    {path : String} {v : Value} (h : get find? evaluate path = pure v) :
    ∃ expanded, expand find? path = .ok expanded ∧ Reads (Text.trim expanded) := by
  obtain ⟨resolved, hresolve, _⟩ := Eval.bind_eq_pure_iff.mp h
  exact exists_reads_of_resolve hresolve

/-- A `;` at the end stays there when names are replaced. -/
theorem exists_append_of_expandFrom {path : String} {find? : String → Option Value} {depth : ℕ}
    {name? : Option (List Char)} {expanded : List Char}
    (h : expandFrom path find? depth name? (x ++ [';']) = .ok expanded) :
    ∃ x', expanded = x' ++ [';'] := by
  induction x generalizing depth name? expanded with
  | nil =>
    cases name? with
    | none =>
      cases h
      exact ⟨[], rfl⟩
    | some name => cases h
  | cons c x ih =>
    rw [List.cons_append] at h
    cases name? with
    | none =>
      rw [expandFrom] at h
      split at h
      · exact ih h
      · obtain ⟨others, hothers, rfl⟩ := map_eq_ok_iff.mp h
        obtain ⟨x', rfl⟩ := ih hothers
        exact ⟨c :: x', rfl⟩
    | some name =>
      rw [expandFrom] at h
      split at h
      · dsimp only at h
        split at h
        · split at h
          · cases h
          · split at h
            · cases h
            · obtain ⟨others, hothers, rfl⟩ := map_eq_ok_iff.mp h
              obtain ⟨x', rfl⟩ := ih hothers
              exact ⟨_, (List.append_assoc _ _ _).symm⟩
        · cases h
      · exact ih h

end Path

end Logo
