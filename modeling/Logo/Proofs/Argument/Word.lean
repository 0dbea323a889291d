import Logo.Command.Standard
import Logo.Proofs.Argument.Check
import Logo.Proofs.Path.Operand

/-!
# Paths as words

Where a command takes the path of a variable, the path has to be a plain word. The test for plain
words counts square brackets wherever they stand, while the end of an index is found with literals
passed over. So the two agree on every path with no brackets in its literals. With such brackets a
path is a word exactly if the count comes out right.
-/

namespace Logo

variable {c : Char} {b cs rest : List Char} {depth k : ℕ} {text : String}

/-! ## The count of brackets -/

/-- Whether a text is read to its end as part of a plain word: the brackets, counted in literals
too, are closed at the end, and where they are closed only characters of paths follow. -/
def CountsAsPlain (depth : ℕ) (cs : List Char) : Prop :=
  Path.depthAfter depth cs = 0 ∧
    ∀ b c, b ++ [c] <+: cs → Path.depthAfter depth b = 0 → Path.isPathChar c = true

/-- At the end of a text, no bracket may be left open. -/
theorem countsAsPlain_nil : CountsAsPlain depth [] ↔ depth = 0 := by
  simp [CountsAsPlain]

/-- A character outside of all brackets has to be one that a path can have, and the count goes on
behind it. -/
theorem countsAsPlain_cons : CountsAsPlain depth (c :: cs) ↔
    (depth = 0 → Path.isPathChar c = true) ∧ CountsAsPlain (Path.depthStep depth c) cs := by
  rw [CountsAsPlain, forall_prefix_cons_iff, and_left_comm]
  rfl

/-- Without names in angle brackets a plain word is a matter of the count. -/
theorem isPlainFrom_iff (hangle : '<' ∉ cs) :
    isPlainFrom depth none cs = true ↔ CountsAsPlain depth cs := by
  induction cs generalizing depth with
  | nil => rw [countsAsPlain_nil, isPlainFrom, decide_eq_true_eq]
  | cons c cs ih =>
    obtain ⟨_, hcs⟩ := not_or.mp (mt List.mem_cons.mpr hangle)
    rw [countsAsPlain_cons, ← ih hcs, isPlainFrom.eq_def]
    dsimp only
    by_cases hopen : c = '['
    · simp [hopen, Path.isPathChar, Path.depthStep]
    by_cases hclose : c = ']'
    · cases depth with
      | zero =>
        have hchar : Path.isPathChar ']' = false := by decide
        simp [hclose, hchar]
      | succ depth => simp [hclose, Path.depthStep]
    rw [if_neg hopen, if_neg hclose, Path.depthStep_of_ne hopen hclose]
    by_cases hdepth : 0 < depth
    · simp [hdepth, Nat.ne_of_gt hdepth]
    obtain rfl : depth = 0 := Nat.eq_zero_of_not_pos hdepth
    by_cases hdot : c = '.'
    · have hchar : Path.isPathChar '.' = true := by decide
      rw [if_neg (Nat.lt_irrefl 0), if_pos hdot, hdot, hchar]
      split
      · exact absurd List.mem_cons_self hcs
      · simp
    · simp [hdot, hopen, Path.isPathChar]

/-! ## The brackets of a path -/

/-- A bracket leads outside of it. -/
theorem Text.after_take_of_bracketOffset? {n : Enclosure} (hdepth : 0 < n.depth)
    (h : bracketOffset? n.mode n.depth cs = some k) : n.after (cs.take (k + 1)) = .top := by
  induction cs generalizing n k with
  | nil => cases h
  | cons c cs ih =>
    obtain ⟨hread, rfl⟩ | ⟨hpos, j, rfl, hj⟩ := bracketOffset?_cons hdepth h
    · exact hread
    · exact ih hpos hj

/-- What closes the last bracket stands outside of literals. -/
theorem Enclosure.read_eq_top {n : Enclosure} (hdepth : n.depth ≠ 0)
    (h : (n.read c).depth = 0) : n.read c = .top := by
  by_cases hmode : n.mode = .outside
  · refine eq_top_iff.mpr ⟨?_, h⟩
    by_cases hopen : c = '['
    · simp [read, hmode, hopen] at h
    by_cases hclose : c = ']'
    · simp [read, hmode, hclose]
    · simp [read, hmode, hopen, hclose, hdepth] at h
  · rw [read_of_mode_ne hmode] at h
    exact absurd h hdepth

namespace Path

/-- A path whose parts have no flaw has closed all its brackets and literals at its end. -/
theorem after_of_parts (h : ∀ flaw, Part.flawed flaw ∉ parts cs) :
    Enclosure.top.after cs = .top := by
  refine parts_induction h rfl (fun name rest _ hname ih => ?_) fun cs k hk ih => ?_
  · have hread : Enclosure.top.read '.' = .top := rfl
    rw [Enclosure.after_cons, hread, Enclosure.after_append,
      Enclosure.after_of_forall_read (fun _ => Enclosure.read_of_isIdentChar) hname, ih]
  · have hread : Enclosure.top.read '[' = ⟨.outside, 1⟩ := rfl
    rw [Enclosure.after_cons, hread, ← List.take_append_drop (k + 1) cs, Enclosure.after_append,
      Text.after_take_of_bracketOffset? Nat.one_pos hk, ih]

/-- A path without a flaw closes its literals and brackets. -/
theorem Reads.after_eq (h : Reads cs) : Enclosure.top.after cs = .top := by
  obtain ⟨hbase, hparts⟩ := h
  rw [drop_length_takeWhile] at hparts
  have hbefore := Enclosure.after_of_forall_read (fun _ => Enclosure.read_of_isIdentChar)
    fun c hc => isIdentChar_of_mem hbase hc
  rw [← List.takeWhile_append_dropWhile (l := cs), Enclosure.after_append, hbefore,
    after_of_parts hparts]

/-- What follows in a path outside of literals and brackets is a character of paths. -/
theorem Reads.isPathChar (h : Reads cs) (hb : b ++ [c] <+: cs)
    (htop : Enclosure.top.after b = .top) : isPathChar c = true := by
  obtain ⟨rest, rfl⟩ := hb
  rw [List.append_assoc, List.singleton_append] at h
  exact Bool.eq_true_of_not_eq_false fun hc => not_reads_of_isPathChar hc (.inl htop) h

/-- A path has no literal outside of its brackets. -/
theorem Reads.eq_top (h : Reads cs) (hb : b <+: cs) (hdepth : (Enclosure.top.after b).depth = 0) :
    Enclosure.top.after b = .top := by
  induction b using List.reverseRecOn with
  | nil => rfl
  | append_singleton b c ih =>
    rw [Enclosure.after_append, Enclosure.after_cons, Enclosure.after_nil] at hdepth ⊢
    by_cases htop : Enclosure.top.after b = .top
    · have hc := h.isPathChar hb htop
      rw [htop] at hdepth ⊢
      simp only [Path.isPathChar, Bool.or_eq_true, decide_eq_true_eq] at hc
      rcases hc with (hc | rfl) | rfl
      · exact Enclosure.read_of_isIdentChar hc
      · rfl
      · cases hdepth
    · have hb' : b <+: cs := (List.prefix_append b [c]).trans hb
      exact Enclosure.read_eq_top (fun hzero => htop (ih hb' hzero)) hdepth

end Path

/-- Where literals hold no brackets, the count is the depth. -/
theorem depthAfter_eq_depth {n : Enclosure}
    (h : ∀ b c, b ++ [c] <+: cs → (n.after b).mode ≠ .outside → c ≠ '[' ∧ c ≠ ']') :
    Path.depthAfter n.depth cs = (n.after cs).depth := by
  induction cs generalizing n with
  | nil => rfl
  | cons c cs ih =>
    have hstep : Path.depthStep n.depth c = (n.read c).depth := by
      by_cases hmode : n.mode = .outside
      · unfold Path.depthStep Enclosure.read
        rw [if_neg (not_not.mpr hmode)]
        split_ifs <;> rfl
      · obtain ⟨hopen, hclose⟩ := h [] c (by simp) hmode
        rw [Path.depthStep_of_ne hopen hclose, Enclosure.read_of_mode_ne hmode]
    rw [Path.depthAfter_cons, hstep, Enclosure.after_cons]
    exact ih fun b d hb hmode => h (c :: b) d ((List.prefix_cons_inj c).mpr hb) hmode

/-! ## Words for declarations -/

/-- Where a variable is made or changed, its path is taken if it is a plain word. -/
theorem checkArgument_declaration (effort : ℕ) (s : Store) (id : FrameId) (command : String)
    (total : ℕ) (text : String) :
    checkArgument effort s id ⟨command, 0, Command.declaration.permitted 0 total⟩ (.text text) =
      if isPlainWord text then pure (.word text)
      else throw (.argumentCategory command 1 { word := true } (.text text)) :=
  checkArgument_word effort s id command 0 text

/-- **Which paths are words.** A path that can be resolved, without names in angle brackets and
without blanks at its ends, is a plain word if and only if the count of its brackets, in literals
too, is zero at the end, and what follows where it is zero inside of the brackets or of a literal is
a character of paths. A path with no brackets in its literals is a plain word. Where a variable is
made or changed, the path is taken if it is a plain word, and is refused else. -/
theorem paths_are_words_iff (s : Store) (effort : ℕ) (id : FrameId) {text : String} {p : Path}
    (hangle : '<' ∉ text.toList) (htrim : Text.trim text.toList = text.toList)
    (h : s.resolve effort id text = pure p) :
    (isPlainWord text = true ↔ Path.depthAfter 0 text.toList = 0 ∧
      ∀ b c, b ++ [c] <+: text.toList → Path.depthAfter 0 b = 0 →
        Enclosure.top.after b ≠ .top → Path.isPathChar c = true) ∧
    ((∀ b c, b ++ [c] <+: text.toList → (Enclosure.top.after b).mode ≠ .outside →
        c ≠ '[' ∧ c ≠ ']') → isPlainWord text = true) ∧
    ∀ (effort' : ℕ) (command : String) (total : ℕ),
      checkArgument effort' s id ⟨command, 0, Command.declaration.permitted 0 total⟩ (.text text) =
        if isPlainWord text then pure (.word text)
        else throw (.argumentCategory command 1 { word := true } (.text text)) := by
  obtain ⟨expanded, hok, hreads⟩ := Path.exists_reads_of_resolve h
  obtain rfl : text.toList = expanded :=
    Except.ok.inj ((Path.expandFrom_of_not_mem hangle).symm.trans hok)
  rw [htrim] at hreads
  have hword : isPlainWord text = true ↔ CountsAsPlain 0 text.toList := by
    rw [← isPlainFrom_iff hangle]
    obtain ⟨c, rest, htext, hc⟩ := hreads.exists_cons
    simp only [isPlainWord, htext, hc, Bool.true_and]
  have hiff : isPlainWord text = true ↔ Path.depthAfter 0 text.toList = 0 ∧
      ∀ b c, b ++ [c] <+: text.toList → Path.depthAfter 0 b = 0 →
        Enclosure.top.after b ≠ .top → Path.isPathChar c = true := by
    rw [hword]
    refine and_congr_right fun _ => ⟨fun houtside b c hb hdepth _ => houtside b c hb hdepth,
      fun houtside b c hb hdepth => ?_⟩
    by_cases htop : Enclosure.top.after b = .top
    · exact hreads.isPathChar hb htop
    · exact houtside b c hb hdepth htop
  refine ⟨hiff, fun hliteral => hiff.mpr ⟨?_, fun b c hb hdepth htop => ?_⟩,
    fun effort' command total => checkArgument_declaration effort' s id command total text⟩
  · have hcount := depthAfter_eq_depth (n := .top) hliteral
    rw [hreads.after_eq] at hcount
    exact hcount
  · -- The count is the depth, so that the reader would stand in a literal outside of the brackets.
    have hb' : b <+: text.toList := (List.prefix_append b [c]).trans hb
    have hcount := depthAfter_eq_depth (n := .top) fun b' d hd => hliteral b' d (hd.trans hb')
    exact absurd (hreads.eq_top hb' (hcount.symm.trans hdepth)) htop

/-- A literal of brackets that close in order. -/
theorem paths_are_words_iff_closed :
    let text := Path.ofKey "x" "[]"
    text = "x[\"[]\"]" ∧ '<' ∉ text.toList ∧ Text.trim text.toList = text.toList ∧
      ({} : Store).resolve 1 0 text = pure ⟨"x", [.field "[]"]⟩ ∧ isPlainWord text = true ∧
      (Path.depthAfter 0 text.toList = 0 ∧
        ∀ b c, b ++ [c] <+: text.toList → Path.depthAfter 0 b = 0 →
          Enclosure.top.after b ≠ .top → Path.isPathChar c = true) ∧
      checkArgument 0 {} 0 ⟨"set", 0, Command.declaration.permitted 0 2⟩ (.text text) =
        pure (.word text) := by
  intro text
  have hangle : '<' ∉ text.toList := by decide
  have htrim : Text.trim text.toList = text.toList := by decide
  have hresolve : ({} : Store).resolve 1 0 text = pure ⟨"x", [.field "[]"]⟩ :=
    Path.resolve_ofKey (by decide) (by decide) 0 _
  have hplain : isPlainWord text = true := by decide +kernel
  obtain ⟨hiff, _, hcheck⟩ := paths_are_words_iff {} 1 0 hangle htrim hresolve
  refine ⟨by decide, hangle, htrim, hresolve, hplain, hiff.mp hplain, ?_⟩
  rw [hcheck, if_pos hplain]

/-- The path to the field `]` can be resolved. But its literal closes the bracket in the count, and
the quote behind it then stands outside, so that it is no word and cannot be changed. -/
theorem path_to_bracket_is_no_word :
    let text := Path.ofKey "x" "]"
    text = "x[\"]\"]" ∧ '<' ∉ text.toList ∧ Text.trim text.toList = text.toList ∧
      ({} : Store).resolve 1 0 text = pure ⟨"x", [.field "]"]⟩ ∧ isPlainWord text = false ∧
      checkArgument 1 {} 0 ⟨"set", 0, Command.declaration.permitted 0 2⟩ (.text text) =
        throw (.argumentCategory "set" 1 { word := true } (.text text)) := by
  intro text
  have hplain : isPlainWord text = false := by decide +kernel
  refine ⟨by decide, by decide, by decide, Path.resolve_ofKey (by decide) (by decide) 0 _, hplain,
    ?_⟩
  rw [checkArgument_declaration, hplain]
  rfl

end Logo
