import Logo.Proofs.Expression.Composition
import Logo.Proofs.Path.Operand
import Logo.Proofs.Text.Spans

/-!
# The segments of an expression

An expression is a run of segments: spans, which are literals, `[...]` and `.<...>`, and loose
characters between them. It can be cut into atoms exactly if it is such a run. The atoms are then
the groups of segments between blanks, where loose punctuation is a group of its own. So nothing but
loose blanks is lost, and the atoms can be written with any blanks between them.
-/

namespace Logo

variable {expression : String} {parts : List String} {atom cs rest : List Char}

/-! ## Spans -/

/-- Whether a text is a literal, `[...]` or `.<...>` as a whole. -/
inductive IsSpan : List Char → Prop
  | literal {a : Atom} (ha : a.Whole) (hliteral : ∀ c, a ≠ .char c) : IsSpan a.text
  | bracket {atoms : List Atom} (hwhole : ∀ a ∈ atoms, a.Whole)
      (hbalanced : Brackets.square.Balanced 0 atoms) :
      IsSpan ('[' :: (atoms.flatMap Atom.text ++ [']']))
  | name {body : List Char} (hbody : '>' ∉ body) : IsSpan ('.' :: '<' :: (body ++ ['>']))

/-- A `.<...>` is taken in as far as its first closing bracket, and the expression is cut freely
behind it. -/
theorem splitAtomsFrom_name {body : List Char} (hbody : '>' ∉ body) (atom rest : List Char) :
    splitAtomsFrom expression .name atom (body ++ '>' :: rest) =
      splitAtomsFrom expression .free ('>' :: (body.reverse ++ atom)) rest := by
  induction body generalizing atom with
  | nil => rfl
  | cons c body ih =>
    obtain ⟨hc, hbody'⟩ : '>' ≠ c ∧ '>' ∉ body := by simpa using hbody
    have hstep : splitAtomsFrom expression .name atom (c :: (body ++ '>' :: rest)) =
        splitAtomsFrom expression .name (c :: atom) (body ++ '>' :: rest) := by
      simp [splitAtomsFrom, AtomMode.step, Ne.symm hc]
    rw [List.cons_append, hstep, ih hbody']
    simp

/-- A span is put to the current atom. -/
theorem IsSpan.splitAtomsFrom_append {s : List Char} (h : IsSpan s) (atom rest : List Char) :
    splitAtomsFrom expression .free atom (s ++ rest) =
      splitAtomsFrom expression .free (s.reverse ++ atom) rest := by
  cases h with
  | @literal a ha hliteral =>
    obtain ⟨quote, body, k, htext, hquote, hbody, hclosing⟩ := ha.closing?_eq hliteral
    have hstart (text : List Char) : splitAtomsFrom expression .free atom (quote :: text) =
        splitAtomsFrom expression (.literal (LiteralMode.outside.step quote)) (quote :: atom)
          text := by
      rcases hquote with rfl | rfl <;> rfl
    rw [htext, List.cons_append, hstart, splitAtomsFrom_literal (hclosing rest), ← hbody,
      List.take_left, List.drop_left]
    simp
  | @bracket atoms hwhole hbalanced =>
    have hstart (text : List Char) : splitAtomsFrom expression .free atom ('[' :: text) =
        splitAtomsFrom expression (Enclosure.atomMode ⟨.outside, 1⟩) ('[' :: atom) text := rfl
    have hend := Text.bracketOffset?_of_balanced hwhole hbalanced rest
    generalize atoms.flatMap Atom.text = inner at hend ⊢
    rw [List.cons_append, List.append_assoc, List.singleton_append, hstart,
      splitAtomsFrom_of_bracketOffset? Nat.one_pos hend, List.take_length_add_append,
      List.drop_length_add_append]
    simp
  | @name body hbody =>
    have hstart (text : List Char) : splitAtomsFrom expression .free atom ('.' :: '<' :: text) =
        splitAtomsFrom expression .name ('<' :: '.' :: atom) text := rfl
    rw [List.cons_append, List.cons_append, List.append_assoc, List.singleton_append, hstart,
      splitAtomsFrom_name hbody]
    simp

/-! ## Expressions that can be cut -/

/-- A literal in an expression that can be cut has an end. -/
theorem exists_closing?_of_splitAtomsFrom {mode : LiteralMode}
    (h : splitAtomsFrom expression (.literal mode) atom cs = .ok parts) :
    ∃ k, mode.closing? cs = some k := by
  induction cs generalizing mode atom with
  | nil =>
    have hmode : AtomMode.literal mode ≠ .free := AtomMode.noConfusion
    obtain ⟨fault, hfault⟩ := AtomMode.exists_unfinished? expression hmode
    rw [splitAtomsFrom, hfault] at h
    cases h
  | cons c cs ih =>
    rw [LiteralMode.closing?]
    by_cases hend : mode.step c = .outside
    · exact ⟨0, if_pos hend⟩
    · have hnext : splitAtomsFrom expression (.literal (mode.step c)) (c :: atom) cs = .ok parts := by
        simpa [splitAtomsFrom, AtomMode.step, hend] using h
      obtain ⟨k, hk⟩ := ih hnext
      exact ⟨k + 1, by rw [if_neg hend, hk]; rfl⟩

/-- A bracket in an expression that can be cut has an end. -/
theorem exists_bracketOffset?_of_splitAtomsFrom {n : Enclosure} (hdepth : 0 < n.depth)
    (h : splitAtomsFrom expression n.atomMode atom cs = .ok parts) :
    ∃ k, Text.bracketOffset? n.mode n.depth cs = some k := by
  have htop (n : Enclosure) (hdepth : 0 < n.depth) : n ≠ .top := by
    rintro rfl
    cases hdepth
  induction cs generalizing n atom with
  | nil =>
    obtain ⟨fault, hfault⟩ :=
      AtomMode.exists_unfinished? expression (Enclosure.atomMode_ne_free (htop n hdepth))
    rw [splitAtomsFrom, hfault] at h
    cases h
  | cons c cs ih =>
    rw [Text.bracketOffset?_cons_eq]
    by_cases hlast : n.mode = .outside ∧ c = ']' ∧ n.depth ≤ 1
    · exact ⟨0, by rw [if_pos hlast, if_pos (Nat.le_antisymm hlast.2.2 hdepth)]⟩
    · rw [splitAtomsFrom, Enclosure.step_atomMode (htop n hdepth)] at h
      · obtain ⟨k, hk⟩ := ih (Enclosure.depth_read_pos hdepth hlast) h
        exact ⟨k + 1, by rw [if_neg hlast, hk]; rfl⟩
      · exact Enclosure.atomMode_ne_free (htop n hdepth)

/-- A name in an expression that can be cut has an end. -/
theorem mem_of_splitAtomsFrom_name (h : splitAtomsFrom expression .name atom cs = .ok parts) :
    '>' ∈ cs := by
  induction cs generalizing atom with
  | nil => cases h
  | cons c cs ih =>
    by_cases hc : c = '>'
    · exact hc ▸ List.mem_cons_self
    · have hnext : splitAtomsFrom expression .name (c :: atom) cs = .ok parts := by
        simpa [splitAtomsFrom, AtomMode.step, hc] using h
      exact List.mem_cons_of_mem c (ih hnext)

/-- Where a part that stays whole starts in an expression that can be cut, a span stands. -/
theorem exists_span_of_opening? {c : Char} {mode : AtomMode}
    (hopening : AtomMode.opening? c cs.head? = some mode)
    (h : splitAtomsFrom expression mode atom cs = .ok parts) :
    ∃ s rest, IsSpan s ∧ c :: cs = s ++ rest := by
  unfold AtomMode.opening? at hopening
  split_ifs at hopening with hquote hbracket hname
  · obtain rfl := Option.some.inj hopening
    obtain ⟨k, hk⟩ := exists_closing?_of_splitAtomsFrom h
    have hquote' : c = '"' ∨ c = '\'' := by simpa using hquote
    obtain ⟨a, ha, hliteral, htext⟩ := (Scan.begun_quote hquote').exists_atom hk
    refine ⟨a.text, cs.drop (k + 1), .literal ha hliteral, ?_⟩
    rw [htext, List.append_assoc, List.take_append_drop]
    rfl
  · subst hbracket
    obtain rfl := Option.some.inj hopening
    obtain ⟨k, hk⟩ := exists_bracketOffset?_of_splitAtomsFrom (n := ⟨.outside, 1⟩) Nat.one_pos h
    obtain ⟨atoms, hmake, hbalanced⟩ := Text.exists_atoms_of_bracketOffset? hk
    refine ⟨_, cs.drop (k + 1), .bracket hmake.whole hbalanced, ?_⟩
    obtain ⟨hlt, hget⟩ := List.getElem?_eq_some_iff.mp (Text.getElem?_of_bracketOffset? hk)
    have hcs : cs = cs.take k ++ ']' :: cs.drop (k + 1) := by
      rw [← hget, ← List.drop_eq_getElem_cons hlt, List.take_append_drop]
    rw [hmake.text_eq, List.cons_append, List.append_assoc]
    exact congrArg ('[' :: ·) hcs
  · obtain rfl := Option.some.inj hopening
    obtain ⟨hdot, hangle⟩ : c = '.' ∧ cs.head? = some '<' := by simpa using hname
    obtain ⟨tail, rfl⟩ := List.head?_eq_some_iff.mp hangle
    have hmem : '>' ∈ tail := by simpa using mem_of_splitAtomsFrom_name h
    obtain ⟨body, rest, rfl, hbody⟩ := List.eq_append_cons_of_mem hmem
    exact ⟨_, rest, .name hbody, by simp [hdot]⟩

/-! ## Runs of segments -/

/-- A segment of an expression. -/
inductive Segment where
  /-- A part that stays whole. -/
  | span (text : List Char)
  /-- A character outside of such parts. -/
  | loose (c : Char)

namespace Segment

variable {segments group : List Segment} {c : Char}

/-- The characters of a segment. -/
def text : Segment → List Char
  | span text => text
  | loose c => [c]

/-- Whether segments can stand one after the other in an expression: spans are whole, and a loose
character starts no span and ends none. -/
inductive Run : List Segment → Prop
  | nil : Run []
  | span {s : List Char} {segments : List Segment} (hs : IsSpan s) (h : Run segments) :
      Run (.span s :: segments)
  | loose {c : Char} {segments : List Segment} (hc : c ∉ ['"', '\'', '[', ']'])
      (hname : c = '.' → (segments.flatMap text).head? ≠ some '<') (h : Run segments) :
      Run (.loose c :: segments)

/-- Whether some segments make up an expression. -/
structure MakeUp (segments : List Segment) (cs : List Char) : Prop where
  run : Run segments
  text_eq : segments.flatMap text = cs

end Segment

/-- A span is not empty. -/
theorem IsSpan.ne_nil {s : List Char} (h : IsSpan s) : s ≠ [] := by
  cases h with
  | literal => exact Atom.text_ne_nil _
  | bracket | name => simp

/-- Behind a character that starts no span, an expression that can be cut goes on. -/
theorem exists_splitAtomsFrom_of_loose {c : Char} (hopening : AtomMode.opening? c cs.head? = none)
    (h : splitAtomsFrom expression .free atom (c :: cs) = .ok parts) :
    c ≠ ']' ∧ ∃ atom parts, splitAtomsFrom expression .free atom cs = .ok parts := by
  rw [splitAtomsFrom, hopening] at h
  dsimp only at h
  split_ifs at h with hclosing hblank hpunctuation
  · obtain ⟨others, hothers, -⟩ := map_eq_ok_iff.mp h
    exact ⟨hclosing, [], others, hothers⟩
  · obtain ⟨others, hothers, -⟩ := map_eq_ok_iff.mp h
    exact ⟨hclosing, [], others, hothers⟩
  · exact ⟨hclosing, c :: atom, parts, h⟩

/-- An expression that can be cut is a run of segments. -/
theorem exists_segments_of_splitAtomsFrom
    (h : splitAtomsFrom expression .free atom cs = .ok parts) :
    ∃ segments, Segment.MakeUp segments cs := by
  induction hlength : cs.length using Nat.strong_induction_on generalizing cs atom parts with
  | _ length ih =>
    subst hlength
    cases cs with
    | nil => exact ⟨[], .nil, rfl⟩
    | cons c cs =>
      cases hopening : AtomMode.opening? c cs.head? with
      | some mode =>
        have hinside : splitAtomsFrom expression mode (c :: atom) cs = .ok parts := by
          rwa [splitAtomsFrom, hopening] at h
        obtain ⟨s, rest, hs, heq⟩ := exists_span_of_opening? hopening hinside
        rw [heq, hs.splitAtomsFrom_append] at h
        have hshorter : rest.length < (c :: cs).length := by
          rw [heq, List.length_append]
          exact Nat.lt_add_of_pos_left (List.length_pos_iff.mpr hs.ne_nil)
        obtain ⟨segments, hrun, rfl⟩ := ih _ hshorter h rfl
        exact ⟨.span s :: segments, .span hs hrun, heq.symm⟩
      | none =>
        obtain ⟨hc, hname⟩ := AtomMode.opening?_eq_none_iff.mp hopening
        obtain ⟨hclosing, atom, parts, hrest⟩ := exists_splitAtomsFrom_of_loose hopening h
        obtain ⟨segments, hrun, rfl⟩ := ih _ (Nat.lt_succ_self _) hrest rfl
        have hloose : c ∉ ['"', '\'', '[', ']'] := by simp_all
        exact ⟨.loose c :: segments, .loose hloose hname hrun, rfl⟩

/-! ## Groups of segments -/

namespace Segment

/-- Whether a segment is a loose blank. -/
def isBlank : Segment → Bool
  | span _ => false
  | loose c => Text.isBlank c

/-- Whether a segment is loose punctuation. -/
def isPunctuation : Segment → Bool
  | span _ => false
  | loose c => Logo.isPunctuation c

/-- Puts a group in front of others, unless it is empty. -/
def consGroup (group : List Segment) (groups : List (List Segment)) : List (List Segment) :=
  if group.isEmpty then groups else group :: groups

/-- The groups of segments that are atoms: `group` holds the segments of the current one. -/
def groupsFrom (group : List Segment) : List Segment → List (List Segment)
  | [] => consGroup group []
  | s :: rest =>
    if s.isBlank then consGroup group (groupsFrom [] rest)
    else if s.isPunctuation then consGroup group ([s] :: groupsFrom [] rest)
    else groupsFrom (group ++ [s]) rest

/-- A loose character ends the group in hand if it is blank, is a group of its own if it is
punctuation, and is added to the group in hand otherwise. -/
theorem groupsFrom_loose (group : List Segment) (c : Char) (rest : List Segment) :
    groupsFrom group (.loose c :: rest) =
      if Text.isBlank c then consGroup group (groupsFrom [] rest)
      else if Logo.isPunctuation c then consGroup group ([.loose c] :: groupsFrom [] rest)
      else groupsFrom (group ++ [.loose c]) rest := rfl

/-- The atom that a group of segments is. -/
def atomOf (group : List Segment) : String := String.ofList (group.flatMap text)

/-- The atoms with the one in hand are those of the groups with the one in hand. -/
theorem consAtom_eq (hgroup : ∀ s ∈ group, s.text ≠ []) (groups : List (List Segment)) :
    consAtom (group.flatMap text).reverse (groups.map atomOf) =
      (consGroup group groups).map atomOf := by
  cases group with
  | nil => rfl
  | cons s group =>
    have hne : s.text ≠ [] := hgroup s List.mem_cons_self
    simp [consAtom, consGroup, atomOf, hne]

/-- A run of segments is cut into its groups. -/
theorem Run.splitAtomsFrom_eq (h : Run segments) (group : List Segment)
    (hgroup : ∀ s ∈ group, s.text ≠ []) :
    splitAtomsFrom expression .free (group.flatMap text).reverse (segments.flatMap text) =
      .ok ((groupsFrom group segments).map atomOf) := by
  induction h generalizing group with
  | nil =>
    rw [groupsFrom, ← consAtom_eq hgroup]
    rfl
  | @span s segments hs _ ih =>
    have hgroup' : ∀ t ∈ group ++ [.span s], t.text ≠ [] := by
      simpa [or_imp, forall_and] using ⟨hgroup, hs.ne_nil⟩
    have hnext := ih _ hgroup'
    rw [List.flatMap_cons, text, hs.splitAtomsFrom_append]
    simpa [groupsFrom, isBlank, isPunctuation, text] using hnext
  | @loose c segments hc hname _ ih =>
    rw [List.flatMap_cons, text, List.singleton_append, splitAtomsFrom_loose hc hname]
    have hrest : splitAtomsFrom expression .free [] (segments.flatMap text) =
        .ok ((groupsFrom [] segments).map atomOf) := ih [] (by simp)
    by_cases hblank : Text.isBlank c = true
    · rw [if_pos hblank, hrest, groupsFrom_loose, if_pos hblank, ← consAtom_eq hgroup]
      rfl
    by_cases hpunctuation : Logo.isPunctuation c = true
    · rw [if_neg hblank, if_pos hpunctuation, hrest, groupsFrom_loose, if_neg hblank,
        if_pos hpunctuation, ← consAtom_eq hgroup]
      rfl
    · have hgroup' : ∀ t ∈ group ++ [.loose c], t.text ≠ [] := by
        simpa [or_imp, forall_and, text] using hgroup
      rw [if_neg hblank, if_neg hpunctuation, groupsFrom_loose, if_neg hblank,
        if_neg hpunctuation, ← ih _ hgroup']
      simp [text]

/-- What can be cut is a run of segments, and the atoms are its groups. -/
theorem splitAtoms_eq_ok_iff_makeUp :
    splitAtoms expression = .ok parts ↔
      ∃ segments, MakeUp segments expression.toList ∧
        (groupsFrom [] segments).map atomOf = parts := by
  constructor
  · intro h
    obtain ⟨segments, hrun, htext⟩ := exists_segments_of_splitAtomsFrom h
    have hgroups : splitAtomsFrom expression .free [] (segments.flatMap text) =
        .ok ((groupsFrom [] segments).map atomOf) := hrun.splitAtomsFrom_eq [] (by simp)
    rw [htext] at hgroups
    exact ⟨segments, ⟨hrun, htext⟩, Except.ok.inj (hgroups.symm.trans h)⟩
  · rintro ⟨segments, ⟨hrun, htext⟩, rfl⟩
    rw [splitAtoms, ← htext]
    exact hrun.splitAtomsFrom_eq [] (by simp)

/-! ## What the groups are -/

/-- Whether a group is loose punctuation, or holds no loose blanks and punctuation. -/
def IsGroup (group : List Segment) : Prop :=
  (∃ c, Logo.isPunctuation c = true ∧ group = [.loose c]) ∨
    group ≠ [] ∧ ∀ s ∈ group, s.isBlank = false ∧ s.isPunctuation = false

/-- A group of a list to which one has been added is this one or was there before. -/
theorem mem_consGroup {g : List Segment} {groups : List (List Segment)}
    (h : g ∈ consGroup group groups) : g = group ∧ group ≠ [] ∨ g ∈ groups := by
  unfold consGroup at h
  split at h
  · exact .inr h
  · next hne =>
    rcases List.mem_cons.mp h with rfl | hmem
    · exact .inl ⟨rfl, by simpa using hne⟩
    · exact .inr hmem

/-- Groups hold the segments that were put into them. -/
theorem flatten_consGroup (group : List Segment) (groups : List (List Segment)) :
    (consGroup group groups).flatten = group ++ groups.flatten := by
  cases group <;> rfl

/-- Each group is loose punctuation, or holds no loose blanks and punctuation. -/
theorem isGroup_of_mem (hgroup : ∀ s ∈ group, s.isBlank = false ∧ s.isPunctuation = false)
    {g : List Segment} (h : g ∈ groupsFrom group segments) : IsGroup g := by
  fun_induction groupsFrom group segments with
  | case1 group =>
    obtain ⟨rfl, hne⟩ | hmem := mem_consGroup h
    · exact .inr ⟨hne, hgroup⟩
    · simp at hmem
  | case2 group s rest hblank ih =>
    obtain ⟨rfl, hne⟩ | hmem := mem_consGroup h
    · exact .inr ⟨hne, hgroup⟩
    · exact ih (by simp) hmem
  | case3 group s rest hblank hpunctuation ih =>
    obtain ⟨rfl, hne⟩ | hmem := mem_consGroup h
    · exact .inr ⟨hne, hgroup⟩
    · rcases List.mem_cons.mp hmem with rfl | hmem
      · cases s with
        | span => cases hpunctuation
        | loose c => exact .inl ⟨c, hpunctuation, rfl⟩
      · exact ih (by simp) hmem
  | case4 group s rest hblank hpunctuation ih =>
    refine ih ?_ h
    simp_all [or_imp, forall_and]

/-- Nothing but loose blanks is lost. -/
theorem flatten_groupsFrom (group segments : List Segment) :
    (groupsFrom group segments).flatten = group ++ segments.filter fun s => !s.isBlank := by
  fun_induction groupsFrom group segments with
  | case1 group => simp [flatten_consGroup]
  | case2 group s rest hblank ih => simp [flatten_consGroup, hblank, ih]
  | case3 group s rest hblank hpunctuation ih => simp [flatten_consGroup, hblank, ih]
  | case4 group s rest hblank hpunctuation ih => simp [hblank, ih]

/-- A run can be broken off and taken up anywhere. -/
theorem Run.of_append {xs ys : List Segment} (h : Run (xs ++ ys)) : Run xs ∧ Run ys := by
  induction xs with
  | nil => exact ⟨.nil, h⟩
  | cons s xs ih =>
    rw [List.cons_append] at h
    cases h with
    | span hs h =>
      obtain ⟨hxs, hys⟩ := ih h
      exact ⟨.span hs hxs, hys⟩
    | loose hc hname h =>
      obtain ⟨hxs, hys⟩ := ih h
      -- Where the run is broken off behind a point, no `<` can follow this point any more.
      refine ⟨.loose hc (fun hdot hhead => hname hdot ?_) hxs, hys⟩
      rw [List.flatMap_append, List.head?_append, hhead]
      rfl

/-- The groups of a run are runs. -/
theorem Run.of_mem_groupsFrom (h : Run (group ++ segments)) {g : List Segment}
    (hg : g ∈ groupsFrom group segments) : Run g := by
  fun_induction groupsFrom group segments with
  | case1 group =>
    obtain ⟨rfl, _⟩ | hmem := mem_consGroup hg
    · simpa using h
    · simp at hmem
  | case2 group s rest hblank ih =>
    have hrest : Run ([s] ++ rest) := h.of_append.2
    obtain ⟨rfl, _⟩ | hmem := mem_consGroup hg
    · exact h.of_append.1
    · exact ih hrest.of_append.2 hmem
  | case3 group s rest hblank hpunctuation ih =>
    have hrest : Run ([s] ++ rest) := h.of_append.2
    obtain ⟨rfl, _⟩ | hmem := mem_consGroup hg
    · exact h.of_append.1
    · rcases List.mem_cons.mp hmem with rfl | hmem
      · exact hrest.of_append.1
      · exact ih hrest.of_append.2 hmem
  | case4 group s rest hblank hpunctuation ih => exact ih (by simpa using h) hg

/-! ## Blanks between groups -/

/-- A blank separates two runs. -/
theorem Run.append_blank {xs ys : List Segment} (hxs : Run xs) (hys : Run ys) :
    Run (xs ++ .loose ' ' :: ys) := by
  induction hxs with
  | nil => exact .loose (by decide) (by simp) hys
  | span hs _ ih => exact .span hs ih
  | @loose c segments hc hname _ ih =>
    rw [List.cons_append]
    -- A point at the end has the blank behind it.
    refine .loose hc (fun hdot => ?_) ih
    rw [List.flatMap_append, List.head?_append]
    cases hhead : (segments.flatMap text).head? with
    | none => simp [text]
    | some d => simpa [hhead] using hname hdot

/-- Segments that are neither blanks nor punctuation are all added to the group in hand. -/
theorem groupsFrom_append (hsolid : ∀ s ∈ group, s.isBlank = false ∧ s.isPunctuation = false)
    (before rest : List Segment) :
    groupsFrom before (group ++ rest) = groupsFrom (before ++ group) rest := by
  induction group generalizing before with
  | nil => simp
  | cons s group ih =>
    obtain ⟨⟨hblank, hpunctuation⟩, hgroup⟩ := List.forall_mem_cons.mp hsolid
    rw [List.cons_append, groupsFrom, if_neg (by simp [hblank]), if_neg (by simp [hpunctuation]),
      ih hgroup]
    simp

/-- A group ends at a blank. -/
theorem IsGroup.groupsFrom_blank (h : IsGroup group) (rest : List Segment) :
    groupsFrom [] (group ++ .loose ' ' :: rest) = group :: groupsFrom [] rest := by
  have hspace : Text.isBlank ' ' = true := by decide
  obtain ⟨c, hc, rfl⟩ | ⟨hne, hsolid⟩ := h
  · have hblank := (punctuation_spec hc).2.2.2.2.2
    simp [groupsFrom_loose, hblank, hc, hspace, consGroup]
  · rw [groupsFrom_append hsolid, groupsFrom_loose, if_pos hspace]
    simp [consGroup, hne]

/-- A group by itself is the only group of its segments. -/
theorem IsGroup.groupsFrom_eq (h : IsGroup group) : groupsFrom [] group = [group] := by
  obtain ⟨c, hc, rfl⟩ | ⟨hne, hsolid⟩ := h
  · have hblank := (punctuation_spec hc).2.2.2.2.2
    simp [groupsFrom, isBlank, isPunctuation, hblank, hc, consGroup]
  · have happend := groupsFrom_append hsolid [] []
    rw [List.append_nil, List.nil_append] at happend
    rw [happend]
    simp [groupsFrom, consGroup, hne]

/-- Groups with blanks between them are a run, and are its groups. -/
theorem groupsFrom_intercalate {groups : List (List Segment)} (hrun : ∀ g ∈ groups, Run g)
    (hgroup : ∀ g ∈ groups, IsGroup g) :
    MakeUp ([.loose ' '].intercalate groups) ([' '].intercalate (groups.map (·.flatMap text))) ∧
      groupsFrom [] ([.loose ' '].intercalate groups) = groups := by
  induction groups with
  | nil => exact ⟨⟨.nil, rfl⟩, rfl⟩
  | cons g groups ih =>
    obtain ⟨hg, hrest⟩ := List.forall_mem_cons.mp hrun
    obtain ⟨hg', hrest'⟩ := List.forall_mem_cons.mp hgroup
    obtain ⟨⟨hjoined, htext⟩, heq⟩ := ih hrest hrest'
    cases groups with
    | nil =>
      rw [List.map_singleton, List.intercalate_singleton, List.intercalate_singleton]
      exact ⟨⟨hg, rfl⟩, hg'.groupsFrom_eq⟩
    | cons g' groups =>
      rw [List.map_cons, List.map_cons, List.intercalate_cons_cons, List.intercalate_cons_cons,
        List.append_assoc, List.append_assoc, List.singleton_append, List.singleton_append,
        hg'.groupsFrom_blank, heq]
      rw [List.map_cons] at htext
      refine ⟨⟨hg.append_blank hjoined, ?_⟩, rfl⟩
      rw [List.flatMap_append, List.flatMap_cons, htext]
      rfl

/-- What a group is as an atom. -/
theorem IsGroup.atomOf_spec (h : IsGroup group) (hrun : Run group) :
    atomOf group ≠ "" ∧
      ((∃ c, Logo.isPunctuation c = true ∧ atomOf group = c.toString) ∨
        ∃ segments, MakeUp segments (atomOf group).toList ∧
          ∀ s ∈ segments, s.isBlank = false ∧ s.isPunctuation = false) := by
  obtain ⟨c, hc, rfl⟩ | ⟨hne, hsolid⟩ := h
  · exact ⟨by simp [atomOf, text], .inl ⟨c, hc, rfl⟩⟩
  · refine ⟨?_, .inr ⟨group, ⟨hrun, by simp [atomOf]⟩, hsolid⟩⟩
    cases hrun with
    | nil => exact absurd rfl hne
    | span hs => simp [atomOf, text, hs.ne_nil]
    | loose => simp [atomOf, text]

/-- The atoms of groups, joined, are the text of the groups. -/
theorem toList_join_atomOf (groups : List (List Segment)) :
    (String.join (groups.map atomOf)).toList = groups.flatten.flatMap text := by
  rw [String.toList_join, List.flatMap_map]
  induction groups with
  | nil => rfl
  | cons g groups ih =>
    rw [List.flatMap_cons, List.flatten_cons, List.flatMap_append, ih, atomOf, String.toList_ofList]

end Segment

/-- The atoms that an expression is cut into are not empty, and each is a character of punctuation
or a run of segments without loose blanks and punctuation. Joined, they are the expression without
its loose blanks. With a blank between them, they are cut into the same atoms. -/
theorem splitting_is_lossless_and_stable (h : splitAtoms expression = .ok parts) :
    (∀ part ∈ parts, part ≠ "" ∧
      ((∃ c, isPunctuation c = true ∧ part = c.toString) ∨
        ∃ segments, Segment.MakeUp segments part.toList ∧
          ∀ s ∈ segments, s.isBlank = false ∧ s.isPunctuation = false)) ∧
      (∃ segments, Segment.MakeUp segments expression.toList) ∧
      (∀ segments, Segment.MakeUp segments expression.toList →
        (String.join parts).toList = (segments.filter fun s => !s.isBlank).flatMap Segment.text) ∧
      splitAtoms (" ".intercalate parts) = .ok parts := by
  obtain ⟨segments, hmake, hparts⟩ := Segment.splitAtoms_eq_ok_iff_makeUp.mp h
  have hstart : Segment.Run ([] ++ segments) := hmake.run
  have hrun : ∀ g ∈ Segment.groupsFrom [] segments, Segment.Run g :=
    fun _ => hstart.of_mem_groupsFrom
  have hgroup : ∀ g ∈ Segment.groupsFrom [] segments, Segment.IsGroup g :=
    fun _ => Segment.isGroup_of_mem (by simp)
  refine ⟨?_, ⟨segments, hmake⟩, fun segments' hmake' => ?_, ?_⟩
  · rw [← hparts]
    intro part hpart
    obtain ⟨g, hg, rfl⟩ := List.mem_map.mp hpart
    exact (hgroup g hg).atomOf_spec (hrun g hg)
  · -- Any other segments have the same atoms, as the expression is cut in one way only.
    have hsame := Segment.splitAtoms_eq_ok_iff_makeUp.mpr ⟨segments', hmake', rfl⟩
    rw [Except.ok.inj (h.symm.trans hsame), Segment.toList_join_atomOf, Segment.flatten_groupsFrom,
      List.nil_append]
  · obtain ⟨hjoined, heq⟩ := Segment.groupsFrom_intercalate hrun hgroup
    refine Segment.splitAtoms_eq_ok_iff_makeUp.mpr ⟨_, ?_, by rw [heq, hparts]⟩
    rw [String.toList_intercalate, ← hparts, List.map_map]
    simpa [Function.comp_def, Segment.atomOf] using hjoined

/-- In `a[" ]"]* f(' ,o.<x y>)` the blanks in the bracket, in the character literal and in the name
are kept. -/
theorem splitting_is_lossless_and_stable_spans :
    let parts := ["a[\" ]\"]", "*", "f", "(", "' ", ",", "o.<x y>", ")"]
    splitAtoms "a[\" ]\"]* f(' ,o.<x y>)" = .ok parts ∧
      splitAtoms "a[\" ]\"] * f ( '  , o.<x y> )" = .ok parts := by
  intro parts
  have hsplit : splitAtoms "a[\" ]\"]* f(' ,o.<x y>)" = .ok parts := by decide +kernel
  exact ⟨hsplit, (splitting_is_lossless_and_stable hsplit).2.2.2⟩

end Logo
