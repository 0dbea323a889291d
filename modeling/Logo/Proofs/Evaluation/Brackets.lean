import Logo.Proofs.Evaluation.Step
import Logo.Proofs.Expression.Compile

/-!
# Brackets around nested expressions

An expression in another one stands behind a square bracket, in the text of the outer one or in what
comes out when the names in a path are replaced. So each level takes a bracket away, unless a
variable brings a new one in.
-/

namespace Logo

open List

/-! ## Literals -/

namespace Text

/-- Trimming only drops characters. -/
theorem trim_sublist (cs : List Char) : trim cs <+ cs := by
  rw [trim, ← reverse_sublist, reverse_reverse]
  exact (dropWhile_sublist _).trans (reverse_sublist.mpr (dropWhile_sublist _))

/-- Cutting a text leaves at least one part. -/
theorem splitTopLevelFrom_ne_nil (separator : Char) (mode : LiteralMode) (depth : ℕ)
    (part cs : List Char) : splitTopLevelFrom separator mode depth part cs ≠ [] := by
  fun_induction splitTopLevelFrom separator mode depth part cs <;> simp_all

/-- The parts of a text, joined, are the text. -/
theorem intercalate_splitTopLevelFrom (separator : Char) (mode : LiteralMode) (depth : ℕ)
    (part cs : List Char) :
    [separator].intercalate (splitTopLevelFrom separator mode depth part cs) =
      part.reverse ++ cs := by
  fun_induction splitTopLevelFrom separator mode depth part cs with
  | case5 depth part c rest _ _ _ hseparator ih =>
    obtain rfl : c = separator := by simp_all
    rw [intercalate_cons_of_ne_nil (splitTopLevelFrom_ne_nil _ _ _ _ _), ih]
    simp
  | _ => simp_all

/-- Each part of a text that has been cut consists of characters of the text. -/
theorem sublist_of_mem_splitTopLevel {separator : Char} {cs part : List Char}
    (h : part ∈ splitTopLevel separator cs) : part <+ cs := by
  have hjoined := sublist_intercalate [separator] h
  rwa [splitTopLevel, intercalate_splitTopLevelFrom] at hjoined

end Text

/-- The expression of an element. -/
def Element.expression : Element → String
  | item text => text
  | entry _ value => value

/-- The expression of an element consists of characters of the text that the element is read from.
-/
theorem Element.sublist_of_read {expression : String} {cs : List Char} {element : Element}
    (h : read expression cs = .ok element) : element.expression.toList <+ cs := by
  unfold read at h
  split at h
  · next first second more hsplit =>
    have hvalue : Text.trim ([':'].intercalate (second :: more)) <+ cs := by
      have hjoined := Text.intercalate_splitTopLevelFrom ':' .outside 0 [] cs
      change [':'].intercalate (Text.splitTopLevel ':' cs) = _ at hjoined
      rw [hsplit, intercalate_cons_cons, reverse_nil, nil_append] at hjoined
      rw [← hjoined]
      exact (Text.trim_sublist _).trans (sublist_append_right _ _)
    simp only at h
    split at h
    · cases h
      simpa [Element.expression] using hvalue
    · split at h
      · obtain ⟨key, _, rfl⟩ := map_eq_ok_iff.mp h
        simpa [Element.expression] using hvalue
      · cases h
        simp [Element.expression]
  · cases h
    simp [Element.expression]

/-- The expression of each element of a literal lies within one of the parts that the literal is cut
into. -/
theorem Element.sublist_of_readAll {expression literal : String} {parts : List (List Char)}
    {elements : List Element} (h : readAll expression literal parts = .ok elements)
    {element : Element} (helement : element ∈ elements) :
    ∃ part ∈ parts, element.expression.toList <+ part := by
  induction parts generalizing elements with
  | nil =>
    cases h
    simp at helement
  | cons part parts ih =>
    unfold readAll at h
    split at h
    · cases h
    · split at h
      · cases h
      · next first hfirst =>
        obtain ⟨rest, hrest, rfl⟩ := map_eq_ok_iff.mp h
        rcases mem_cons.mp helement with rfl | hmem
        · exact ⟨part, mem_cons_self, (sublist_of_read hfirst).trans (Text.trim_sublist part)⟩
        · obtain ⟨part', hpart', hsublist⟩ := ih hrest hmem
          exact ⟨part', mem_cons_of_mem _ hpart', hsublist⟩

/-- Each item of an array literal is the expression of one of its elements. -/
theorem Element.expression_of_mem_items {elements : List Element} {text : String}
    (h : text ∈ items elements) : ∃ element ∈ elements, element.expression = text := by
  obtain ⟨element, helement, htext⟩ := mem_filterMap.mp h
  refine ⟨element, helement, ?_⟩
  cases element with
  | item text' => exact Option.some.inj htext
  | entry key value => cases htext

/-- The value of each entry of an object literal is the expression of one of its elements. -/
theorem Element.expression_of_mem_entries {elements : List Element} {entry : String × String}
    (h : entry ∈ entries elements) : ∃ element ∈ elements, element.expression = entry.2 := by
  obtain ⟨element, helement, hentry⟩ := mem_filterMap.mp h
  refine ⟨element, helement, ?_⟩
  cases element with
  | item text => cases hentry
  | entry key value => exact congrArg Prod.snd (Option.some.inj hentry)

namespace Instruction

variable {env : Environment} {expression : String} {i : Instruction}

/-- The expressions that a literal in brackets leaves to be evaluated lie within its body. -/
theorem sublist_of_ofBrackets {literal : String} {body : List Char}
    (h : ofBrackets expression literal body = .ok i) {text : String} (htext : text ∈ i.nested env) :
    text.toList <+ body := by
  obtain rfl | ⟨elements, hread, hi⟩ := ofBrackets_eq_ok h
  · simp [nested] at htext
  obtain ⟨element, helement, rfl⟩ : ∃ element ∈ elements, element.expression = text := by
    rcases hi with rfl | rfl
    · exact Element.expression_of_mem_items htext
    · obtain ⟨entry, hentry, rfl⟩ := mem_map.mp htext
      exact Element.expression_of_mem_entries hentry
  obtain ⟨part, hpart, hsublist⟩ := Element.sublist_of_readAll hread helement
  exact hsublist.trans (Text.sublist_of_mem_splitTopLevel hpart)

/-- The expressions in an operand that is not a path stand behind a bracket. -/
theorem sublist_of_ofOperand {atom : String} (h : ofOperand expression atom = .ok i) {text : String}
    (htext : text ∈ i.nested env) : i = load atom ∨ '[' :: text.toList <+ atom.toList := by
  obtain ⟨x, rfl⟩ | ⟨s, rfl⟩ | rfl | ⟨rest, hatom, hbrackets⟩ := ofOperand_eq_ok h
  · simp [nested] at htext
  · simp [nested] at htext
  · exact .inl rfl
  · rw [hatom]
    have hbody := (sublist_of_ofBrackets hbrackets htext).trans (dropLast_sublist rest)
    exact .inr (cons_sublist_cons.mpr hbody)

end Instruction

/-! ## Atoms -/

/-- An atom of a list to which a part has been added is this part or was there before. -/
theorem mem_consAtom {part : List Char} {atoms : List String} {atom : String}
    (h : atom ∈ consAtom part atoms) : atom.toList = part.reverse ∨ atom ∈ atoms := by
  unfold consAtom at h
  split at h
  · exact .inr h
  · rcases mem_cons.mp h with rfl | hrest
    · exact .inl (by simp)
    · exact .inr hrest

/-- Each atom of an expression consists of characters of the part in hand and of the rest. -/
theorem sublist_of_splitAtomsFrom {expression : String} {mode : AtomMode} {part cs : List Char}
    {atoms : List String} (h : splitAtomsFrom expression mode part cs = .ok atoms) {atom : String}
    (hatom : atom ∈ atoms) : atom.toList <+ part.reverse ++ cs := by
  fun_induction splitAtomsFrom expression mode part cs generalizing atoms with
  | case1 mode part fault _ => cases h
  | case2 mode part _ =>
    cases h
    obtain hpart | hnil := mem_consAtom hatom
    · simp [hpart]
    · simp at hnil
  | case3 part c rest mode _ ih => simpa using ih h hatom
  | case4 part rest _ => cases h
  | case5 part c rest _ _ _ ih =>
    obtain ⟨others, hothers, rfl⟩ := map_eq_ok_iff.mp h
    obtain hpart | hmem := mem_consAtom hatom
    · simp [hpart]
    · have hrest : atom.toList <+ rest := ih hothers hmem
      exact hrest.trans ((sublist_cons_self c rest).trans (sublist_append_right _ _))
  | case6 part c rest _ _ _ _ ih =>
    obtain ⟨others, hothers, rfl⟩ := map_eq_ok_iff.mp h
    obtain hpart | hmem := mem_consAtom hatom
    · simp [hpart]
    · refine Sublist.trans ?_ (sublist_append_right _ _)
      rcases mem_cons.mp hmem with rfl | hmem
      · simp
      · have hrest : atom.toList <+ rest := ih hothers hmem
        exact hrest.trans (sublist_cons_self c rest)
  | case7 part c rest _ _ _ _ ih => simpa using ih h hatom
  | case8 mode part c rest _ ih => simpa using ih h hatom

/-- An expression in another one stands behind a bracket of it, or in a path of it. -/
theorem Environment.sublist_of_mem_nested {env : Environment} {expression text : String}
    (h : text ∈ env.nested expression) :
    '[' :: text.toList <+ expression.toList ∨
      ∃ path, path.toList <+ expression.toList ∧ text ∈ env.indexes path := by
  unfold nested at h
  split at h
  · simp at h
  · next instructions hcompile =>
    obtain ⟨i, hi, htext⟩ := mem_flatMap.mp h
    obtain ⟨p, hsplit⟩ := exists_phrase_of_compile hcompile
    rw [p.compile_eq hsplit] at hcompile
    obtain ⟨item, hitem, hlower⟩ := exists_of_mem_of_mapM_eq_ok hcompile hi
    cases item with
    | operand atom =>
      have hatom : atom ∈ p.atoms := by
        rw [← p.map_atom_lexemes]
        exact mem_map.mpr ⟨_, Phrase.operand_mem_lexemes hitem, rfl⟩
      have hsublist : atom.toList <+ expression.toList := sublist_of_splitAtomsFrom hsplit hatom
      rcases Instruction.sublist_of_ofOperand hlower htext with rfl | hbracket
      · exact .inr ⟨atom, hsublist, htext⟩
      · exact .inl (hbracket.trans hsublist)
    | unary op | binary op | call f =>
      cases hlower
      simp [Instruction.nested] at htext

/-! ## Paths -/

/-- Each index of a path lies within the path, behind its opening bracket. -/
theorem Path.sublist_of_mem_parts {cs : List Char} {text : String}
    (h : Path.Part.index text ∈ Path.parts cs) : '[' :: text.toList <+ cs := by
  fun_induction Path.parts cs with
  | case1 => simp at h
  | case2 rest name hname => simp at h
  | case3 rest name hname ih =>
    have hrest : '[' :: text.toList <+ rest.drop name.length := ih (by simpa using h)
    exact (hrest.trans (drop_sublist _ _)).trans (sublist_cons_self _ _)
  | case4 rest _ hclose => simp at h
  | case5 rest close hdot hclose ih =>
    rcases mem_cons.mp h with hfirst | hmem
    · obtain rfl : text = String.ofList (rest.take (close - 1)) := by simpa using hfirst
      simpa using take_sublist (close - 1) rest
    · exact ((ih hmem).trans (drop_sublist _ _)).trans (sublist_cons_self _ _)
  | case6 c rest _ _ => simp at h

namespace Environment

variable {env : Environment}

/-- An index stands behind a bracket, once the names in its path are replaced. -/
theorem sublist_of_mem_indexes {path text : String} (h : text ∈ env.indexes path) :
    ∃ find? expanded, env = names find? ∧ Path.expand find? path = .ok expanded ∧
      '[' :: text.toList <+ expanded := by
  cases env with
  | constant => simp [indexes] at h
  | names find? =>
    simp only [indexes] at h
    split at h
    · simp at h
    · next expanded hexpand =>
      refine ⟨find?, expanded, rfl, hexpand, ?_⟩
      obtain ⟨part, hpart, htext⟩ := mem_filterMap.mp h
      cases part with
      | index expression =>
        obtain rfl : expression = text := Option.some.inj htext
        exact ((Path.sublist_of_mem_parts hpart).trans (drop_sublist _ _)).trans
          (Text.trim_sublist _)
      | field name | flawed flaw => cases htext

/-- Whether some variable is a text with a character in it. -/
def Holds (env : Environment) (c : Char) : Prop :=
  ∃ find? name v s, env = names find? ∧ find? name = some v ∧ v.text? = some s ∧ c ∈ s.toList

/-- Names are replaced without bringing in a character that no variable holds. -/
theorem count_expandFrom_le {find? : String → Option Value} {c : Char}
    (hc : ¬ (names find?).Holds c) {path : String} {depth : ℕ} {name? : Option (List Char)}
    {cs expanded : List Char} (h : Path.expandFrom path find? depth name? cs = .ok expanded) :
    expanded.count c ≤ cs.count c := by
  fun_induction Path.expandFrom path find? depth name? cs generalizing expanded with
  | case1 => cases h; simp
  | case2 | case3 | case4 | case6 => cases h
  | case5 depth name rest identifier hidentifier v hv s hs =>
    rename_i ih
    obtain ⟨others, hothers, rfl⟩ := map_eq_ok_iff.mp h
    have hnone : s.toList.count c = 0 :=
      count_eq_zero.mpr fun hmem => hc ⟨find?, _, v, s, rfl, hv, hs, hmem⟩
    rw [count_append, hnone, Nat.zero_add]
    exact (ih hothers).trans (count_le_count_cons ..)
  | case7 depth name c' rest hend ih => exact (ih h).trans (count_le_count_cons ..)
  | case8 c' depth rest hstart ih => exact (ih h).trans (count_le_count_cons ..)
  | case9 depth c' rest hstart depth' =>
    rename_i ih
    obtain ⟨others, hothers, rfl⟩ := map_eq_ok_iff.mp h
    rw [count_cons, count_cons]
    exact Nat.add_le_add_right (ih hothers) _

/-- Replacing a name takes an angle bracket away, unless a variable brings a new one in. -/
theorem expandFrom_eq_or_count_lt {find? : String → Option Value}
    (hangle : ¬ (names find?).Holds '<') {path : String} {depth : ℕ} {cs expanded : List Char}
    (h : Path.expandFrom path find? depth none cs = .ok expanded) :
    expanded = cs ∨ expanded.count '<' < cs.count '<' := by
  induction cs generalizing depth expanded with
  | nil =>
    cases h
    exact .inl rfl
  | cons c rest ih =>
    unfold Path.expandFrom at h
    split at h
    · next hstart =>
      obtain rfl : c = '<' := by simp_all
      have hcount := count_expandFrom_le hangle h
      exact .inr (by simpa using Nat.lt_succ_of_le hcount)
    · obtain ⟨others, hothers, rfl⟩ := map_eq_ok_iff.mp h
      rcases ih hothers with rfl | hlt
      · exact .inl rfl
      · rw [count_cons, count_cons]
        exact .inr (Nat.add_lt_add_right hlt _)

/-- A text that lies within another one behind an opening bracket has fewer such brackets and no
more names to replace. -/
theorem count_of_cons_sublist {inner outer : List Char} (h : '[' :: inner <+ outer) :
    inner.count '[' < outer.count '[' ∧ inner.count '<' ≤ outer.count '<' := by
  have hsquare := h.count_le '['
  have hangle := h.count_le '<'
  simp only [count_cons_self] at hsquare
  rw [count_cons_of_ne (by decide)] at hangle
  omega

/-- Without a square bracket in a variable, each level of nesting takes one away. -/
theorem count_lt_of_mem_nested (hsquare : ¬ env.Holds '[') {expression text : String}
    (h : text ∈ env.nested expression) :
    text.toList.count '[' < expression.toList.count '[' := by
  rcases sublist_of_mem_nested h with hbracket | ⟨path, hpath, hindex⟩
  · exact (count_of_cons_sublist hbracket).1
  · obtain ⟨find?, expanded, rfl, hexpand, hbracket⟩ := sublist_of_mem_indexes hindex
    calc text.toList.count '[' < expanded.count '[' := (count_of_cons_sublist hbracket).1
      _ ≤ path.toList.count '[' := count_expandFrom_le hsquare hexpand
      _ ≤ expression.toList.count '[' := hpath.count_le '['

/-- Without an angle bracket in a variable, each level of nesting takes a square bracket away or
replaces a name for good. -/
theorem lex_of_mem_nested (hangle : ¬ env.Holds '<') {expression text : String}
    (h : text ∈ env.nested expression) :
    Prod.Lex (· < ·) (· < ·) (text.toList.count '<', text.toList.count '[')
      (expression.toList.count '<', expression.toList.count '[') := by
  rw [Prod.lex_iff]
  simp only
  rcases sublist_of_mem_nested h with hbracket | ⟨path, hpath, hindex⟩
  · have hcount := count_of_cons_sublist hbracket
    omega
  · obtain ⟨find?, expanded, rfl, hexpand, hbracket⟩ := sublist_of_mem_indexes hindex
    have hcount := count_of_cons_sublist hbracket
    have hsquare := hpath.count_le '['
    have hle := hpath.count_le '<'
    rcases expandFrom_eq_or_count_lt hangle hexpand with rfl | hlt
    · omega
    · omega

/-- Nesting comes to an end if the variables hold no angle bracket. -/
theorem nested_wellFounded (hangle : ¬ env.Holds '<') :
    WellFounded fun text expression => text ∈ env.nested expression :=
  Subrelation.wf (lex_of_mem_nested hangle)
    (InvImage.wf _ (Prod.lex Nat.lt_wfRel Nat.lt_wfRel).wf)

end Environment

end Logo
