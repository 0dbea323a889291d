import Logo.Proofs.Text.TopLevel

/-!
# Entries of literals

A literal in square brackets is an object if all its elements are entries, and an array if none is.
An element is an entry if what stands in front of its first colon is taken for the name of a field.
That is an identifier or a string literal, but also any text that begins and ends with a double
quote, such as a comparison of two string literals.
-/

namespace Logo

variable {expression : String} {cs : List Char}

/-! ## Elements -/

namespace Element

/-- Whether a text spells the name of a field: it is an identifier or one whole string literal. -/
inductive Spells : List Char → String → Prop
  | identifier {cs : List Char} (h : isIdentifierChars cs = true) : Spells cs (String.ofList cs)
  | literal {body key : List Char}
      (hend : Text.stringEnd? ('"' :: (body ++ ['"'])) 0 = some (body.length + 1))
      (hkey : Text.unescape body = .ok key) : Spells ('"' :: (body ++ ['"'])) (String.ofList key)

/-- Whether a text only begins and ends like a string literal: the literal that it begins with ends
before the last double quote. The name is decoded from all that stands between the outer ones. -/
inductive Misspells : List Char → String → Prop
  | literal {body key : List Char}
      (hend : Text.stringEnd? ('"' :: (body ++ ['"'])) 0 ≠ some (body.length + 1))
      (hkey : Text.unescape body = .ok key) : Misspells ('"' :: (body ++ ['"'])) (String.ofList key)

/-- Whether a text is taken for the name of a field. -/
def Names (cs : List Char) (name : String) : Prop := Spells cs name ∨ Misspells cs name

/-- Whether an element is an entry with a name and the text of a value: what stands in front of its
first colon that counts gives the name, and all that stands behind it is the value. -/
def IsEntry (N : List Char → String → Prop) (cs : List Char) (entry : String × String) : Prop :=
  ∃ left right, Text.CutAt ':' cs left right ∧ N (Text.trim left) entry.1 ∧
    entry.2 = String.ofList (Text.trim right)

/-- A text does not spell a name and misspell one. -/
theorem Misspells.not_spells {name name' : String} (h : Misspells cs name) : ¬Spells cs name' := by
  intro hspells
  cases h with
  | @literal body key hend hkey =>
    generalize hcs : '"' :: (body ++ ['"']) = cs at hspells
    cases hspells with
    | identifier hidentifier =>
      subst hcs
      cases hidentifier
    | @literal body' key' hend' hkey' =>
      obtain rfl : body = body' := by simpa using hcs
      exact hend hend'

namespace IsEntry

variable {N N' : List Char → String → Prop} {entry entry' : String × String}

/-- What is an entry for some spellings of names is one for more of them. -/
theorem mono (h : IsEntry N cs entry) (hN : ∀ cs name, N cs name → N' cs name) :
    IsEntry N' cs entry := by
  obtain ⟨left, right, hcut, hname, hvalue⟩ := h
  exact ⟨left, right, hcut, hN _ _ hname, hvalue⟩

/-- An element with a misspelled name is not an entry with a name that is spelled. -/
theorem not_spells (h : IsEntry Misspells cs entry) : ¬IsEntry Spells cs entry' := by
  rintro ⟨left', right', hcut', hname', _⟩
  obtain ⟨left, right, hcut, hname, _⟩ := h
  obtain ⟨rfl, _⟩ := hcut.unique hcut'
  exact hname.not_spells hname'

/-- What is taken for a name is spelled or misspelled. -/
theorem spells_or_misspells (h : IsEntry Names cs entry) :
    IsEntry Spells cs entry ∨ IsEntry Misspells cs entry := by
  obtain ⟨left, right, hcut, hspells | hmisspells, hvalue⟩ := h
  · exact .inl ⟨left, right, hcut, hspells, hvalue⟩
  · exact .inr ⟨left, right, hcut, hmisspells, hvalue⟩

end IsEntry

/-- An element with a colon that counts is read from what stands on both sides of it. -/
theorem read_of_cutAt {left right : List Char} (h : Text.CutAt ':' cs left right) :
    read expression cs =
      let key := Text.trim left
      let value := String.ofList (Text.trim right)
      if isIdentifierChars key then .ok (.entry (String.ofList key) value)
      else if 2 ≤ key.length && key.head? = some '"' && key.getLast? = some '"' then
        (unescapeIn expression (key.drop 1).dropLast).map (.entry · value)
      else .ok (.item (String.ofList cs)) := by
  have hjoined := Text.intercalate_splitTopLevelFrom ':' .outside 0 [] right
  rw [read, h.splitTopLevel_eq rfl]
  cases hright : Text.splitTopLevel ':' right with
  | nil => exact absurd hright (Text.splitTopLevelFrom_ne_nil ':' .outside 0 [] right)
  | cons second more =>
    rw [Text.splitTopLevel] at hright
    rw [hright, List.reverse_nil, List.nil_append] at hjoined
    dsimp only
    rw [hjoined]

/-- The test for a double quote at each end. -/
theorem quotes_iff {key : List Char} :
    (2 ≤ key.length && key.head? = some '"' && key.getLast? = some '"') = true ↔
      key = '"' :: ((key.drop 1).dropLast ++ ['"']) := by
  simp only [Bool.and_eq_true, decide_eq_true_eq]
  constructor
  · rintro ⟨⟨hlength, hhead⟩, hlast⟩
    cases key with
    | nil => cases hhead
    | cons c rest =>
      obtain rfl : c = '"' := by simpa using hhead
      have hne : rest ≠ [] := by
        rintro rfl
        simp at hlength
      have hend : rest.getLast? = some '"' := by
        rwa [List.getLast?_cons_of_ne_nil hne] at hlast
      rw [List.drop_one, List.tail_cons, List.dropLast_append_getLast? _ hend]
  · intro hkey
    rw [hkey, ← List.cons_append, List.getLast?_concat]
    simp

/-- A name that is decoded within an expression is the decoded body of a literal. -/
theorem unescape_of_unescapeIn {body : List Char} {key : String}
    (h : unescapeIn expression body = .ok key) :
    ∃ decoded, Text.unescape body = .ok decoded ∧ key = String.ofList decoded := by
  unfold unescapeIn at h
  split at h
  · next decoded hdecoded =>
    cases h
    exact ⟨decoded, hdecoded, rfl⟩
  · cases h
  · cases h

/-- What is no identifier and has no double quote at each end is not taken for a name. -/
theorem not_names_of_plain {key : List Char} (hidentifier : ¬isIdentifierChars key = true)
    (hquotes : ¬key = '"' :: ((key.drop 1).dropLast ++ ['"'])) (name : String) :
    ¬Names key name := by
  rintro (hspells | hmisspells)
  · cases hspells with
    | identifier h => exact hidentifier h
    | literal => exact hquotes (by simp)
  · cases hmisspells with
    | literal => exact hquotes (by simp)

/-- An element is read as an entry if something in it is taken for a name, and else it is an item.
-/
theorem cases_of_read {element : Element} (h : read expression cs = .ok element) :
    (∃ entry : String × String, element = .entry entry.1 entry.2 ∧ IsEntry Names cs entry) ∨
      element = .item (String.ofList cs) ∧ ∀ entry, ¬IsEntry Names cs entry := by
  by_cases hcut : ∃ left right, Text.CutAt ':' cs left right
  · obtain ⟨left, right, hcut⟩ := hcut
    rw [read_of_cutAt hcut] at h
    dsimp only at h
    split_ifs at h with hidentifier hquotes
    · cases h
      exact .inl ⟨(_, _), rfl, left, right, hcut, .inl (.identifier hidentifier), rfl⟩
    · obtain ⟨key, hkey, rfl⟩ := map_eq_ok_iff.mp h
      obtain ⟨decoded, hdecoded, rfl⟩ := unescape_of_unescapeIn hkey
      have hleft := quotes_iff.mp hquotes
      generalize ((Text.trim left).drop 1).dropLast = body at hleft hdecoded
      refine .inl ⟨(_, _), rfl, left, right, hcut, ?_, rfl⟩
      rw [hleft]
      by_cases hend : Text.stringEnd? ('"' :: (body ++ ['"'])) 0 = some (body.length + 1)
      · exact .inl (.literal hend hdecoded)
      · exact .inr (.literal hend hdecoded)
    · cases h
      refine .inr ⟨rfl, ?_⟩
      rintro entry ⟨left', right', hcut', hname, _⟩
      obtain ⟨rfl, _⟩ := hcut.unique hcut'
      exact not_names_of_plain hidentifier (mt quotes_iff.mpr hquotes) _ hname
  · have hnone : ∀ left right, ¬Text.CutAt ':' cs left right := fun left right h =>
      hcut ⟨left, right, h⟩
    rw [read, Text.splitTopLevel_of_not_cutAt hnone] at h
    cases h
    refine .inr ⟨rfl, ?_⟩
    rintro entry ⟨left, right, hcut, _⟩
    exact hnone left right hcut

/-! ## Literals -/

/-- The trimmed texts of the elements of a literal; a blank body has none. -/
def Texts (body : List Char) (texts : List (List Char)) : Prop :=
  if Text.trim body = [] then texts = []
  else ∃ parts, Text.Parts ',' body parts ∧ texts = parts.map Text.trim

/-- A literal has elements exactly if its body is not blank. -/
theorem Texts.ne_nil_iff {body : List Char} {texts : List (List Char)} (h : Texts body texts) :
    texts ≠ [] ↔ Text.trim body ≠ [] := by
  unfold Texts at h
  split at h
  · next hblank => simp [h, hblank]
  · next hblank =>
    obtain ⟨parts, hparts, rfl⟩ := h
    cases hparts with
    | whole | cut => simp [hblank]

/-- What the text of an element is read as. -/
inductive IsReading : List Char → Element → Prop
  | item {cs : List Char} (h : ∀ entry, ¬IsEntry Names cs entry) :
      IsReading cs (.item (String.ofList cs))
  | entry {cs : List Char} {name value : String} (h : IsEntry Names cs (name, value)) :
      IsReading cs (.entry name value)

/-- An element is read as what its text says. -/
theorem isReading_of_read {element : Element} (h : read expression cs = .ok element) :
    IsReading cs element := by
  obtain ⟨entry, rfl, hentry⟩ | ⟨rfl, hnone⟩ := cases_of_read h
  · exact .entry hentry
  · exact .item hnone

/-- The elements of a literal are read one by one. -/
theorem forall₂_of_readAll {literal : String} {parts : List (List Char)} {elements : List Element}
    (h : readAll expression literal parts = .ok elements) :
    List.Forall₂ IsReading (parts.map Text.trim) elements := by
  induction parts generalizing elements with
  | nil =>
    cases h
    exact .nil
  | cons part parts ih =>
    unfold readAll at h
    split_ifs at h
    split at h
    · cases h
    · next element helement =>
      obtain ⟨others, hothers, rfl⟩ := map_eq_ok_iff.mp h
      exact .cons (isReading_of_read helement) (ih hothers)

variable {texts : List (List Char)} {elements : List Element}

/-- Without items, every element is an entry. -/
theorem forall₂_entries (h : List.Forall₂ IsReading texts elements) (hitems : items elements = []) :
    List.Forall₂ (IsEntry Names) texts (entries elements) := by
  induction h with
  | nil => exact .nil
  | cons hfirst _ ih =>
    cases hfirst with
    | item => cases hitems
    | entry hentry => exact .cons hentry (ih hitems)

/-- Without entries, every element is an item. -/
theorem items_eq (h : List.Forall₂ IsReading texts elements) (hentries : entries elements = []) :
    items elements = texts.map String.ofList ∧ ∀ cs ∈ texts, ∀ entry, ¬IsEntry Names cs entry := by
  induction h with
  | nil => exact ⟨rfl, by simp⟩
  | @cons cs _ _ elements hfirst _ ih =>
    cases hfirst with
    | entry => cases hentries
    | item hnone =>
      obtain ⟨hitems, hothers⟩ := ih hentries
      exact ⟨congrArg (String.ofList cs :: ·) hitems, List.forall_mem_cons.mpr ⟨hnone, hothers⟩⟩

end Element

/-- Each member of a list that is related to another one is related to something. -/
theorem exists_of_mem_of_forall₂ {α β : Type} {R : α → β → Prop} {as : List α} {bs : List β}
    (h : List.Forall₂ R as bs) {a : α} (ha : a ∈ as) : ∃ b, R a b := by
  obtain ⟨k, hk, rfl⟩ := List.getElem_of_mem ha
  exact ⟨_, h.get hk (h.length_eq ▸ hk)⟩

namespace Instruction

variable {body : List Char} {texts : List (List Char)} {i : Instruction}

/-- A literal is an object of the entries that its elements are, or an array of their texts if none
of them is an entry. -/
theorem cases_of_ofBrackets {literal : String} (h : ofBrackets expression literal body = .ok i) :
    ∃ texts, Element.Texts body texts ∧
      ((∃ entries, i = .object entries ∧ texts ≠ [] ∧
          List.Forall₂ (Element.IsEntry Element.Names) texts entries) ∨
        i = .array (texts.map String.ofList) ∧
          ∀ cs ∈ texts, ∀ entry, ¬Element.IsEntry Element.Names cs entry) := by
  unfold ofBrackets at h
  split at h
  · next hblank =>
    cases h
    refine ⟨[], ?_, .inr ⟨rfl, by simp⟩⟩
    rw [Element.Texts, if_pos (List.isEmpty_iff.mp hblank)]
  · next hblank =>
    have htexts : Element.Texts body ((Text.splitTopLevel ',' body).map Text.trim) := by
      rw [Element.Texts, if_neg (mt List.isEmpty_iff.mpr hblank)]
      exact ⟨_, (Text.parts_iff rfl).mpr rfl, rfl⟩
    refine ⟨_, htexts, ?_⟩
    split at h
    · cases h
    · next elements helements =>
      have hreadings := Element.forall₂_of_readAll helements
      split at h
      · cases h
      · next hitems hentries =>
        cases h
        rw [← hentries]
        refine .inl ⟨_, rfl, ?_, Element.forall₂_entries hreadings hitems⟩
        exact htexts.ne_nil_iff.mpr (mt List.isEmpty_iff.mpr hblank)
      · next hentries =>
        cases h
        obtain ⟨hitems, hnone⟩ := Element.items_eq hreadings hentries
        exact .inr ⟨congrArg array hitems, hnone⟩

/-- Whether a literal has become what its elements say. It is an object exactly if its body is not
blank and each element is an entry with a name that is spelled. Then these are the fields of the
object, and otherwise it is the array of the texts. -/
structure Recognises (body : List Char) (texts : List (List Char)) (i : Instruction) : Prop where
  object_iff : (∃ entries, i = .object entries) ↔
    Text.trim body ≠ [] ∧ ∀ cs ∈ texts, ∃ entry, Element.IsEntry Element.Spells cs entry
  entries : ∀ entries, i = .object entries →
    List.Forall₂ (Element.IsEntry Element.Spells) texts entries
  items : (¬∃ entries, i = .object entries) → i = .array (texts.map String.ofList)

/-- A literal in square brackets is read from its body. -/
theorem ofBrackets_of_ofOperand {body : String}
    (h : ofOperand expression ("[" ++ body ++ "]") = .ok i) :
    ofBrackets expression ("[" ++ body ++ "]") body.toList = .ok i := by
  have htext : ("[" ++ body ++ "]").toList = '[' :: (body.toList ++ [']']) := by simp
  simp only [ofOperand, htext] at h
  rw [if_neg (by decide), if_neg (by decide), if_pos trivial] at h
  split_ifs at h
  rwa [List.dropLast_concat] at h

/-- What a literal has become is what its elements say if no name is misspelled. -/
theorem recognises_iff (htexts : Element.Texts body texts)
    (h : (∃ entries, i = .object entries ∧ texts ≠ [] ∧
        List.Forall₂ (Element.IsEntry Element.Names) texts entries) ∨
      i = .array (texts.map String.ofList) ∧
        ∀ cs ∈ texts, ∀ entry, ¬Element.IsEntry Element.Names cs entry) :
    Recognises body texts i ↔
      ∀ cs ∈ texts, ∀ entry, ¬Element.IsEntry Element.Misspells cs entry := by
  have hnames {cs : List Char} {entry : String × String}
      (hentry : Element.IsEntry Element.Misspells cs entry) : Element.IsEntry Element.Names cs entry :=
    hentry.mono fun _ _ => .inr
  constructor
  · intro hrecognises cs hcs entry hentry
    obtain ⟨entries, rfl, _, _⟩ | ⟨rfl, hnone⟩ := h
    · have hspells := hrecognises.object_iff.mp ⟨entries, rfl⟩
      obtain ⟨entry', hentry'⟩ := hspells.2 cs hcs
      exact hentry.not_spells hentry'
    · exact hnone cs hcs entry (hnames hentry)
  · intro hproper
    obtain ⟨entries, rfl, hne, hentries⟩ | ⟨rfl, hnone⟩ := h
    · have hspells : List.Forall₂ (Element.IsEntry Element.Spells) texts entries :=
        ((List.forall₂_and_left _ _).mpr ⟨hproper, hentries⟩).imp fun cs entry hboth =>
          hboth.2.spells_or_misspells.resolve_right (hboth.1 entry)
      refine ⟨⟨fun _ => ⟨htexts.ne_nil_iff.mp hne, ?_⟩, fun _ => ⟨entries, rfl⟩⟩, ?_, ?_⟩
      · intro cs hcs
        exact exists_of_mem_of_forall₂ hspells hcs
      · rintro entries' hentries'
        cases hentries'
        exact hspells
      · intro hobject
        exact absurd ⟨entries, rfl⟩ hobject
    · refine ⟨⟨?_, ?_⟩, ?_, fun _ => rfl⟩
      · rintro ⟨entries, hentries⟩
        cases hentries
      · rintro ⟨hblank, hspells⟩
        obtain ⟨cs, hcs⟩ := List.exists_mem_of_ne_nil _ (htexts.ne_nil_iff.mpr hblank)
        obtain ⟨entry, hentry⟩ := hspells cs hcs
        exact absurd (hentry.mono fun _ _ => .inl) (hnone cs hcs entry)
      · intro entries hentries
        cases hentries

end Instruction

/-- **Entries are recognised by their ends.** A literal that can be read is an object if every
element has a colon that counts with something in front that is taken for a name, and the array of
its elements if none has. What is taken for a name is an identifier, a string literal, or another
text with a double quote at each end. So the literal is an object exactly if its body is not blank
and every element has an identifier or one whole string literal in front of its first colon, with
these names and all that stands behind the colons as values, and else the array of its elements, if
and only if no element has such another text there. -/
theorem entries_recognised_iff {body : String} {i : Instruction}
    (h : Instruction.ofOperand expression ("[" ++ body ++ "]") = .ok i) :
    ∃ texts, Element.Texts body.toList texts ∧
      ((∃ entries, i = .object entries ∧ texts ≠ [] ∧
          List.Forall₂ (Element.IsEntry Element.Names) texts entries) ∨
        i = .array (texts.map String.ofList) ∧
          ∀ cs ∈ texts, ∀ entry, ¬Element.IsEntry Element.Names cs entry) ∧
      (Instruction.Recognises body.toList texts i ↔
        ∀ cs ∈ texts, ∀ entry, ¬Element.IsEntry Element.Misspells cs entry) := by
  obtain ⟨texts, htexts, hcases⟩ :=
    Instruction.cases_of_ofBrackets (Instruction.ofBrackets_of_ofOperand h)
  exact ⟨texts, htexts, hcases, Instruction.recognises_iff htexts hcases⟩

/-- A colon in a name, in a nested literal and in a value, and a comma in a call, change nothing. -/
theorem entries_recognised_iff_nested :
    let body := "a: [b:c], \"d:\" : pow(1, 2):e"
    let i := Instruction.object [("a", "[b:c]"), ("d:", "pow(1, 2):e")]
    Instruction.ofOperand "" ("[" ++ body ++ "]") = .ok i ∧
      ∃ texts, Element.Texts body.toList texts ∧
        (Instruction.Recognises body.toList texts i ↔
          ∀ cs ∈ texts, ∀ entry, ¬Element.IsEntry Element.Misspells cs entry) := by
  have h : Instruction.ofOperand "" ("[" ++ "a: [b:c], \"d:\" : pow(1, 2):e" ++ "]") =
      .ok (.object [("a", "[b:c]"), ("d:", "pow(1, 2):e")]) := by rfl
  obtain ⟨texts, htexts, _, hiff⟩ := entries_recognised_iff h
  exact ⟨h, texts, htexts, hiff⟩

/-- The range from a comparison of two texts is taken for an entry, with all from the first quote to
the last one in its name. -/
theorem comparison_is_taken_for_name :
    let text := "\"a\"=\"b\":3"
    compile ("[" ++ text ++ "]") = .ok [.object [("a\"=\"b", "3")]] ∧
      Element.Texts text.toList [text.toList] ∧
      ¬Instruction.Recognises text.toList [text.toList] (.object [("a\"=\"b", "3")]) := by
  have hcut : Text.CutAt ':' "\"a\"=\"b\":3".toList "\"a\"=\"b\"".toList ['3'] := by
    refine ⟨by decide, rfl, fun l r hleft => ?_⟩
    have hmem : ':' ∈ "\"a\"=\"b\"".toList := hleft ▸ by simp
    exact absurd hmem (by decide)
  have hentry : Element.IsEntry Element.Misspells "\"a\"=\"b\":3".toList ("a\"=\"b", "3") := by
    refine ⟨_, _, hcut, ?_, rfl⟩
    have htrim : Text.trim "\"a\"=\"b\"".toList = '"' :: ("a\"=\"b".toList ++ ['"']) := by decide
    rw [htrim]
    exact .literal (by decide) rfl
  have htexts : Element.Texts "\"a\"=\"b\":3".toList ["\"a\"=\"b\":3".toList] := by
    rw [Element.Texts, if_neg (by decide)]
    exact ⟨_, (Text.parts_iff rfl).mpr rfl, by decide⟩
  refine ⟨by rfl, htexts, fun hrecognises => ?_⟩
  cases hrecognises.entries _ rfl with
  | cons hspells _ => exact hentry.not_spells hspells

end Logo
