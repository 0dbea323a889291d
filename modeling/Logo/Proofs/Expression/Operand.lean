import Logo.Proofs.Expression.Compile
import Logo.Proofs.Number.Text
import Logo.Proofs.Text.Enclosed

/-!
# Expressions of one operand

A numeral, a string literal and an array literal are compiled to one instruction each, and a sign
before them to one more. An array literal is cut at its own commas into the texts of its items.
-/

namespace Logo

variable {expression : String}

/-- Prefix operators are lowered one by one, and none of them can fail. -/
theorem Instruction.mapM_ofItem_unary (ops : List UnaryOp) :
    (ops.map Item.unary).mapM (ofItem expression) = .ok (ops.map unary) := by
  induction ops with
  | nil => rfl
  | cons op ops ih =>
    rw [List.map_cons, List.mapM_cons, ih]
    rfl

/-- A primary behind prefix operators, with no binary operator at any of the six levels. -/
def Phrase.ofPrimary (ops : List UnaryOp) (e : Phrase 8) : Phrase 1 :=
  .tighter (by decide) <| .tighter (by decide) <| .tighter (by decide) <|
    .tighter (by decide) <| .tighter (by decide) <| .tighter (by decide) <| .signed ops e

/-- An operand behind prefix operators is compiled to its instruction and theirs. -/
theorem compile_of_operand (ops : List UnaryOp) {atom : String} {i : Instruction}
    (hatom : isOperandAtom atom = true)
    (hsplit : splitAtoms expression = .ok (ops.map (·.symbol.toString) ++ [atom]))
    (hi : Instruction.ofOperand expression atom = .ok i) :
    compile expression = .ok (ops.reverse.map .unary ++ [i]) := by
  let p : Phrase 1 := .ofPrimary ops (.operand atom hatom)
  have hcompile := p.compile_eq hsplit
  have hoperand : Instruction.ofItem expression (.operand atom) = .ok i := hi
  have hpolish : p.compiled.polish = ops.reverse.map .unary ++ [.operand atom] := by
    simp [p, Phrase.ofPrimary, Phrase.compiled]
  rw [hcompile, hpolish, List.mapM_append, Instruction.mapM_ofItem_unary, List.mapM_cons,
    hoperand]
  rfl

/-- An atom that does not start with punctuation can be an operand. -/
theorem isOperandAtom_ofList {c : Char} {cs : List Char} (hc : isPunctuation c = false) :
    isOperandAtom (String.ofList (c :: cs)) = true := by
  cases cs with
  | nil => simp [isOperandAtom, hc]
  | cons d cs => simp [isOperandAtom]

/-! ## Numerals -/

/-- The characters of a numeral stay in one atom and separate nothing. -/
theorem numeral_char {c : Char} (h : c.isDigit = true ∨ c = '.') :
    isPunctuation c = false ∧ Text.isBlank c = false ∧ Text.isDelimiter c = false ∧
      c ≠ ',' ∧ c ≠ ':' := by
  rcases h with hdigit | rfl
  · have hdigits : ∀ k : Fin 10, let c := Char.ofNat (48 + k)
        isPunctuation c = false ∧ Text.isBlank c = false ∧ Text.isDelimiter c = false ∧
          c ≠ ',' ∧ c ≠ ':' := by decide
    simp only [Char.isDigit, Bool.and_eq_true, decide_eq_true_eq, ge_iff_le,
      UInt32.le_iff_toNat_le] at hdigit
    have hcode : 48 ≤ c.toNat ∧ c.toNat ≤ 57 := hdigit
    have hself : Char.ofNat (48 + (c.toNat - 48)) = c := by
      rw [Nat.add_sub_cancel' hcode.1, Char.ofNat_toNat]
    have hc := hdigits ⟨c.toNat - 48, by omega⟩
    rwa [hself] at hc
  · decide

/-- A numeral stays in one atom. -/
theorem splitAtomsFrom_numeral {cs : List Char} (h : ∀ c ∈ cs, c.isDigit = true ∨ c = '.')
    (atom : List Char) :
    splitAtomsFrom expression .free atom cs = .ok (consAtom (cs.reverse ++ atom) []) := by
  induction cs generalizing atom with
  | nil => rfl
  | cons c cs ih =>
    obtain ⟨hc, hcs⟩ := List.forall_mem_cons.mp h
    obtain ⟨hpunctuation, hblank, hdelimiter, _⟩ := numeral_char hc
    have hne := Text.ne_of_isDelimiter_eq_false hdelimiter
    -- A point starts a name only before an angle bracket, which no numeral has.
    have hname : cs.head? ≠ some '<' := by
      intro hhead
      have hmem := hcs '<' (List.mem_of_mem_head? hhead)
      revert hmem
      decide
    have hopening : AtomMode.opening? c cs.head? = none := by
      simp [AtomMode.opening?, hne, hname]
    simp [splitAtomsFrom, hopening, hne, hblank, hpunctuation, ih hcs]

namespace Spells

variable {cs : List Char} {x : Float}

/-- The numeral of a number is compiled to this number. -/
theorem ofOperand_eq (h : Spells cs x) :
    Instruction.ofOperand expression (String.ofList cs) = .ok (.number x) := by
  obtain ⟨⟨c, hhead, hdigit⟩, hchars, hread⟩ := h
  obtain ⟨rest, rfl⟩ := List.head?_eq_some_iff.mp hhead
  obtain ⟨d, hd, rfl⟩ := Option.map_eq_some_iff.mp hread
  have hne := Text.ne_of_isDelimiter_eq_false (numeral_char (.inl hdigit)).2.2.1
  simp [Instruction.ofOperand, hne, hdigit, hd]

/-- A numeral can be an operand. -/
theorem isOperandAtom (h : Spells cs x) : isOperandAtom (String.ofList cs) = true := by
  obtain ⟨c, hhead, hdigit⟩ := h.head
  obtain ⟨rest, rfl⟩ := List.head?_eq_some_iff.mp hhead
  exact isOperandAtom_ofList (numeral_char (.inl hdigit)).1

/-- A numeral is not empty. -/
theorem ne_nil (h : Spells cs x) : cs ≠ [] := by
  rintro rfl
  obtain ⟨c, hhead, _⟩ := h.head
  cases hhead

/-- A numeral is an expression of its number. -/
theorem compile_eq (h : Spells cs x) : compile (String.ofList cs) = .ok [.number x] := by
  refine compile_of_operand [] h.isOperandAtom ?_ h.ofOperand_eq
  rw [splitAtoms, String.toList_ofList, splitAtomsFrom_numeral h.chars]
  simp [consAtom, h.ne_nil]

/-- A numeral behind a minus is an expression of the opposite number. -/
theorem compile_minus_eq (h : Spells cs x) :
    compile (String.ofList ('-' :: cs)) = .ok [.unary .negate, .number x] := by
  refine compile_of_operand [.negate] h.isOperandAtom ?_ h.ofOperand_eq
  have hopening (next : Option Char) : AtomMode.opening? '-' next = none := by
    simp [AtomMode.opening?]
  have hblank : Text.isBlank '-' = false := by decide
  have hpunctuation : isPunctuation '-' = true := by decide
  rw [splitAtoms, String.toList_ofList, splitAtomsFrom, hopening]
  simp [hblank, hpunctuation, splitAtomsFrom_numeral h.chars, consAtom, h.ne_nil, Except.map,
    UnaryOp.symbol]

end Spells

/-! ## Text literals -/

/-- A string literal is an expression of the text in it. -/
theorem compile_quoted (cs : List Char) :
    compile (String.ofList ('"' :: (Text.escape cs ++ ['"']))) =
      .ok [.text (String.ofList cs)] := by
  have hend : Text.stringEnd? ('"' :: (Text.escape cs ++ ['"'])) 0 =
      some ((Text.escape cs).length + 1) := by
    simp [Text.stringEnd?, LiteralMode.closing?_escape]
  refine compile_of_operand [] (isOperandAtom_ofList (by decide))
    (splitAtoms_quoted cs) ?_
  simp [Instruction.ofOperand, hend, unescapeIn, Text.unescape_escape, Except.map]

/-! ## Array literals -/

/-- Whether a text can stand for an item of an array literal: it has no commas and colons of its
own, and no blanks at its ends. -/
structure IsItemText (cs : List Char) : Prop where
  settles : Text.Settles (fun c => c ≠ ',' ∧ c ≠ ':') .outside 0 cs
  head : ∃ c ∈ cs.head?, Text.isBlank c = false
  last : ∃ c ∈ cs.getLast?, Text.isBlank c = false

/-- A text with no blank at either end is left as it is when it is trimmed. -/
theorem Text.trim_of_ends {cs : List Char} (hhead : ∃ c ∈ cs.head?, isBlank c = false)
    (hlast : ∃ c ∈ cs.getLast?, isBlank c = false) : trim cs = cs := by
  have hdrop {cs : List Char} (h : ∃ c ∈ cs.head?, isBlank c = false) :
      cs.dropWhile isBlank = cs := by
    obtain ⟨c, hc, hblank⟩ := h
    obtain ⟨rest, rfl⟩ := List.head?_eq_some_iff.mp hc
    simp [hblank]
  rw [← List.head?_reverse] at hlast
  rw [trim, hdrop hhead, hdrop hlast, List.reverse_reverse]

/-- A text that does not start with a blank is not blank as a whole. -/
theorem Text.trim_ne_nil {cs : List Char} (h : ∃ c ∈ cs.head?, isBlank c = false) :
    trim cs ≠ [] := by
  obtain ⟨c, hc, hblank⟩ := h
  obtain ⟨rest, rfl⟩ := List.head?_eq_some_iff.mp hc
  intro htrim
  rw [trim, List.dropWhile_cons_of_neg (by simp [hblank]), List.reverse_eq_nil_iff,
    List.dropWhile_eq_nil_iff] at htrim
  simp [htrim c (by simp)] at hblank

namespace IsItemText

variable {cs : List Char}

/-- The text of an item is left as it is when it is trimmed. -/
theorem trim_eq (h : IsItemText cs) : Text.trim cs = cs := Text.trim_of_ends h.head h.last

/-- The blank in front of the text of an item is trimmed off. -/
theorem trim_space_eq (h : IsItemText cs) : Text.trim (' ' :: cs) = cs := by
  have hblank : Text.isBlank ' ' = true := by decide
  rw [Text.trim, List.dropWhile_cons_of_pos hblank]
  exact h.trim_eq

/-- The text of an item is not empty. -/
theorem ne_nil (h : IsItemText cs) : cs ≠ [] := by
  rintro rfl
  obtain ⟨c, hhead, _⟩ := h.head
  cases hhead

/-- A text without blanks, separators and delimiters can stand for an item. -/
theorem of_plain (hne : cs ≠ []) (h : ∀ c ∈ cs,
    Text.isBlank c = false ∧ Text.isDelimiter c = false ∧ c ≠ ',' ∧ c ≠ ':') : IsItemText cs where
  settles := .of_plain fun c hc => (h c hc).2
  head := ⟨cs.head hne, List.head?_eq_some_head hne, (h _ (List.head_mem hne)).1⟩
  last := ⟨cs.getLast hne, List.getLast?_eq_some_getLast hne, (h _ (List.getLast_mem hne)).1⟩

/-- A text between two characters can stand for an item if it settles with them. -/
theorem of_enclosed {first last : Char} {body : List Char}
    (hsettles : Text.Settles (fun c => c ≠ ',' ∧ c ≠ ':') .outside 0 (first :: (body ++ [last])))
    (hfirst : Text.isBlank first = false) (hlast : Text.isBlank last = false) :
    IsItemText (first :: (body ++ [last])) where
  settles := hsettles
  head := ⟨first, rfl, hfirst⟩
  last := ⟨last, by rw [← List.cons_append, List.getLast?_concat]; rfl, hlast⟩

/-- A text without a colon of its own is an item. -/
theorem read_eq (h : IsItemText cs) :
    Element.read expression cs = .ok (.item (String.ofList cs)) := by
  have hsplit : Text.splitTopLevel ':' cs = [cs] := by
    have hwhole := Text.splitTopLevelFrom_append h.settles (fun c hc => hc.2) [] []
    simpa [Text.splitTopLevel, Text.splitTopLevelFrom] using hwhole
  rw [Element.read, hsplit]

end IsItemText

/-- A numeral can stand for an item, also behind a minus. -/
theorem Spells.isItemText {cs : List Char} {x : Float} (h : Spells cs x) :
    IsItemText cs ∧ IsItemText ('-' :: cs) := by
  have hchars c (hc : c ∈ cs) := (numeral_char (h.chars c hc)).2
  exact ⟨.of_plain h.ne_nil hchars,
    .of_plain (List.cons_ne_nil _ _) (List.forall_mem_cons.mpr ⟨by decide, hchars⟩)⟩

/-- An array literal is cut into its items. -/
theorem splitTopLevelFrom_intercalate {texts : List (List Char)} {text part : List Char}
    (h : ∀ cs ∈ text :: texts, IsItemText cs) :
    Text.splitTopLevelFrom ',' .outside 0 part ([',', ' '].intercalate (text :: texts)) =
      (part.reverse ++ text) :: texts.map (' ' :: ·) := by
  induction texts generalizing text part with
  | nil =>
    have hwhole := Text.splitTopLevelFrom_append (h text List.mem_cons_self).settles
      (fun c hc => hc.1) part []
    simpa [Text.splitTopLevelFrom] using hwhole
  | cons next texts ih =>
    obtain ⟨htext, htexts⟩ := List.forall_mem_cons.mp h
    rw [List.intercalate_cons_cons, List.append_assoc,
      Text.splitTopLevelFrom_append htext.settles (fun c hc => hc.1)]
    simp [Text.splitTopLevelFrom, ih htexts]

/-- Parts that are texts of items are read as these items. -/
theorem Element.readAll_eq {literal : String} {parts : List (List Char)}
    (h : ∀ part ∈ parts, IsItemText (Text.trim part)) :
    readAll expression literal parts =
      .ok (parts.map fun part => .item (String.ofList (Text.trim part))) := by
  induction parts with
  | nil => rfl
  | cons part parts ih =>
    obtain ⟨hpart, hparts⟩ := List.forall_mem_cons.mp h
    simp [readAll, hpart.ne_nil, hpart.read_eq, ih hparts, Except.map]

/-- The items of an array literal are read back. -/
theorem Element.readAll_splitTopLevel {literal : String} {texts : List (List Char)}
    {text : List Char} (h : ∀ cs ∈ text :: texts, IsItemText cs) :
    readAll expression literal
        (Text.splitTopLevel ',' ([',', ' '].intercalate (text :: texts))) =
      .ok ((text :: texts).map fun cs => .item (String.ofList cs)) := by
  obtain ⟨htext, htexts⟩ := List.forall_mem_cons.mp h
  -- The blank behind a comma belongs to the next part, and is trimmed with it.
  have htrim : ((text :: texts.map (' ' :: ·)).map fun part => Text.trim part) = text :: texts := by
    rw [List.map_cons, htext.trim_eq, List.map_map]
    congr 1
    exact (List.map_congr_left fun cs hcs => (htexts cs hcs).trim_space_eq).trans (List.map_id _)
  have hparts : ∀ part ∈ text :: texts.map (' ' :: ·), IsItemText (Text.trim part) := by
    intro part hpart
    apply h
    rw [← htrim]
    exact List.mem_map_of_mem hpart
  rw [Text.splitTopLevel, splitTopLevelFrom_intercalate h, List.reverse_nil, List.nil_append,
    readAll_eq hparts, ← htrim, List.map_map]
  rfl

/-- The body of an array literal with some items settles in its brackets. -/
theorem settles_intercalate {texts : List (List Char)} (h : ∀ cs ∈ texts, IsItemText cs) :
    Text.Settles (fun _ => True) .outside 0 ([',', ' '].intercalate texts) := by
  induction texts with
  | nil => exact .nil
  | cons text texts ih =>
    obtain ⟨htext, htexts⟩ := List.forall_mem_cons.mp h
    cases texts with
    | nil => simpa using htext.settles.append (fun _ _ => trivial) .nil
    | cons next texts =>
      rw [List.intercalate_cons_cons, List.append_assoc]
      refine htext.settles.append (fun _ _ => trivial) (.plain (by decide) (fun _ => trivial) ?_)
      exact .plain (by decide) (fun _ => trivial) (ih htexts)

/-- The texts of items, joined by commas, are the body of the array literal of these items. -/
theorem Instruction.ofBrackets_intercalate {literal : String} {texts : List (List Char)}
    (h : ∀ cs ∈ texts, IsItemText cs) :
    ofBrackets expression literal ([',', ' '].intercalate texts) =
      .ok (.array (texts.map String.ofList)) := by
  cases texts with
  | nil => rfl
  | cons text texts =>
    have hblank : Text.trim ([',', ' '].intercalate (text :: texts)) ≠ [] := by
      apply Text.trim_ne_nil
      obtain ⟨c, hhead, hc⟩ := (h text List.mem_cons_self).head
      obtain ⟨rest, rfl⟩ := List.head?_eq_some_iff.mp hhead
      exact ⟨c, by cases texts <;> simp [List.intercalate], hc⟩
    rw [ofBrackets, Element.readAll_splitTopLevel h]
    simp [hblank, Element.items, Element.entries]

/-- An array literal is an expression with its items. -/
theorem compile_bracketed {texts : List (List Char)} (h : ∀ cs ∈ texts, IsItemText cs) :
    compile (String.ofList ('[' :: ([',', ' '].intercalate texts ++ [']']))) =
      .ok [.array (texts.map String.ofList)] := by
  have hsettles := settles_intercalate h
  have hmatch := Text.matchingBracket?_bracketed hsettles
  refine compile_of_operand [] (isOperandAtom_ofList (by decide))
    (splitAtoms_bracketed hsettles) ?_
  simp [Instruction.ofOperand, hmatch, Instruction.ofBrackets_intercalate h]

end Logo
