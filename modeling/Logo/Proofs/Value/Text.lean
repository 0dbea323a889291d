import Logo.Proofs.Evaluation.Brackets
import Logo.Proofs.Expression.Operand
import Logo.Value.Text

/-!
# Values written and evaluated

Data are built from finite numbers and arrays. The text of data is an expression of them: a number
is written as a numeral with a sign, an array of character codes as a string literal, and any other
array as a literal with the texts of its items, which have no commas and colons of their own.
-/

namespace Logo

open Binary

namespace Number

/-- The number of a character is its code as a natural number. -/
theorem toFloat_val (c : Char) : c.val.toFloat = .ofModel (.ofNat c.toNat) := rfl

/-- The parts of a character code other than zero. -/
theorem toFloat_val_eq_packed {c : Char} (hpos : 0 < c.toNat) :
    c.val.toFloat = (whole c.toNat 0).packed ∧ (whole c.toNat 0).IsCanonical := by
  have hlt : c.toNat < 2 ^ 53 := by
    have hword : c.toNat < 2 ^ 32 := c.val.toNat_lt
    omega
  exact ⟨by rw [toFloat_val, ofModel_ofNat hpos hlt],
    isCanonical_whole hpos hlt (Nat.zero_le 971)⟩

/-- The number of a character is finite. -/
theorem isFinite_toFloat_val (c : Char) : c.val.toFloat.isFinite = true := by
  rcases Nat.eq_zero_or_pos c.toNat with hzero | hpos
  · rw [toFloat_val, hzero]
    rfl
  · obtain ⟨hpacked, hcanonical⟩ := toFloat_val_eq_packed hpos
    rw [hpacked]
    exact isFinite_packed hcanonical

/-- The number of a character is not zero, if its code is not. -/
theorem mantissa_toFloat_val_ne_zero {c : Char} (hpos : 0 < c.toNat) :
    (ofFloat c.val.toFloat).mantissa ≠ 0 := by
  obtain ⟨hpacked, hcanonical⟩ := toFloat_val_eq_packed hpos
  rw [hpacked, ofFloat_packed hcanonical]
  exact Nat.ne_of_gt (mantissa_whole_pos hpos)

/-- A number that is the code of a character is a natural number. -/
theorem toNat?_of_toChar? {x : Float} {c : Char} (h : toChar? x = some c) :
    toNat? x = some c.toNat := by
  rw [toChar?] at h
  split at h
  · next n hn =>
    simp only [Option.ite_none_right_eq_some, Option.some.injEq] at h
    obtain ⟨hvalid, rfl⟩ := h
    rw [hn, Char.ofNat, dif_pos hvalid]
    rfl
  · cases h

/-- Only one number is the code of a character, if the code is not zero. -/
theorem eq_toFloat_of_toChar? {x : Float} {c : Char} (hpos : 0 < c.toNat)
    (h : toChar? x = some c) : x = c.val.toFloat := by
  have hnat := toNat?_of_toChar? h
  simp only [toNat?, Option.ite_none_right_eq_some, Option.some.injEq] at hnat
  obtain ⟨hbeq, hcode⟩ := hnat
  have hfloat : x.toUInt64.toFloat = .ofModel (.ofNat x.toUInt64.toNat) := rfl
  rw [hfloat, hcode, ← toFloat_val] at hbeq
  -- Two numbers that are not the same compare as equal only if they are the two zeros.
  have hne := mantissa_toFloat_val_ne_zero hpos
  obtain ⟨_, _, heq | ⟨hzero, _⟩ | ⟨hzero, _⟩⟩ := Float.beq_iff_ne_nan_and_eq.mp hbeq
  · exact heq.symm
  · rw [hzero] at hne
    exact absurd (by decide) hne
  · rw [hzero] at hne
    exact absurd (by decide) hne

end Number

namespace Value

/-- Whether a value is built from finite numbers and arrays. -/
inductive IsData : Value → Prop
  | number {x : Float} (hx : x.isFinite = true) : IsData (.number x)
  | array {items : List Value} (h : ∀ v ∈ items, IsData v) : IsData (.array items)

/-- A text is built from numbers and arrays. -/
theorem IsData.ofText (s : String) : (ofText s).IsData := by
  refine .array fun v hv => ?_
  obtain ⟨c, _, rfl⟩ := List.mem_map.mp hv
  exact .number (Number.isFinite_toFloat_val c)

/-- The items of an array are written one by one. -/
theorem itemTexts_eq (items : List Value) : itemTexts items = items.map text := by
  induction items with
  | nil => rfl
  | cons v items ih => rw [itemTexts, ih, List.map_cons]

/-- The code of a character that prints in texts is not zero. -/
theorem pos_of_printsInText {c : Char} (h : printsInText c = true) : 0 < c.toNat := by
  apply Nat.pos_of_ne_zero
  intro hzero
  rw [← Char.ofNat_toNat c, hzero] at h
  revert h
  decide

/-- Items that are the codes of characters which print are the numbers of these characters. -/
theorem eq_map_of_mapM_char? {items : List Value} {cs : List Char}
    (hprints : ∀ c ∈ cs, printsInText c = true) (h : items.mapM char? = some cs) :
    items = cs.map fun c => .number c.val.toFloat := by
  induction items generalizing cs with
  | nil =>
    obtain rfl : [] = cs := by simpa using h
    rfl
  | cons v items ih =>
    rw [List.mapM_cons] at h
    obtain ⟨c, hc, h⟩ := Option.bind_eq_some_iff.mp h
    obtain ⟨rest, hrest, h⟩ := Option.bind_eq_some_iff.mp h
    obtain rfl : c :: rest = cs := Option.some.inj h
    obtain ⟨hprint, hprints⟩ := List.forall_mem_cons.mp hprints
    cases v with
    | number x =>
      have hx := Number.eq_toFloat_of_toChar? (pos_of_printsInText hprint) hc
      rw [List.map_cons, ← hx, ← ih hprints hrest]
    | array _ | object _ | code _ => cases hc

/-- An array that prints as a text in quotes is this text. -/
theorem eq_ofText_of_printable? {items : List Value} {cs : List Char}
    (h : printable? items = some cs) : array items = ofText (String.ofList cs) := by
  rw [printable?] at h
  split at h
  · next hmapM =>
    simp only [Option.ite_none_right_eq_some, Bool.and_eq_true, List.all_eq_true,
      Option.some.injEq] at h
    obtain ⟨⟨_, hprints⟩, rfl⟩ := h
    rw [ofText, String.toList_ofList, ← eq_map_of_mapM_char? hprints hmapM]
  · cases h

/-- The text of an array is a string literal of it, or a literal with the texts of its items. -/
theorem text_array_cases (items : List Value) :
    (∃ cs, array items = ofText (String.ofList cs) ∧
      (array items).text = String.ofList ('"' :: (Text.escape cs ++ ['"']))) ∨
    (array items).text = String.ofList
      ('[' :: ([',', ' '].intercalate (items.map fun v => v.text.toList) ++ [']'])) := by
  cases hprintable : printable? items with
  | some cs =>
    refine .inl ⟨cs, eq_ofText_of_printable? hprintable, ?_⟩
    simp [text, hprintable]
  | none =>
    refine .inr ?_
    rw [← String.toList_inj]
    simp [text, hprintable, itemTexts_eq, String.toList_intercalate, Function.comp_def]

/-- The text of data can stand for an item of an array literal. -/
theorem IsData.isItemText {v : Value} (h : v.IsData) : IsItemText v.text.toList := by
  induction h with
  | @number x hx =>
    rcases Number.text_cases hx with ⟨cs, hspells, htext⟩ | ⟨cs, y, hspells, _, htext⟩
    · rw [text, htext, String.toList_ofList]
      exact hspells.isItemText.1
    · rw [text, htext, String.toList_ofList]
      exact hspells.isItemText.2
  | @array items hdata ih =>
    rcases text_array_cases items with ⟨cs, _, htext⟩ | htext
    · rw [htext, String.toList_ofList]
      exact .of_enclosed (.quoted cs) (by decide) (by decide)
    · rw [htext, String.toList_ofList]
      have hbody := settles_intercalate (List.forall_mem_map.mpr ih)
      exact .of_enclosed (.bracketed hbody) (by decide) (by decide)

end Value

/-- A list whose members are brought back one by one is brought back as a whole. -/
theorem Eval.mapM_map_eq_pure {α β : Type} {f : β → Eval α} {g : α → β} {as : List α}
    (h : ∀ a ∈ as, f (g a) = pure a) : (as.map g).mapM f = pure as := by
  induction as with
  | nil => rfl
  | cons a as ih =>
    obtain ⟨ha, has⟩ := List.forall_mem_cons.mp h
    rw [List.map_cons, List.mapM_cons, ha, pure_bind, ih has, pure_bind]

/-- Each item of an array literal has fewer square brackets than the literal. -/
theorem count_lt_of_mem_items {texts : List (List Char)} {text : List Char} (h : text ∈ texts) :
    text.count '[' < ('[' :: ([',', ' '].intercalate texts ++ [']'])).count '[' := by
  have hbody := (sublist_intercalate [',', ' '] h).trans (List.sublist_append_left _ [']'])
  exact (Environment.count_of_cons_sublist (hbody.cons_cons '[')).1

/-- The value of an expression is what its instructions come to. -/
theorem evaluate_of_compile {env : Environment} {effort : ℕ} {expression : String}
    {instructions : List Instruction} (h : compile expression = .ok instructions) :
    evaluate (effort + 1) env expression =
      Instruction.runAll expression (env.load (evaluate effort env)) (evaluate effort env)
        instructions := by
  rw [evaluate, h, Eval.liftM_ok_bind]

/-- **Evaluation undoes printing.** The text of data is an expression of them in every environment,
also where there are no variables. An effort above the number of square brackets in the text is
enough. -/
theorem evaluate_undoes_text (env : Environment) {v : Value} (h : v.IsData) {effort : ℕ}
    (heffort : v.text.toList.count '[' < effort) : evaluate effort env v.text = pure v := by
  induction h generalizing effort with
  | @number x hx =>
    obtain ⟨effort, rfl⟩ := Nat.exists_eq_add_one_of_ne_zero (Nat.ne_zero_of_lt heffort)
    rcases Number.text_cases hx with ⟨cs, hspells, htext⟩ | ⟨cs, y, hspells, rfl, htext⟩
    · rw [Value.text, htext, evaluate_of_compile hspells.compile_eq]
      rfl
    · rw [Value.text, htext, evaluate_of_compile hspells.compile_minus_eq]
      rfl
  | @array items hdata ih =>
    obtain ⟨effort, rfl⟩ := Nat.exists_eq_add_one_of_ne_zero (Nat.ne_zero_of_lt heffort)
    rcases Value.text_array_cases items with ⟨cs, harray, htext⟩ | htext
    · rw [htext, evaluate_of_compile (compile_quoted cs), harray]
      rfl
    · have hitems : ∀ cs ∈ items.map fun v => v.text.toList, IsItemText cs :=
        List.forall_mem_map.mpr fun v hv => (hdata v hv).isItemText
      -- An item has fewer square brackets, so what is left of the effort is enough for it.
      have hvalues : (items.map Value.text).mapM (evaluate effort env) = pure items := by
        refine Eval.mapM_map_eq_pure fun v hv => ih v hv ?_
        have hmem : v.text.toList ∈ items.map fun v => v.text.toList := List.mem_map_of_mem hv
        have hfewer := count_lt_of_mem_items hmem
        rw [htext, String.toList_ofList] at heffort
        omega
      rw [htext, evaluate_of_compile (compile_bracketed hitems), List.map_map]
      simp [Instruction.runAll, Instruction.run, Function.comp_def, hvalues]

/-- An array with a text in which quotes, backslashes, brackets and separators stand, a negative
number, and an array in an array. -/
theorem evaluate_undoes_text_nested :
    let v : Value :=
      .array [.ofText "\"[a]: b, \\\n", .number (-0.1), .array [.array [], .number 65]]
    v.text = "[\"\\\"[a]: b, \\\\\\n\", -0.1, [[], 65]]" ∧ v.IsData ∧
      v.text.toList.count '[' < 5 ∧ evaluate 5 .constant v.text = pure v := by
  intro v
  have htext : v.text = "[\"\\\"[a]: b, \\\\\\n\", -0.1, [[], 65]]" := by decide +kernel
  have hdata : v.IsData := by
    refine .array ?_
    simp only [List.forall_mem_cons, List.not_mem_nil, false_implies, implies_true, and_true]
    refine ⟨.ofText _, .number rfl, .array ?_⟩
    simp only [List.forall_mem_cons, List.not_mem_nil, false_implies, implies_true, and_true]
    exact ⟨.array (by simp), .number rfl⟩
  have heffort : v.text.toList.count '[' < 5 := by
    rw [htext]
    decide
  exact ⟨htext, hdata, heffort, evaluate_undoes_text .constant hdata heffort⟩

end Logo
