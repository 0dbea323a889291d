import Logo.Proofs.Evaluation.Consult
import Logo.Proofs.Path.Key
import Logo.Proofs.Path.Stray
import Logo.Proofs.Store.Access

/-!
# Paths as operands

A path without a flaw is one operand of an expression. What closes its brackets is what closes them
for the atoms of an expression, and beside the brackets it has only names and points. So a plain
word that leads to a value, with no name replaced in it, has this value also where it is evaluated.
-/

namespace Logo

variable {c : Char} {cs x rest : List Char} {k : ℕ} {expression text : String}

/-! ## Characters of identifiers -/

/-- What starts an identifier may stand inside of one, and is no digit. -/
theorem isIdentStart_spec (h : isIdentStart c = true) :
    isIdentChar c = true ∧ c.isDigit = false := by
  constructor
  · have hone : isIdentifierChars [c] = true := by simpa [isIdentifierChars] using h
    exact isIdentChar_of_mem hone (List.mem_singleton_self c)
  · have halpha : c.isAlpha = (decide (c.val ≥ 'A'.val ∧ c.val ≤ 'Z'.val) ||
        (decide (c.val ≥ 'a'.val) && decide (c.val ≤ 'z'.val))) := rfl
    have hdigit : c.isDigit = (decide (c.val ≥ '0'.val) && decide (c.val ≤ '9'.val)) := rfl
    have hcode : 65 ≤ c.toNat := by
      simp only [isIdentStart, halpha, Bool.or_eq_true, Bool.and_eq_true, decide_eq_true_eq,
        ge_iff_le, UInt32.le_iff_toNat_le] at h
      rcases h with (hupper | hlower) | rfl
      · exact hupper.1
      · exact le_trans (by decide) hlower.1
      · decide
    simp only [hdigit, Bool.and_eq_false_iff, decide_eq_false_iff_not, UInt32.le_iff_toNat_le]
    exact .inr (Nat.not_le_of_gt (lt_of_lt_of_le (by decide) hcode))

/-- A character of an identifier is no punctuation. -/
theorem isPunctuation_of_isIdentChar (h : isIdentChar c = true) : isPunctuation c = false := by
  have hbinary : BinaryOp.ofChar? c = none := by
    cases hop : BinaryOp.ofChar? c with
    | none => rfl
    | some op =>
      rw [← BinaryOp.symbol_of_ofChar? hop] at h
      revert h
      cases op <;> decide
  have hunary : UnaryOp.ofChar? c = none := by
    cases hop : UnaryOp.ofChar? c with
    | none => rfl
    | some op =>
      rw [← UnaryOp.symbol_of_ofChar? hop] at h
      revert h
      cases op <;> decide
  have hne : c ≠ '(' ∧ c ≠ ')' ∧ c ≠ ',' := by
    refine ⟨?_, ?_, ?_⟩ <;> rintro rfl <;> revert h <;> decide
  simp [isPunctuation, isOperator, hbinary, hunary, hne]

/-! ## Paths in one atom -/

/-- A character of an identifier is put to the current atom. -/
theorem splitAtomsFrom_identChar (hc : isIdentChar c = true) (atom rest : List Char) :
    splitAtomsFrom expression .free atom (c :: rest) =
      splitAtomsFrom expression .free (c :: atom) rest := by
  have hne : c ≠ '"' ∧ c ≠ '\'' ∧ c ≠ ']' := by
    refine ⟨?_, ?_, ?_⟩ <;> rintro rfl <;> revert hc <;> decide
  obtain ⟨hblank, _, hdot, hopen⟩ := isIdentChar_spec hc
  have hloose : c ∉ ['"', '\'', '[', ']'] := by simp [hne, hopen]
  rw [splitAtomsFrom_loose hloose fun h => absurd h hdot, if_neg (by simp [hblank]),
    if_neg (by simp [isPunctuation_of_isIdentChar hc])]

/-- The characters of an identifier all go to the atom in hand. -/
theorem splitAtomsFrom_identChars (hx : ∀ c ∈ x, isIdentChar c = true) (atom rest : List Char) :
    splitAtomsFrom expression .free atom (x ++ rest) =
      splitAtomsFrom expression .free (x.reverse ++ atom) rest := by
  induction x generalizing atom with
  | nil => rfl
  | cons c x ih =>
    obtain ⟨hc, hx'⟩ := List.forall_mem_cons.mp hx
    rw [List.cons_append, splitAtomsFrom_identChar hc, ih hx']
    simp

/-- A bracket stays in one atom with all that it holds. -/
theorem splitAtomsFrom_of_bracketOffset? {n : Enclosure} (hdepth : 0 < n.depth)
    (h : Text.bracketOffset? n.mode n.depth cs = some k) (atom : List Char) :
    splitAtomsFrom expression n.atomMode atom cs =
      splitAtomsFrom expression .free ((cs.take (k + 1)).reverse ++ atom) (cs.drop (k + 1)) := by
  induction cs generalizing n k atom with
  | nil => cases h
  | cons c cs ih =>
    have htop : n ≠ .top := by
      rintro rfl
      cases hdepth
    rw [splitAtomsFrom, Enclosure.step_atomMode htop]
    · obtain ⟨hread, rfl⟩ | ⟨hpos, j, rfl, hj⟩ := Text.bracketOffset?_cons hdepth h
      · rw [hread, Enclosure.atomMode_top]
        rfl
      · rw [ih hpos hj]
        simp
    · exact Enclosure.atomMode_ne_free htop

/-- A point before a field is put to the current atom. -/
theorem splitAtomsFrom_dot (hrest : rest.head? ≠ some '<') (atom : List Char) :
    splitAtomsFrom expression .free atom ('.' :: rest) =
      splitAtomsFrom expression .free ('.' :: atom) rest := by
  rw [splitAtomsFrom_loose (by decide) fun _ => hrest, if_neg (by decide), if_neg (by decide)]

/-- Parts of a path without a flaw stay in one atom. -/
theorem splitAtomsFrom_of_parts (h : ∀ flaw, Path.Part.flawed flaw ∉ Path.parts cs)
    (atom : List Char) :
    splitAtomsFrom expression .free atom cs = .ok (consAtom (cs.reverse ++ atom) []) := by
  revert atom
  refine Path.parts_induction h (fun atom => rfl) (fun name rest hne hname ih atom => ?_)
    fun cs k hk ih atom => ?_
  · obtain ⟨first, others, rfl⟩ := List.exists_cons_of_ne_nil hne
    have hfirst : first ≠ '<' := (isIdentChar_spec (hname first List.mem_cons_self)).2.1
    rw [splitAtomsFrom_dot (by simpa using hfirst), splitAtomsFrom_identChars hname, ih]
    simp
  · have hopening : splitAtomsFrom expression .free atom ('[' :: cs) =
        splitAtomsFrom expression (Enclosure.atomMode ⟨.outside, 1⟩) ('[' :: atom) cs := rfl
    rw [hopening, splitAtomsFrom_of_bracketOffset? Nat.one_pos hk, ih, ← List.append_assoc,
      ← List.reverse_append, List.take_append_drop]
    simp

/-- A path without a flaw is one atom. -/
theorem splitAtoms_of_reads (h : Path.Reads text.toList) : splitAtoms text = .ok [text] := by
  obtain ⟨hbase, hparts⟩ := h
  have hne : text.toList ≠ [] := by
    intro hnil
    rw [hnil] at hbase
    cases hbase
  rw [drop_length_takeWhile] at hparts
  rw [splitAtoms, ← List.takeWhile_append_dropWhile (p := fun c => c != '.' && c != '[')
    (l := text.toList), splitAtomsFrom_identChars fun c hc => isIdentChar_of_mem hbase hc,
    splitAtomsFrom_of_parts hparts, List.append_nil, ← List.reverse_append,
    List.takeWhile_append_dropWhile]
  simp [consAtom, hne]

/-- A path starts as an identifier does. -/
theorem Path.Reads.exists_cons (h : Reads cs) :
    ∃ c rest, cs = c :: rest ∧ isIdentStart c = true := by
  have hbase := h.1
  cases cs with
  | nil => cases hbase
  | cons c rest =>
    rw [List.takeWhile_cons] at hbase
    split at hbase
    · exact ⟨c, rest, rfl, (Bool.and_eq_true_iff.mp hbase).1⟩
    · cases hbase

/-- A path can be an operand. -/
theorem Path.Reads.isOperandAtom (h : Reads text.toList) : isOperandAtom text = true := by
  obtain ⟨c, rest, htext, hc⟩ := h.exists_cons
  rw [← String.ofList_toList (s := text), htext]
  exact isOperandAtom_ofList (isPunctuation_of_isIdentChar (isIdentStart_spec hc).1)

/-- A path without a flaw loads what it leads to. -/
theorem Path.Reads.ofOperand_eq (h : Reads text.toList) (expression : String) :
    Instruction.ofOperand expression text = .ok (.load text) := by
  obtain ⟨c, rest, htext, hc⟩ := h.exists_cons
  obtain ⟨hident, hdigit⟩ := isIdentStart_spec hc
  have hne : c ≠ '"' ∧ c ≠ '\'' := by
    constructor <;> rintro rfl <;> revert hident <;> decide
  obtain ⟨_, _, hdot, hopen⟩ := isIdentChar_spec hident
  simp [Instruction.ofOperand, htext, hne, hopen, hdigit, hdot, hc]

/-- A path without a flaw is compiled to the loading of what it leads to. -/
theorem compile_of_reads (h : Path.Reads text.toList) : compile text = .ok [.load text] :=
  compile_of_operand [] h.isOperandAtom (splitAtoms_of_reads h) (h.ofOperand_eq text)

/-- A path without a flaw is an expression of what it leads to. -/
theorem evaluate_of_reads (s : Store) (id : FrameId) (effort : ℕ) (h : Path.Reads text.toList) :
    evaluate (effort + 1) (s.environment id) text = s.get effort id text := by
  rw [evaluate_of_compile (compile_of_reads h)]
  have hload : (s.environment id).load (evaluate effort (s.environment id)) text =
      s.get effort id text := rfl
  simp [Instruction.runAll, Instruction.run, hload]

/-! ## Plain words -/

/-- The last character of a text is its only one, or the last one of the rest. -/
theorem eq_or_getLast?_eq {d : Char} (h : (d :: rest).getLast? = some c) :
    rest = [] ∧ c = d ∨ rest.getLast? = some c := by
  cases rest with
  | nil => exact .inl ⟨rfl, by simpa using h.symm⟩
  | cons => exact .inr (by rwa [List.getLast?_cons_cons] at h)

/-- The last character of a plain word is no blank. -/
theorem isBlank_of_isPlainFrom {depth : ℕ} {name? : Option (List Char)}
    (h : isPlainFrom depth name? cs = true) (hc : cs.getLast? = some c) :
    Text.isBlank c = false := by
  fun_induction isPlainFrom depth name? cs with
  | case1 | case2 => cases hc
  | case6 => cases h
  | case3 depth name rest ih =>
    obtain ⟨_, hrest⟩ := Bool.and_eq_true_iff.mp h
    obtain ⟨_, rfl⟩ | hc := eq_or_getLast?_eq hc
    · decide
    · exact ih hrest hc
  | case7 rest depth _ ih | case10 depth _ rest _ _ _ ih =>
    obtain ⟨_, rfl⟩ | hc := eq_or_getLast?_eq hc
    · decide
    · exact ih h hc
  | case4 depth name d rest _ ih | case5 depth rest ih =>
    obtain ⟨rfl, _⟩ | hc := eq_or_getLast?_eq hc
    · cases h
    · exact ih h hc
  | case8 depth d rest _ _ hdepth ih =>
    obtain ⟨rfl, _⟩ | hc := eq_or_getLast?_eq hc
    · simp [isPlainFrom, Nat.ne_of_gt hdepth] at h
    · exact ih h hc
  | case9 depth _ rest _ _ ih =>
    obtain ⟨hnil, _⟩ | hc := eq_or_getLast?_eq hc
    · cases hnil
    · obtain ⟨rfl, _⟩ | hc := eq_or_getLast?_eq hc
      · cases h
      · exact ih h hc
  | case11 depth d rest _ _ _ _ ih =>
    obtain ⟨hd, hrest⟩ := Bool.and_eq_true_iff.mp h
    obtain ⟨_, rfl⟩ | hc := eq_or_getLast?_eq hc
    · exact (isIdentChar_spec hd).1
    · exact ih hrest hc

/-- A plain word starts as an identifier does. -/
theorem exists_of_isPlainWord (h : isPlainWord text = true) :
    ∃ c rest, text.toList = c :: rest ∧ isIdentStart c = true ∧
      isPlainFrom 0 none (c :: rest) = true := by
  cases htext : text.toList with
  | nil => simp [isPlainWord, htext] at h
  | cons c rest =>
    rw [isPlainWord, htext] at h
    obtain ⟨hc, hrest⟩ := Bool.and_eq_true_iff.mp h
    exact ⟨c, rest, rfl, hc, hrest⟩

/-- A plain word has no blanks at its ends. -/
theorem trim_of_isPlainWord (h : isPlainWord text = true) :
    Text.trim text.toList = text.toList := by
  obtain ⟨c, rest, htext, hc, hplain⟩ := exists_of_isPlainWord h
  rw [htext]
  refine Text.trim_of_ends ⟨c, rfl, ?_⟩ ⟨_, List.getLast?_eq_some_getLast (by simp), ?_⟩
  · exact (isIdentChar_spec (isIdentStart_spec hc).1).1
  · exact isBlank_of_isPlainFrom hplain (List.getLast?_eq_some_getLast _)

/-! ## Arguments -/

section

variable {s : Store} {id : FrameId} {effort more : ℕ} {d : Demand} {v : Value}

/-- A variable that has a value is replaced by it, where its position permits no text. -/
theorem checkText_of_get (hplain : isPlainWord text = true) (hword : d.permitted.word = false)
    (hexpression : d.permitted.expression = false)
    (hnamed : (d.permitted.reference || d.permitted.code) = true)
    (h : s.get effort id text = pure v) :
    checkText effort s id d text = liftM (d.accept text v) := by
  simp only [checkText, hplain, hword, hexpression, hnamed, h, Bool.and_false, Bool.and_true,
    Bool.false_eq_true, if_false, if_true]
  rfl

/-- A variable, where its position permits no text, is replaced by its value or evaluated. -/
theorem checkText_cases (s : Store) (id : FrameId) (effort : ℕ) (hplain : isPlainWord text = true)
    (hword : d.permitted.word = false) (hexpression : d.permitted.expression = false) :
    checkText effort s id d text = Eval.exhausted ∨
      (∃ v, s.get effort id text = pure v ∧
        checkText effort s id d text = liftM (d.accept text v)) ∨
      checkText effort s id d text = evaluateArgument effort s id d text := by
  cases hnamed : d.permitted.reference || d.permitted.code with
  | false => exact .inr (.inr (by simp [checkText, hword, hexpression, hnamed]))
  | true =>
    rcases (s.get effort id text).cases_outcome with h | ⟨fault, h⟩ | ⟨v, h⟩
    · refine .inl ?_
      simp only [checkText, hplain, hword, hexpression, hnamed, h, Bool.and_false, Bool.and_true,
        Bool.false_eq_true, if_false, if_true]
      rfl
    · refine .inr (.inr ?_)
      simp only [checkText, hplain, hword, hexpression, hnamed, h, Bool.and_false, Bool.and_true,
        Bool.false_eq_true, if_false, if_true]
      rfl
    · exact .inr (.inl ⟨v, h, checkText_of_get hplain hword hexpression hnamed h⟩)

/-- What is known of an argument by its value does not change with more effort. -/
theorem evaluateArgument_of_le (hmore : effort ≤ more)
    (hknown : evaluateArgument effort s id d text ≠ Eval.exhausted) :
    evaluateArgument more s id d text = evaluateArgument effort s id d text :=
  (consults_evaluateArgumentBy (P := fun _ => True) trivial).stable
    (evaluate_extends (s.environment id) hmore) hknown

/-- A plain word in which nothing is replaced is an expression of the value that it leads to. -/
theorem evaluate_of_get (hplain : isPlainWord text = true)
    (hexpand : Path.expand (s.find? id) text = .ok text.toList)
    (h : s.get effort id text = pure v) (hmore : effort < more) :
    evaluate more (s.environment id) text = pure v := by
  obtain ⟨expanded, hok, hreads⟩ := Path.exists_reads_of_get h
  obtain rfl : text.toList = expanded := Except.ok.inj (hexpand.symm.trans hok)
  rw [trim_of_isPlainWord hplain] at hreads
  have hstep : evaluate (effort + 1) (s.environment id) text = pure v :=
    (evaluate_of_reads s id effort hreads).trans h
  have hknown : evaluate (effort + 1) (s.environment id) text ≠ Eval.exhausted := by
    rw [hstep]
    exact Eval.pure_ne_exhausted v
  rw [evaluate_extends _ hmore text hknown, hstep]

end

/-- A variable means the same as an argument and as an expression. The text of a plain word in
which no name is replaced has the value that it leads to also as an expression; so an argument that
is replaced by its value is what the expression gives, and where expressions are permitted, to look
for a variable first changes no result and no fault. -/
theorem variable_and_expression_agree (s : Store) (id : FrameId) {text : String}
    (hplain : isPlainWord text = true)
    (hexpand : Path.expand (s.find? id) text = .ok text.toList) :
    (∀ effort v, s.get effort id text = pure v →
      ∀ more, effort < more → evaluate more (s.environment id) text = pure v) ∧
    (∀ (effort : ℕ) (d : Demand) (v : Value), d.permitted.word = false →
      d.permitted.expression = false → (d.permitted.reference || d.permitted.code) = true →
      s.get effort id text = pure v → ∀ more, effort < more →
      checkText effort s id d text =
        evaluate more (s.environment id) text >>= fun v => liftM (d.accept text v)) ∧
    ∀ (effort : ℕ) (d : Demand), d.permitted.word = false → d.permitted.expression = false →
      (d.permitted.numeric || d.permitted.array) = true →
      checkText effort s id d text ≠ Eval.exhausted → ∀ more, effort < more →
      checkText effort s id d text = evaluateArgument more s id d text := by
  refine ⟨fun effort v h more hmore => evaluate_of_get hplain hexpand h hmore,
    fun effort d v hword hexpression hnamed h more hmore => ?_,
    fun effort d hword hexpression hvalue hknown more hmore => ?_⟩
  · rw [checkText_of_get hplain hword hexpression hnamed h,
      evaluate_of_get hplain hexpand h hmore, pure_bind]
  · rcases checkText_cases s id effort hplain hword hexpression with h | ⟨v, h, hv⟩ | h
    · exact absurd h hknown
    · simp only [evaluateArgument, hvalue, if_true, evaluate_of_get hplain hexpand h hmore,
        pure_bind]
      exact hv
    · rw [h] at hknown ⊢
      exact (evaluateArgument_of_le hmore.le hknown).symm

/-- A literal of brackets in an index, as an argument that may be any value. -/
theorem variable_and_expression_agree_literal :
    let s := ({} : Store).push none (some [("x", .object [("][", .array [])])])
    let text := Path.ofKey "x" "]["
    let d : Demand := ⟨"print", 0, .value⟩
    text = "x[\"][\"]" ∧ isPlainWord text = true ∧
      Path.expand (s.find? 0) text = .ok text.toList ∧ s.get 1 0 text = pure (.array []) ∧
      evaluate 2 (s.environment 0) text = pure (.array []) ∧
      checkText 1 s 0 d text = pure (.value (.array [])) ∧
      checkText 1 s 0 d text = evaluateArgument 2 s 0 d text := by
  intro s text d
  have hplain : isPlainWord text = true := by decide +kernel
  have hexpand : Path.expand (s.find? 0) text = .ok text.toList :=
    Path.expandFrom_of_not_mem (by decide)
  have hresolve : s.resolve 1 0 text = pure ⟨"x", [.field "]["]⟩ :=
    Path.resolve_ofKey (by decide) (by decide) 0 _
  have hx : s.find? 0 "x" = some (.object [("][", .array [])]) := rfl
  have hread : (Value.object [("][", .array [])]).read text [.field "]["] = .ok (.array []) := rfl
  have hget : s.get 1 0 text = pure (.array []) := by
    rw [Store.get_of_find?_eq_some hresolve hx, hread]
    rfl
  obtain ⟨hevaluate, hlookup, hargument⟩ := variable_and_expression_agree s 0 hplain hexpand
  have hvalue := hevaluate 1 _ hget 2 Nat.one_lt_two
  have hcheck : checkText 1 s 0 d text = pure (.value (.array [])) := by
    rw [hlookup 1 d _ rfl rfl rfl hget 2 Nat.one_lt_two, hvalue]
    rfl
  refine ⟨by decide, hplain, hexpand, hget, hvalue, hcheck, ?_⟩
  refine hargument 1 d rfl rfl rfl ?_ 2 Nat.one_lt_two
  rw [hcheck]
  exact Eval.pure_ne_exhausted _

end Logo
