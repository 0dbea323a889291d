import Logo.Proofs.Path.Bounds
import Logo.Proofs.Path.Name
import Logo.Proofs.Value.Text

/-!
# Fields by the literals of their names

A field of any name can be written as a string literal in brackets. The brackets are found with the
literal passed over, and the literal is evaluated to the text of the name. But before that, names in
angle brackets are replaced, and there the square brackets are counted in literals too. So a name
that closes the bracket around it, as far as this count goes, and then has a `<` in it is not read
as it is written.
-/

namespace Logo

open Float.Model.UnpackedFloat
open Binary

/-! ## The text of a literal -/

/-- A natural number is its own whole part. -/
theorem Binary.toNat_toUInt64_whole {n : ℕ} (hpos : 0 < n) (hlt : n < 2 ^ 53) :
    (whole n 0).packed.toUInt64.toNat = n := by
  have hclamp : (whole n 0).packed.toUInt64 =
      UInt64.ofNatClamp ((whole n 0).packed.toModel.unpack.toInt 0 (UInt64.size - 1)).toNat := rfl
  have hunpack : (whole n 0).packed.toModel.unpack = (whole n 0).unpacked :=
    (isCanonical_whole hpos hlt (by decide)).unpack_pack
  have hexponent : (whole n 0).exponent = -(52 - n.log2 : ℕ) := by simp [whole]
  have hdiv : (whole n 0).mantissa / 2 ^ (52 - n.log2) = n :=
    Nat.mul_div_cancel _ (Nat.two_pow_pos _)
  have hint : (whole n 0).unpacked.toInt 0 (UInt64.size - 1) = n := by
    rw [unpacked_whole hpos, toInt, hexponent, roundToInt_positive, hdiv]
  rw [hclamp, hunpack, hint, UInt64.ofNatClamp, dif_pos (by simp [UInt64.size]; omega)]
  simp

namespace Number

/-- A natural number that has a place in the mantissa is found in its number. -/
theorem toNat?_ofNat {n : ℕ} (hlt : n < 2 ^ 53) : toNat? (.ofModel (.ofNat n)) = some n := by
  rcases Nat.eq_zero_or_pos n with rfl | hpos
  · decide
  · have hfinite : (whole n 0).packed.isFinite = true :=
      isFinite_packed (isCanonical_whole hpos hlt (by decide))
    have hback : (whole n 0).packed.toUInt64.toFloat = (whole n 0).packed := by
      have hfloat : (whole n 0).packed.toUInt64.toFloat =
          .ofModel (.ofNat (whole n 0).packed.toUInt64.toNat) := rfl
      rw [hfloat, toNat_toUInt64_whole hpos hlt, ofModel_ofNat hpos hlt]
    have hnan : (whole n 0).packed ≠ Float.nan := by
      intro h
      rw [h] at hfinite
      revert hfinite
      decide
    have hself : ((whole n 0).packed == (whole n 0).packed) = true :=
      Float.beq_iff_ne_nan_and_eq.mpr ⟨hnan, hnan, .inl rfl⟩
    simp only [ofModel_ofNat hpos hlt, toNat?, hback, hself, toNat_toUInt64_whole hpos hlt, if_true]

/-- The number of a character is a natural number again. -/
theorem toNat?_toFloat_val (c : Char) : toNat? c.val.toFloat = some c.toNat := by
  have hword : c.toNat < 2 ^ 32 := c.val.toNat_lt
  rw [toFloat_val, toNat?_ofNat (by omega)]

/-- The number of a character is the code of this character. -/
theorem toChar?_toFloat_val (c : Char) : toChar? c.val.toFloat = some c := by
  have hvalid : c.toNat.isValidChar := c.valid
  simp only [toChar?, toNat?_toFloat_val, if_pos hvalid, Char.ofNat_toNat]

end Number

/-- A text that is made a value is read back from it. -/
theorem Value.text?_ofText (s : String) : (ofText s).text? = some s := by
  have hchars (cs : List Char) :
      (cs.map fun c => Value.number c.val.toFloat).mapM char? = some cs := by
    induction cs with
    | nil => rfl
    | cons c cs ih =>
      have hc : char? (.number c.val.toFloat) = some c := Number.toChar?_toFloat_val c
      rw [List.map_cons, List.mapM_cons, hc, ih]
      rfl
  rw [ofText, text?, hchars, Option.map_some, String.ofList_toList]

/-- What holds at each character of a text holds at the first one, and at each of the others. -/
theorem forall_prefix_cons_iff {P : List Char → Char → Prop} {c : Char} {cs : List Char} :
    (∀ b d, b ++ [d] <+: c :: cs → P b d) ↔ P [] c ∧ ∀ b d, b ++ [d] <+: cs → P (c :: b) d := by
  constructor
  · intro h
    exact ⟨h [] c (by simp), fun b d hb => h (c :: b) d ((List.prefix_cons_inj c).mpr hb)⟩
  · rintro ⟨hc, hcs⟩ b d hb
    cases b with
    | nil =>
      obtain rfl := (List.cons_prefix_cons.mp hb).1
      exact hc
    | cons e b =>
      obtain ⟨rfl, hb'⟩ := List.cons_prefix_cons.mp hb
      exact hcs b d hb'

namespace Path

variable {path : String} {find? : String → Option Value} {depth : ℕ} {c : Char}
  {cs rest expanded : List Char}

/-! ## Replacing names -/

/-- The brackets that are open after a character, where names are replaced. -/
def depthStep (depth : ℕ) (c : Char) : ℕ :=
  if c = '[' then depth + 1 else if c = ']' then depth - 1 else depth

/-- The brackets that are open after some characters, where names are replaced. -/
def depthAfter (depth : ℕ) (cs : List Char) : ℕ := cs.foldl depthStep depth

/-- No characters leave the open brackets as they are. -/
@[simp] theorem depthAfter_nil (depth : ℕ) : depthAfter depth [] = depth := rfl

/-- The brackets that are open after some characters are counted from the first one on. -/
@[simp] theorem depthAfter_cons (depth : ℕ) (c : Char) (cs : List Char) :
    depthAfter depth (c :: cs) = depthAfter (depthStep depth c) cs := rfl

/-- Only brackets change how many brackets are open. -/
theorem depthStep_of_ne (hopen : c ≠ '[') (hclose : c ≠ ']') (depth : ℕ) :
    depthStep depth c = depth := by
  rw [depthStep, if_neg hopen, if_neg hclose]

/-- Whether no `<` of a text starts a name that is replaced: each stands where some bracket is
open. -/
def KeepsInside (depth : ℕ) (cs : List Char) : Prop :=
  ∀ p, p ++ ['<'] <+: cs → 0 < depthAfter depth p

/-- In an empty text, no name is replaced. -/
theorem keepsInside_nil (depth : ℕ) : KeepsInside depth [] := fun p hp => by simp at hp

/-- A `<` has to stand inside of brackets, and so has each one behind it. -/
theorem keepsInside_cons : KeepsInside depth (c :: cs) ↔
    (c = '<' → 0 < depth) ∧ KeepsInside (depthStep depth c) cs := by
  have hiff {depth : ℕ} {cs : List Char} : KeepsInside depth cs ↔
      ∀ p d, p ++ [d] <+: cs → d = '<' → 0 < depthAfter depth p :=
    ⟨fun h p d hp hd => h p (hd ▸ hp), fun h p hp => h p '<' hp rfl⟩
  rw [hiff, hiff, forall_prefix_cons_iff]
  rfl

instance decidableKeepsInside : (depth : ℕ) → (cs : List Char) → Decidable (KeepsInside depth cs)
  | depth, [] => isTrue (keepsInside_nil depth)
  | depth, c :: cs =>
    have := decidableKeepsInside (depthStep depth c) cs
    decidable_of_iff _ keepsInside_cons.symm

/-- A text without closing brackets closes none. -/
theorem le_depthAfter_of_not_mem (hclose : ']' ∉ cs) (depth : ℕ) : depth ≤ depthAfter depth cs := by
  induction cs generalizing depth with
  | nil => exact le_rfl
  | cons c cs ih =>
    obtain ⟨hc, hcs⟩ := not_or.mp (mt List.mem_cons.mpr hclose)
    have hstep : depth ≤ depthStep depth c := by
      rw [depthStep, if_neg (Ne.symm hc)]
      split <;> omega
    exact hstep.trans (ih hcs _)

/-- Nothing is replaced in a text without a `<`, and in one that closes no bracket. -/
theorem keepsInside_of_not_mem (hdepth : 0 < depth) (h : '<' ∉ cs ∨ ']' ∉ cs) :
    KeepsInside depth cs := by
  intro p hp
  rcases h with hangle | hclose
  · exact absurd (hp.subset (by simp)) hangle
  · have hp' : ']' ∉ p := fun hmem => hclose (hp.subset (List.mem_append_left _ hmem))
    exact hdepth.trans_le (le_depthAfter_of_not_mem hp' depth)

/-- A character that starts no name is kept, and the replacement goes on behind it. -/
theorem expandFrom_cons (hc : c = '<' → 0 < depth) :
    expandFrom path find? depth none (c :: rest) =
      (expandFrom path find? (depthStep depth c) none rest).map (c :: ·) := by
  have hkeep : (c = '<' && depth = 0) = false := by
    simp only [Bool.and_eq_false_iff, decide_eq_false_iff_not]
    by_cases hangle : c = '<'
    · exact .inr (Nat.ne_of_gt (hc hangle))
    · exact .inl hangle
  rw [expandFrom, hkeep, if_neg Bool.false_ne_true]
  rfl

/-- Characters that are put in front one after the other are put in front together. -/
theorem map_cons_append (e : Except Fault (List Char)) (c : Char) (cs : List Char) :
    (e.map (cs ++ ·)).map (c :: ·) = e.map (c :: cs ++ ·) := by
  cases e <;> rfl

/-- A text in which no name starts outside of the brackets is left as it is. -/
theorem expandFrom_of_keepsInside (h : KeepsInside depth cs) :
    expandFrom path find? depth none cs = .ok cs := by
  induction cs generalizing depth with
  | nil => rfl
  | cons c cs ih =>
    obtain ⟨hc, hcs⟩ := keepsInside_cons.mp h
    rw [expandFrom_cons hc, ih hcs]
    rfl

/-- A character that has no meaning where names are replaced is passed over. -/
theorem expandFrom_plain (hangle : c ≠ '<') (hopen : c ≠ '[') (hclose : c ≠ ']') :
    expandFrom path find? depth none (c :: rest) =
      (expandFrom path find? depth none rest).map (c :: ·) := by
  rw [expandFrom_cons fun h => absurd h hangle, depthStep_of_ne hopen hclose]

/-- In an identifier, nothing is replaced. -/
theorem expandFrom_identifier (h : ∀ c ∈ cs, isIdentChar c = true) :
    expandFrom path find? depth none (cs ++ rest) =
      (expandFrom path find? depth none rest).map (cs ++ ·) := by
  induction cs with
  | nil => cases hrest : expandFrom path find? depth none rest <;> simp [hrest, Except.map]
  | cons c cs ih =>
    obtain ⟨hc, hcs⟩ := List.forall_mem_cons.mp h
    obtain ⟨_, hangle, _, hopen⟩ := isIdentChar_spec hc
    have hclose : c ≠ ']' := by
      rintro rfl
      revert hc
      decide
    rw [List.cons_append, expandFrom_plain hangle hopen hclose, ih hcs, map_cons_append]

/-- The characters of an escape have no meaning where names are replaced, and neither has the
character that they stand for. -/
theorem escaped?_spec {e : Char} (h : Text.escaped? e = some c) :
    (e ≠ '<' ∧ e ≠ '[' ∧ e ≠ ']') ∧ c ≠ '<' ∧ c ≠ '[' ∧ c ≠ ']' := by
  constructor
  · refine ⟨?_, ?_, ?_⟩ <;> rintro rfl <;> revert h <;> simp [Text.escaped?]
  · unfold Text.escaped? at h
    split_ifs at h <;> cases h <;> decide

/-- A character of a literal is passed over, if it is no `<` outside of the brackets. -/
theorem expandFrom_escapeChar_append (hc : c = '<' → 0 < depth) (rest : List Char) :
    expandFrom path find? depth none (Text.escapeChar c ++ rest) =
      (expandFrom path find? (depthStep depth c) none rest).map (Text.escapeChar c ++ ·) := by
  rcases Text.escapeChar_cases c with ⟨e, hescape, he⟩ | ⟨hself, _, _⟩
  · obtain ⟨⟨hangle, hopen, hclose⟩, _, hopen', hclose'⟩ := escaped?_spec he
    rw [hescape, List.cons_append, expandFrom_plain (by decide) (by decide) (by decide),
      List.cons_append, List.nil_append, expandFrom_plain hangle hopen hclose,
      depthStep_of_ne hopen' hclose']
    exact map_cons_append _ '\\' [e]
  · rw [hself, List.singleton_append, expandFrom_cons hc]
    rfl

/-- The body of a literal is passed over, if it keeps each `<` inside of the brackets. -/
theorem expandFrom_escape_append (h : KeepsInside depth cs) (rest : List Char) :
    expandFrom path find? depth none (Text.escape cs ++ rest) =
      (expandFrom path find? (depthAfter depth cs) none rest).map (Text.escape cs ++ ·) := by
  induction cs generalizing depth with
  | nil =>
    cases hrest : expandFrom path find? depth none rest <;>
      simp [Text.escape, hrest, Except.map]
  | cons c cs ih =>
    obtain ⟨hc, hcs⟩ := keepsInside_cons.mp h
    have hcons : Text.escape (c :: cs) = Text.escapeChar c ++ Text.escape cs := rfl
    rw [hcons, List.append_assoc, expandFrom_escapeChar_append hc, ih hcs, depthAfter_cons]
    cases hrest : expandFrom path find? (depthAfter (depthStep depth c) cs) none rest <;>
      simp [Except.map]

/-- A name that is replaced is the identifier up to the next `>`, and its variable is a text. -/
theorem exists_of_expandFrom_some {name : List Char}
    (h : expandFrom path find? depth (some name) cs = .ok expanded) :
    ∃ n v s, isIdentifierChars (name.reverse ++ n) = true ∧ n ++ ['>'] <+: cs ∧
      find? (String.ofList (name.reverse ++ n)) = some v ∧ v.text? = some s := by
  induction cs generalizing name with
  | nil => cases h
  | cons c cs ih =>
    rw [expandFrom] at h
    by_cases hc : c = '>'
    · simp only [if_pos hc] at h
      split at h
      · next hname =>
        split at h
        · cases h
        · next v hv =>
          split at h
          · cases h
          · next s hs =>
            refine ⟨[], v, s, ?_, by simp [hc], by simpa using hv, hs⟩
            simpa [isIdentifier] using hname
      · cases h
    · rw [if_neg hc] at h
      obtain ⟨n, v, s, hname, hn, hv, hs⟩ := ih h
      rw [List.reverse_cons, List.append_assoc, List.singleton_append] at hname hv
      exact ⟨c :: n, v, s, hname, (List.prefix_cons_inj c).mpr hn, hv, hs⟩

/-- What starts a literal without escapes and its closing quote starts its text. -/
theorem prefix_of_prefix_escape {m : List Char} (hm : ∀ c ∈ m, c ≠ '\\' ∧ c ≠ '"')
    (h : m <+: Text.escape cs ++ '"' :: rest) : m <+: cs := by
  induction m generalizing cs with
  | nil => exact List.nil_prefix
  | cons c m ih =>
    obtain ⟨⟨hbackslash, hquote⟩, hm'⟩ := List.forall_mem_cons.mp hm
    cases cs with
    | nil => exact absurd (List.cons_prefix_cons.mp h).1 hquote
    | cons d cs =>
      have hcons : Text.escape (d :: cs) = Text.escapeChar d ++ Text.escape cs := rfl
      rw [hcons] at h
      rcases Text.escapeChar_cases d with ⟨e, hescape, _⟩ | ⟨hself, _, _⟩
      · rw [hescape] at h
        exact absurd (List.cons_prefix_cons.mp h).1 hbackslash
      · rw [hself] at h
        obtain ⟨rfl, hrest⟩ := List.cons_prefix_cons.mp h
        exact (List.prefix_cons_inj c).mpr (ih hm' hrest)

/-- A text that does not keep each `<` inside of the brackets has a first one outside. -/
theorem exists_of_not_keepsInside (h : ¬KeepsInside depth cs) :
    ∃ p rest, cs = p ++ '<' :: rest ∧ KeepsInside depth p ∧ depthAfter depth p = 0 := by
  induction cs generalizing depth with
  | nil => exact absurd (keepsInside_nil depth) h
  | cons c cs ih =>
    by_cases hc : c = '<' ∧ depth = 0
    · exact ⟨[], cs, by rw [hc.1]; rfl, keepsInside_nil depth, hc.2⟩
    · have hopen : c = '<' → 0 < depth := fun hangle =>
        Nat.pos_of_ne_zero fun hzero => hc ⟨hangle, hzero⟩
      obtain ⟨p, rest, rfl, hp, hzero⟩ := ih fun hcs => h (keepsInside_cons.mpr ⟨hopen, hcs⟩)
      exact ⟨c :: p, rest, rfl, keepsInside_cons.mpr ⟨hopen, hp⟩, hzero⟩

/-! ## Paths with one literal -/

/-- The path to a field: the name of a variable, and the literal of the name of the field in
brackets. -/
def ofKey (x s : String) : String :=
  String.ofList (x.toList ++ '[' :: ('"' :: (Text.escape s.toList ++ ['"']) ++ [']']))

/-- In the path to a field by its literal, only the body of the literal can be changed. -/
theorem expand_ofKey {x s : String} (hx : isIdentifier x = true) :
    expand find? (ofKey x s) =
      (expandFrom (ofKey x s) find? 1 none (Text.escape s.toList ++ ['"', ']'])).map
        (x.toList ++ '[' :: '"' :: ·) := by
  have hbody : (ofKey x s).toList =
      x.toList ++ '[' :: '"' :: (Text.escape s.toList ++ ['"', ']']) := by
    rw [ofKey, String.toList_ofList]
    simp
  rw [expand, hbody, expandFrom_identifier fun c hc => isIdentChar_of_mem hx hc,
    expandFrom_cons (by simp), expandFrom_plain (by decide) (by decide) (by decide)]
  have hdepth : depthStep 0 '[' = 1 := rfl
  rw [hdepth]
  cases expandFrom (ofKey x s) find? 1 none (Text.escape s.toList ++ ['"', ']']) <;> rfl

/-- A text that settles is one index in its brackets, whatever follows them. -/
theorem parts_bracketed {p : Char → Prop} (h : Text.Settles p .outside 0 cs) (rest : List Char) :
    parts ('[' :: (cs ++ ']' :: rest)) = .index (String.ofList cs) :: parts rest := by
  have hoffset : Text.bracketOffset? .outside 1 (cs ++ ']' :: rest) =
      (Text.bracketOffset? .outside 1 (']' :: rest)).map (· + cs.length) :=
    Text.bracketOffset?_append h
  have hclose : Text.matchingBracket? ('[' :: (cs ++ ']' :: rest)) 0 = some (cs.length + 1) := by
    simp [Text.matchingBracket?, Text.bracketOffset?, hoffset]
  have hend : (cs ++ ']' :: rest).drop (cs.length + 1) = rest := by simp
  rw [parts]
  simp only [hclose, Char.reduceEq, if_false, if_true]
  rw [hend, Nat.add_sub_cancel, List.take_left]

/-- An identifier, alone or before what does not end with a blank, has no blanks at its ends. -/
theorem trim_of_isIdentifier {x : String} (hx : isIdentifier x = true)
    (hrest : rest = [] ∨ ∃ c ∈ rest.getLast?, Text.isBlank c = false) :
    Text.trim (x.toList ++ rest) = x.toList ++ rest := by
  have hspec c (hc : c ∈ x.toList) := (isIdentChar_spec (isIdentChar_of_mem hx hc)).1
  rcases hrest with rfl | ⟨last, hlast, hblank⟩
  · rw [List.append_nil, Text.trim_of_not_blank hspec]
  · cases hname : x.toList with
    | nil =>
      rw [isIdentifier, hname] at hx
      cases hx
    | cons c name =>
      refine Text.trim_of_ends ⟨c, rfl, hspec c (by simp [hname])⟩ ⟨last, ?_, hblank⟩
      rw [Option.mem_def] at hlast ⊢
      rw [List.getLast?_append, hlast, Option.some_or]

/-- A text in brackets leads to the field of that name. -/
theorem indexAccessor_ofText (path s : String) : indexAccessor path (.ofText s) = .ok (.field s) := by
  have htext := Value.text?_ofText s
  rw [Value.ofText] at htext ⊢
  simp only [indexAccessor, htext]

/-- The literal of a name is the accessor of the field, where nothing in it is replaced. -/
theorem resolve_ofKey {x s : String} (hx : isIdentifier x = true) (hs : KeepsInside 1 s.toList)
    (effort : ℕ) (env : Environment) :
    resolve find? (evaluate (effort + 1) env) (ofKey x s) = pure ⟨x, [.field s]⟩ := by
  have hexpand : expand find? (ofKey x s) = .ok (ofKey x s).toList := by
    rw [expand_ofKey hx, expandFrom_escape_append hs,
      expandFrom_plain (by decide) (by decide) (by decide), expandFrom_cons (by simp)]
    simp [expandFrom, Except.map, ofKey]
  have hpath : (ofKey x s).toList =
      x.toList ++ '[' :: ('"' :: (Text.escape s.toList ++ ['"']) ++ [']']) := by
    rw [ofKey, String.toList_ofList]
  have htrim : Text.trim (ofKey x s).toList = (ofKey x s).toList := by
    rw [hpath]
    refine trim_of_isIdentifier hx (.inr ⟨']', ?_, by decide⟩)
    rw [← List.cons_append, List.getLast?_concat]
    rfl
  have hvalue : evaluate (effort + 1) env
      (String.ofList ('"' :: (Text.escape s.toList ++ ['"']))) = pure (.ofText s) := by
    rw [evaluate_of_compile (compile_quoted s.toList), String.ofList_toList]
    rfl
  rw [resolve_eq_mapM hx hpath (by simp) hexpand htrim,
    parts_bracketed (.quoted (p := fun _ => True) s.toList), parts_nil]
  simp only [List.mapM_cons, List.mapM_nil, Part.resolve, hvalue, pure_bind, indexAccessor_ofText,
    Eval.liftM_ok_bind]

/-- A literal with a `<` outside of the brackets that are counted is replaced in part, or the path
cannot be read. -/
theorem exists_fault_of_not_keepsInside {x s : String} (hx : isIdentifier x = true)
    (hs : ¬KeepsInside 1 s.toList)
    (hfind : ∀ name v, '<' :: name.toList ++ ['>'] <:+: s.toList → find? name = some v →
      v.text? = none) (evaluate : String → Eval Value) :
    ∃ fault, resolve find? evaluate (ofKey x s) = throw fault := by
  obtain ⟨p, rest, hrest, hp, hzero⟩ := exists_of_not_keepsInside hs
  have hescape : Text.escape s.toList = Text.escape p ++ '<' :: Text.escape rest := by
    rw [hrest, Text.escape, Text.escape, List.flatMap_append, List.flatMap_cons]
    rfl
  cases hname : expandFrom (ofKey x s) find? 0 (some []) (Text.escape rest ++ ['"', ']']) with
  | error fault =>
    have hexpand : expand find? (ofKey x s) = .error fault := by
      rw [expand_ofKey hx, hescape, List.append_assoc, expandFrom_escape_append hp, hzero,
        List.cons_append, expandFrom]
      simp [hname, Except.map]
    exact ⟨fault, by rw [resolve, hexpand]; rfl⟩
  | ok expanded =>
    -- The name would have to be a variable with a text.
    obtain ⟨n, v, t, hn, hstart, hv, ht⟩ := exists_of_expandFrom_some hname
    have hplain : ∀ c ∈ n ++ ['>'], c ≠ '\\' ∧ c ≠ '"' := by
      intro c hc
      rcases List.mem_append.mp hc with hmem | hmem
      · have hident := isIdentChar_of_mem hn hmem
        constructor <;> rintro rfl <;> revert hident <;> decide
      · rw [List.mem_singleton.mp hmem]
        decide
    obtain ⟨after, rfl⟩ := prefix_of_prefix_escape hplain hstart
    have hwithin : '<' :: (String.ofList n).toList ++ ['>'] <:+: s.toList :=
      ⟨p, after, by rw [hrest, String.toList_ofList]; simp⟩
    rw [hfind _ v hwithin hv] at ht
    cases ht

end Path

/-- The literal of a name addresses the field of that name from every frame exactly if no `<` of
the name stands where the brackets, counted in the literal too, are closed; a name without `<` or
without `]` is such a name. For any other name the path cannot be read, except where a part of the
name in angle brackets is a variable that holds a text. -/
theorem key_literals_address_fields_iff {x : String} (hx : isIdentifier x = true) (s : String) :
    ((∀ (store : Store) (id : FrameId) (effort : ℕ), 0 < effort →
        store.resolve effort id (Path.ofKey x s) = pure ⟨x, [.field s]⟩) ↔
      Path.KeepsInside 1 s.toList) ∧
    ('<' ∉ s.toList ∨ ']' ∉ s.toList → Path.KeepsInside 1 s.toList) ∧
    (¬Path.KeepsInside 1 s.toList → ∀ (store : Store) (id : FrameId),
      (∀ name v, '<' :: name.toList ++ ['>'] <:+: s.toList → store.find? id name = some v →
        v.text? = none) →
      ∀ effort, ∃ fault, store.resolve effort id (Path.ofKey x s) = throw fault) := by
  have hfault (hs : ¬Path.KeepsInside 1 s.toList) (store : Store) (id : FrameId)
      (hfind : ∀ name v, '<' :: name.toList ++ ['>'] <:+: s.toList →
        store.find? id name = some v → v.text? = none) (effort : ℕ) :
      ∃ fault, store.resolve effort id (Path.ofKey x s) = throw fault :=
    Path.exists_fault_of_not_keepsInside hx hs hfind _
  refine ⟨⟨fun h => ?_, fun hs store id effort heffort => ?_⟩,
    Path.keepsInside_of_not_mem Nat.one_pos, hfault⟩
  · -- Without variables nothing can be replaced.
    refine Decidable.byContradiction fun hs => ?_
    obtain ⟨fault, hthrow⟩ := hfault hs {} 0 (fun name v _ hv => by cases hv) 1
    rw [h {} 0 1 Nat.one_pos] at hthrow
    cases hthrow
  · obtain ⟨effort, rfl⟩ := Nat.exists_eq_add_of_lt heffort
    rw [Nat.zero_add]
    exact Path.resolve_ofKey hx hs effort _

/-- A name with brackets, a quote and a backslash in it. -/
theorem key_literals_address_fields_iff_nested :
    isIdentifier "x" = true ∧ Path.ofKey "x" "[<a>]\"<\\" = "x[\"[<a>]\\\"<\\\\\"]" ∧
      ∀ (store : Store) (id : FrameId) (effort : ℕ), 0 < effort →
        store.resolve effort id (Path.ofKey "x" "[<a>]\"<\\") = pure ⟨"x", [.field "[<a>]\"<\\"]⟩ :=
  ⟨by decide, by decide,
    (key_literals_address_fields_iff (x := "x") (by decide) _).1.mpr (by decide)⟩

/-- The name `]<` closes the bracket around it, and then starts a name to replace. -/
theorem closing_key_is_replaced :
    isIdentifier "x" = true ∧ Path.ofKey "x" "]<" = "x[\"]<\"]" ∧
      ∀ effort, ({} : Store).resolve effort 0 (Path.ofKey "x" "]<") =
        throw (.invalidPath "x[\"]<\"]" .unclosedName) :=
  ⟨by decide, by decide, fun _ => rfl⟩

end Logo
