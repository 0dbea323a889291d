import Logo.Proofs.Path.Key

/-!
# Paths written and read

A path is written as the name of its variable followed by its accessors, `.name` for a field and
`[i]` for an item. Where the names of the fields are made of characters of identifiers and the items
are within the limit, the written path is read as the path itself, from every frame: each accessor
ends where the next one starts, and the digits of an index are evaluated to this index.
-/

namespace Logo

open Float.Model (UnpackedFloat)
open Float.Model.UnpackedFloat

/-! ## Indexes as numbers -/

namespace Binary

/-- Core takes a positive natural number below `2 ^ 53` apart into its mantissa and its exponent. -/
theorem unpack_ofNat {n : ℕ} (hpos : 0 < n) (hlt : n < 2 ^ 53) :
    (Float.ofNat n).toModel.unpack =
      .finite .positive (whole n 0).mantissa (whole n 0).exponent (mantissa_whole_pos hpos) := by
  have hunpack := (isCanonical_whole hpos hlt (Nat.zero_le 971)).unpack_pack
  rw [ofNat_eq_packed hpos hlt, ← unpacked_whole hpos]
  exact hunpack

/-- Natural numbers keep their order as numbers. -/
theorem not_ofNat_lt {i n : ℕ} (hle : i ≤ n) (hlt : n < 2 ^ 53) :
    ¬Float.ofNat n < Float.ofNat i := by
  rw [lt_iff_compare]
  rcases Nat.eq_zero_or_pos i with rfl | hpos
  · rcases Nat.eq_zero_or_pos n with rfl | hn
    · decide
    · have hzero : (Float.ofNat 0).toModel.unpack = .zero .positive := rfl
      rw [unpack_ofNat hn hlt, hzero]
      simp [UnpackedFloat.compare]
  · have hn : 0 < n := hpos.trans_le hle
    have hlog : i.log2 ≤ n.log2 :=
      (Nat.le_log2 hn.ne').mpr ((Nat.log2_self_le hpos.ne').trans hle)
    have hmost : n.log2 < 53 := (Nat.log2_lt hn.ne').mpr hlt
    rw [unpack_ofNat hn hlt, unpack_ofNat hpos (hle.trans_lt hlt), UnpackedFloat.compare]
    simp only [whole, Option.some.injEq, Ordering.then_eq_lt, Int.compare_eq_lt,
      Int.compare_eq_eq, Nat.compare_eq_lt, not_or, not_and]
    refine ⟨by omega, fun hsame => ?_⟩
    have hdigits : i.log2 = n.log2 := by omega
    rw [hdigits]
    exact Nat.not_lt.mpr (Nat.mul_le_mul_right _ hle)

end Binary

/-- A natural number is written by its digits. -/
theorem toString_eq_ofList (i : ℕ) : toString i = String.ofList (Nat.toDigits 10 i) := by
  rw [← String.toList_inj]
  simp

/-- The digits of a natural number are evaluated to this number. -/
theorem evaluate_toString (effort : ℕ) (env : Environment) (i : ℕ) :
    evaluate (effort + 1) env (toString i) = pure (.number (Float.ofNat i)) := by
  have hspells : Spells (Nat.toDigits 10 i) (Float.ofNat i) :=
    Decimal.spells_digits (List.ne_nil_of_length_pos Nat.length_toDigits_pos)
      Decimal.isDigit_of_mem_toDigits (Decimal.natOfDigits_toDigits i)
  rw [toString_eq_ofList, evaluate_of_compile hspells.compile_eq]
  rfl

/-- The number of an index within the limit leads to the item at this index. -/
theorem Path.indexAccessor_ofNat {i : ℕ} (h : i ≤ maxIndex) (path : String) :
    indexAccessor path (.number (Float.ofNat i)) = .ok (.index i) := by
  have hlt : maxIndex < 2 ^ 53 := by decide
  have hnat : Number.toNat? (Float.ofNat i) = some i := by
    rw [ofNat_eq_ofModel (h.trans_lt hlt), Number.toNat?_ofNat (h.trans_lt hlt)]
  simp only [indexAccessor, gt_iff_lt, Binary.not_ofNat_lt h hlt, if_false, hnat]

/-! ## Accessors as parts of a path -/

namespace Accessor

/-- Whether the written form of an accessor can be read: the name of a field has characters of
identifiers only, and an index is within the limit. -/
def IsLegible : Accessor → Prop
  | field name => name.toList ≠ [] ∧ ∀ c ∈ name.toList, isIdentChar c = true
  | index i => i ≤ maxIndex

instance : DecidablePred IsLegible
  | field _ => @instDecidableAnd _ _ _ (List.decidableBAll _ _)
  | index i => inferInstanceAs (Decidable (i ≤ maxIndex))

/-- The part of a path that an accessor is written as. -/
def part : Accessor → Path.Part
  | field name => .field name
  | index i => .index (toString i)

variable {x : Accessor}

/-- A field is written behind a point. -/
theorem toList_text_field (name : String) : (field name).text.toList = '.' :: name.toList := by
  simp [text]

/-- An index is written in brackets. -/
theorem toList_text_index (i : ℕ) :
    (index i).text.toList = '[' :: (Nat.toDigits 10 i ++ [']']) := by
  simp [text]

/-- The written form of an accessor has no blanks, and nothing that is replaced. -/
theorem char_text (h : x.IsLegible) {c : Char} (hc : c ∈ x.text.toList) :
    Text.isBlank c = false ∧ c ≠ '<' := by
  have hcases : isIdentChar c = true ∨ c ∈ ['.', '[', ']'] := by
    cases x with
    | field name =>
      rw [toList_text_field] at hc
      rcases List.mem_cons.mp hc with rfl | hname
      · exact .inr (by simp)
      · exact .inl (h.2 c hname)
    | index i =>
      simp only [toList_text_index, List.mem_cons, List.mem_append, List.not_mem_nil,
        or_false] at hc
      rcases hc with rfl | hdigit | rfl
      · exact .inr (by simp)
      · have hdigit' := Decimal.isDigit_of_mem_toDigits c hdigit
        exact .inl (by simp [isIdentChar, Char.isAlphanum, hdigit'])
      · exact .inr (by simp)
  rcases hcases with hident | hmark
  · exact ⟨(isIdentChar_spec hident).1, (isIdentChar_spec hident).2.1⟩
  · simp only [List.mem_cons, List.not_mem_nil, or_false] at hmark
    rcases hmark with rfl | rfl | rfl
    · decide
    · decide
    · decide

/-- An accessor in front of others is the first part. -/
theorem parts_text_append (h : x.IsLegible) {rest : List Char}
    (hrest : ∀ c ∈ rest.head?, isIdentChar c = false) :
    Path.parts (x.text.toList ++ rest) = x.part :: Path.parts rest := by
  cases x with
  | field name =>
    obtain ⟨hne, hname⟩ := h
    have htake : (name.toList ++ rest).takeWhile isIdentChar = name.toList := by
      rw [List.takeWhile_append_of_pos hname]
      cases rest with
      | nil => simp
      | cons c rest => simp [hrest c rfl]
    rw [toList_text_field, List.cons_append, Path.parts]
    simp [htake, hne, part]
  | index i =>
    have hsettles : Text.Settles (fun _ => True) .outside 0 (Nat.toDigits 10 i) :=
      .of_plain fun c hc => ⟨(numeral_char (.inl (Decimal.isDigit_of_mem_toDigits c hc))).2.2.1,
        trivial⟩
    have hparts := Path.parts_bracketed hsettles rest
    rw [toList_text_index, part, toString_eq_ofList]
    simpa using hparts

/-- The part of an accessor leads to the accessor. -/
theorem resolve_part (h : x.IsLegible) (path : String) (effort : ℕ) (env : Environment) :
    x.part.resolve path (evaluate (effort + 1) env) = pure x := by
  cases x with
  | field name => rfl
  | index i =>
    rw [part, Path.Part.resolve, evaluate_toString, pure_bind, Path.indexAccessor_ofNat h]
    rfl

end Accessor

/-! ## Paths -/

namespace Path

/-- The written form of a path. -/
def text (p : Path) : String := p.base ++ String.join (p.accessors.map Accessor.text)

variable {accessors : List Accessor}

/-- The accessors of a path, written one after another. -/
def accessorChars (accessors : List Accessor) : List Char := accessors.flatMap (·.text.toList)

/-- The first accessor of several is written in front of the others. -/
theorem accessorChars_cons (x : Accessor) (rest : List Accessor) :
    accessorChars (x :: rest) = x.text.toList ++ accessorChars rest := List.flatMap_cons

/-- A path is written as the name of its variable and its accessors. -/
theorem toList_text (p : Path) : p.text.toList = p.base.toList ++ accessorChars p.accessors := by
  simp [text, accessorChars, String.toList_join, List.flatMap_map]

/-- Accessors start with a point or a bracket. -/
theorem mem_head?_accessorChars : ∀ c ∈ (accessorChars accessors).head?, c = '.' ∨ c = '[' := by
  cases accessors with
  | nil => simp [accessorChars]
  | cons x rest => cases x with
    | field name => simp [accessorChars_cons, Accessor.toList_text_field]
    | index i => simp [accessorChars_cons, Accessor.toList_text_index]

/-- The accessors that are written one after another are the parts of what is written. -/
theorem parts_accessorChars (h : ∀ x ∈ accessors, x.IsLegible) :
    parts (accessorChars accessors) = accessors.map Accessor.part := by
  induction accessors with
  | nil => exact parts_nil
  | cons x rest ih =>
    obtain ⟨hx, hrest⟩ := List.forall_mem_cons.mp h
    have hhead : ∀ c ∈ (accessorChars rest).head?, isIdentChar c = false := fun c hc => by
      rcases mem_head?_accessorChars c hc with rfl | rfl
      · decide
      · decide
    rw [accessorChars_cons, Accessor.parts_text_append hx hhead, ih hrest, List.map_cons]

/-- The parts that legible accessors are written as are read as these accessors. -/
theorem mapM_resolve_part (h : ∀ x ∈ accessors, x.IsLegible) (path : String) (effort : ℕ)
    (env : Environment) :
    (accessors.map Accessor.part).mapM (Part.resolve path (evaluate (effort + 1) env)) =
      pure accessors := by
  induction accessors with
  | nil => rfl
  | cons x rest ih =>
    obtain ⟨hx, hrest⟩ := List.forall_mem_cons.mp h
    rw [List.map_cons, List.mapM_cons, Accessor.resolve_part hx, pure_bind, ih hrest, pure_bind]

/-- The written form of a path has no blanks, and nothing that is replaced. -/
theorem char_text {p : Path} (hbase : isIdentifier p.base = true)
    (haccessors : ∀ x ∈ p.accessors, x.IsLegible) {c : Char} (hc : c ∈ p.text.toList) :
    Text.isBlank c = false ∧ c ≠ '<' := by
  rw [toList_text, List.mem_append, accessorChars, List.mem_flatMap] at hc
  rcases hc with hc | ⟨x, hx, hc⟩
  · obtain ⟨hblank, hangle, -⟩ := isIdentChar_spec (isIdentChar_of_mem hbase hc)
    exact ⟨hblank, hangle⟩
  · exact Accessor.char_text (haccessors x hx) hc

end Path

/-- A path that is written is read as it was, from every frame: the name of a variable, and
accessors that are names of fields made of characters of identifiers and indexes within the
limit. -/
theorem Store.resolve_text (s : Store) (effort : ℕ) (id : FrameId) {p : Path}
    (hbase : isIdentifier p.base = true) (haccessors : ∀ x ∈ p.accessors, x.IsLegible) :
    s.resolve (effort + 1) id p.text = pure p := by
  have hexpand : Path.expand (s.find? id) p.text = .ok p.text.toList :=
    Path.expandFrom_of_not_mem fun hmem => (Path.char_text hbase haccessors hmem).2 rfl
  have htrim : Text.trim p.text.toList = p.text.toList :=
    Text.trim_of_not_blank fun c hc => (Path.char_text hbase haccessors hc).1
  rw [resolve, Path.resolve_eq_mapM hbase p.toList_text Path.mem_head?_accessorChars hexpand htrim,
    Path.parts_accessorChars haccessors, Path.mapM_resolve_part haccessors, pure_bind]

/-- A path with names of fields that are no identifiers, and with the first and the last index. -/
theorem Store.resolve_text_assorted :
    let p : Path := ⟨"a_1", [.field "0b", .index 1000000, .index 0, .field "_"]⟩
    p.text = "a_1.0b[1000000][0]._" ∧ isIdentifier p.base = true ∧
      (∀ x ∈ p.accessors, x.IsLegible) ∧
      ∀ (s : Store) (id : FrameId), s.resolve 1 id p.text = pure p := by
  intro p
  have hbase : isIdentifier p.base = true := by decide
  have hlegible : ∀ x ∈ p.accessors, x.IsLegible := by decide
  have htext : p.text = "a_1.0b[1000000][0]._" := by decide +kernel
  exact ⟨htext, hbase, hlegible, fun s id => s.resolve_text 0 id hbase hlegible⟩

end Logo
