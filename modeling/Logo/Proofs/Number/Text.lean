import Logo.Number.Text
import Logo.Proofs.Number.Decimal

/-!
# Numbers written and read

A finite number is written as a numeral that reads back as the same number. This is what the search
for the shortest numeral looks for, and where it finds none the exact numeral is taken. Writing the
numeral out in full does not change its number.
-/

namespace Logo

/-- Whether a text is a numeral of a number: it starts with a digit, it has digits and points only,
and it is read as the number. -/
structure Spells (cs : List Char) (x : Float) : Prop where
  head : ∃ c ∈ cs.head?, c.isDigit = true
  chars : ∀ c ∈ cs, c.isDigit = true ∨ c = '.'
  read : (Decimal.ofText? cs).map Decimal.toFloat = some x

namespace Decimal

/-- Digits have the value that the library gives them. -/
theorem natOfDigits_eq (cs : List Char) : natOfDigits cs = Nat.ofDigitChars 10 cs 0 := by
  rw [Nat.ofDigitChars_eq_foldl]
  rfl

/-- A text of digits is read as their value. -/
theorem ofText?_digits {cs : List Char} (hne : cs ≠ []) (h : ∀ c ∈ cs, c.isDigit = true) :
    ofText? cs = some ⟨natOfDigits cs, 0⟩ := by
  have hdrop : cs.dropWhile Char.isDigit = [] := List.dropWhile_eq_nil_iff.mpr h
  have htake : cs.takeWhile Char.isDigit = cs := List.takeWhile_eq_self_iff.mpr h
  simp [ofText?, hdrop, htake, hne, exponent?]

/-- A text of digits with a point is read as the value of all digits, less the places behind the
point. -/
theorem ofText?_point {whole fraction : List Char} (hne : whole ≠ [])
    (hwhole : ∀ c ∈ whole, c.isDigit = true) (hfraction : ∀ c ∈ fraction, c.isDigit = true) :
    ofText? (whole ++ '.' :: fraction) =
      some ⟨natOfDigits (whole ++ fraction), -fraction.length⟩ := by
  have hdrop : (whole ++ '.' :: fraction).dropWhile Char.isDigit = '.' :: fraction := by
    rw [List.dropWhile_append_of_pos hwhole]
    rfl
  have htake : (whole ++ '.' :: fraction).takeWhile Char.isDigit = whole := by
    rw [List.takeWhile_append_of_pos hwhole]
    simp
  have hrest : fraction.dropWhile Char.isDigit = [] := List.dropWhile_eq_nil_iff.mpr hfraction
  have hpointed : fraction.takeWhile Char.isDigit = fraction :=
    List.takeWhile_eq_self_iff.mpr hfraction
  simp [ofText?, hdrop, htake, hrest, hpointed, hne, exponent?]

/-- The digits of a natural number have its value. -/
theorem natOfDigits_toDigits (n : ℕ) : natOfDigits (Nat.toDigits 10 n) = n := by
  rw [natOfDigits_eq, Nat.ofDigitChars_ten_toDigits]

/-- A text of digits is a numeral of its value. -/
theorem spells_digits {cs : List Char} {n : ℕ} (hne : cs ≠ [])
    (h : ∀ c ∈ cs, c.isDigit = true) (hvalue : natOfDigits cs = n) :
    Spells cs (⟨n, 0⟩ : Decimal).toFloat where
  head := by
    obtain ⟨c, rest, rfl⟩ := List.exists_cons_of_ne_nil hne
    exact ⟨c, rfl, h c List.mem_cons_self⟩
  chars := fun c hc => .inl (h c hc)
  read := by
    rw [ofText?_digits hne h, hvalue]
    rfl

/-- A text of digits with a point is a numeral of its value. -/
theorem spells_point {whole fraction : List Char} {n e : ℕ} (hne : whole ≠ [])
    (hwhole : ∀ c ∈ whole, c.isDigit = true) (hfraction : ∀ c ∈ fraction, c.isDigit = true)
    (hvalue : natOfDigits (whole ++ fraction) = n) (hplaces : fraction.length = e + 1) :
    Spells (whole ++ '.' :: fraction) (⟨n, .negSucc e⟩ : Decimal).toFloat where
  head := by
    obtain ⟨c, rest, rfl⟩ := List.exists_cons_of_ne_nil hne
    exact ⟨c, rfl, hwhole c List.mem_cons_self⟩
  chars := by
    intro c hc
    rcases List.mem_append.mp hc with hc | hc
    · exact .inl (hwhole c hc)
    · rcases List.mem_cons.mp hc with rfl | hc
      · exact .inr rfl
      · exact .inl (hfraction c hc)
  read := by
    rw [ofText?_point hne hwhole hfraction, hvalue, hplaces]
    rfl

/-- The digits of a natural number are digits. -/
theorem isDigit_of_mem_toDigits {n : ℕ} : ∀ c ∈ Nat.toDigits 10 n, c.isDigit = true :=
  fun _ hc => Nat.isDigit_of_mem_toDigits (by decide) (by decide) hc

/-- Zeros are digits. -/
theorem isDigit_of_mem_zeros {k : ℕ} : ∀ c ∈ List.replicate k '0', c.isDigit = true := by
  intro c hc
  rw [List.eq_of_mem_replicate hc]
  rfl

/-- A numeral that is written out in full is read as the same number. -/
theorem spells_positional {d : Decimal} (he : d.exponent ≤ 2048) :
    Spells d.positional d.toFloat := by
  obtain ⟨n, e | e⟩ := d
  · have hspells : Spells (Nat.toDigits 10 n ++ List.replicate e '0')
        (⟨n * 10 ^ e, 0⟩ : Decimal).toFloat := by
      refine spells_digits (by simp)
        (List.forall_mem_append.mpr ⟨isDigit_of_mem_toDigits, isDigit_of_mem_zeros⟩) ?_
      rw [natOfDigits_eq, Nat.ofDigitChars_append, Nat.ofDigitChars_ten_toDigits,
        Nat.ofDigitChars_replicate_zero, Nat.mul_comm]
    rwa [toFloat_written_out n (Int.ofNat_le.mp he)] at hspells
  · simp only [positional]
    split
    · next hlt =>
      refine spells_point ?_ (fun c hc => isDigit_of_mem_toDigits c (List.mem_of_mem_take hc))
        (fun c hc => isDigit_of_mem_toDigits c (List.mem_of_mem_drop hc)) ?_ ?_
      · rw [← List.length_pos_iff, List.length_take]
        omega
      · rw [List.take_append_drop, natOfDigits_toDigits]
      · rw [List.length_drop]
        omega
    · next hle =>
      have hpos : 0 < (Nat.toDigits 10 n).length := Nat.length_toDigits_pos
      refine spells_point (List.cons_ne_nil '0' []) (by simp)
        (List.forall_mem_append.mpr ⟨isDigit_of_mem_zeros, isDigit_of_mem_toDigits⟩) ?_ ?_
      · have hzeros : '0' :: List.replicate (e + 1 - (Nat.toDigits 10 n).length) '0' =
            List.replicate (e + 1 - (Nat.toDigits 10 n).length + 1) '0' := rfl
        rw [← List.append_assoc, List.singleton_append, hzeros, natOfDigits_eq,
          Nat.ofDigitChars_append, Nat.ofDigitChars_replicate_zero, Nat.mul_zero,
          Nat.ofDigitChars_ten_toDigits]
      · rw [List.length_append, List.length_replicate]
        omega

end Decimal

namespace Number

variable {x : Float}

/-- A decimal that is found on a grid is read as the number and has the exponent of the grid. -/
theorem toFloat_of_onGrid? {b : Binary} {power : ℤ} {d : Decimal} (h : onGrid? b x power = some d) :
    d.toFloat = x ∧ d.exponent = power := by
  have hfound := List.find?_some h
  have hmem := List.mem_of_find?_eq_some h
  refine ⟨of_decide_eq_true hfound, ?_⟩
  split at hmem
  · simp at hmem
    rcases hmem with rfl | rfl <;> rfl
  · simp at hmem
    rcases hmem with rfl | rfl <;> rfl

/-- The shortest numeral is found on a grid, or else it is the exact numeral. -/
theorem shortest_cases (b : Binary) (x : Float) :
    (∃ power ≤ (b.mantissa.log2 + b.exponent + 1) * 30103 / 100000 + 1,
      onGrid? b x power = some (shortest b x)) ∨ shortest b x = b.toDecimal := by
  rw [shortest]
  cases hfind : (List.range 20).findSome? fun (k : ℕ) =>
      onGrid? b x ((b.mantissa.log2 + b.exponent + 1) * 30103 / 100000 + 1 - k) with
  | none => exact .inr rfl
  | some d =>
    obtain ⟨k, _, hk⟩ := List.exists_of_findSome?_eq_some hfind
    exact .inl ⟨_, by omega, hk⟩

/-- The shortest numeral of a number is read as this number. -/
theorem toFloat_shortest (hx : x.isFinite = true) (hsign : (Binary.ofFloat x).negative = false)
    (hne : (Binary.ofFloat x).mantissa ≠ 0) :
    (shortest (Binary.ofFloat x) x).toFloat = x ∧
      (shortest (Binary.ofFloat x) x).exponent ≤ 2048 := by
  have hcanonical := Binary.isCanonical_ofFloat hx
  have hmax := hcanonical.exponent_le
  have hlog : (Binary.ofFloat x).mantissa.log2 < 53 :=
    (Nat.log2_lt hne).mpr hcanonical.mantissa_lt
  rcases shortest_cases (Binary.ofFloat x) x with ⟨power, hpower, hgrid⟩ | hexact
  · obtain ⟨hread, hexponent⟩ := toFloat_of_onGrid? hgrid
    exact ⟨hread, by omega⟩
  · rw [hexact]
    refine ⟨?_, ?_⟩
    · rw [Binary.toFloat_toDecimal hcanonical (Nat.pos_of_ne_zero hne) hsign,
        Binary.packed_ofFloat hx]
    · rw [Binary.toDecimal]
      split
      · exact (by decide : (0 : ℤ) ≤ 2048)
      · next e _ =>
        have hneg : Int.negSucc e < 0 := Int.negSucc_lt_zero e
        exact Int.le_trans (Int.le_of_lt hneg) (by decide)

/-- A number without a sign is written as a numeral of it. -/
theorem spells_magnitudeText (hx : x.isFinite = true)
    (hsign : (Binary.ofFloat x).negative = false) : Spells (magnitudeText x) x := by
  by_cases hzero : (Binary.ofFloat x).mantissa = 0
  · obtain rfl := Binary.eq_zero_of_mantissa_eq_zero hx hsign hzero
    have htext : magnitudeText 0.0 = ['0'] := by decide
    have hread : (⟨0, 0⟩ : Decimal).toFloat = 0.0 := by decide
    have hdigits : ∀ c ∈ ['0'], c.isDigit = true := by simp
    have hspells := Decimal.spells_digits (n := 0) (List.cons_ne_nil '0' []) hdigits rfl
    rwa [hread, ← htext] at hspells
  · obtain ⟨hread, hexponent⟩ := toFloat_shortest hx hsign hzero
    have hspells := Decimal.spells_positional hexponent
    rw [hread] at hspells
    rwa [magnitudeText, if_neg (mt Binary.mantissa_eq_zero_of_beq hzero)]

/-- A finite number is neither NaN nor infinite. -/
theorem isNaN_and_isInf_eq_false (hx : x.isFinite = true) : x.isNaN = false ∧ x.isInf = false := by
  have hmodel : x.toModel.unpack.isFinite = true := hx
  change x.toModel.unpack.isNaN = false ∧ x.toModel.unpack.isInf = false
  cases hunpack : x.toModel.unpack with
  | infinity s | notANumber =>
    rw [hunpack] at hmodel
    cases hmodel
  | zero s | finite s m e h => exact ⟨rfl, rfl⟩

/-- A finite number is written as a numeral, or as a minus and the numeral of its opposite. -/
theorem text_cases (hx : x.isFinite = true) :
    (∃ cs, Spells cs x ∧ text x = String.ofList cs) ∨
      ∃ cs y, Spells cs y ∧ -y = x ∧ text x = String.ofList ('-' :: cs) := by
  obtain ⟨hnan, hinf⟩ := isNaN_and_isInf_eq_false hx
  cases hsign : (Binary.ofFloat x).negative with
  | false =>
    refine .inl ⟨magnitudeText x, spells_magnitudeText hx hsign, ?_⟩
    rw [text, hnan, hinf, hsign]
    rfl
  | true =>
    refine .inr ⟨magnitudeText (-x), -x, spells_magnitudeText (Binary.isFinite_neg hx) ?_,
      Binary.neg_neg_eq hx, ?_⟩
    · rw [Binary.ofFloat_neg hx, Binary.opposite, hsign]
      rfl
    · rw [text, hnan, hinf, hsign]
      rfl

end Number

end Logo
