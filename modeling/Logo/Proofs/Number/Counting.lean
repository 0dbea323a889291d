import Logo.Proofs.Number.Decimal

/-!
# Counting with numbers

The natural numbers up to `2 ^ 53` are numbers. They are compared as natural numbers are, one can be
added to each of them but the last, and each is its own floor.
-/

namespace Logo

open Float.Model (Format UnpackedFloat)
open Float.Model.UnpackedFloat Binary

/-- Numbers are compared as core compares their parts. -/
theorem lt_iff_unpack (x y : Float) : x < y ↔ x.toModel.unpack.lt y.toModel.unpack = true :=
  decide_eq_true_iff

namespace Binary

/-- Whether parts are those of a positive natural number, in the form that has a full mantissa. The
unit is `2 ^ -52`, the least that the mantissa of a natural number is counted in. -/
structure Counts (b : Binary) (n : ℕ) : Prop where
  canonical : b.IsCanonical
  not_negative : b.negative = false
  le_exponent : -52 ≤ b.exponent
  value_eq : b.mantissa * 2 ^ (b.exponent + 52).toNat = n * 2 ^ 52

variable {a b c : Binary} {m n : ℕ}

namespace Counts

/-- A mantissa that counts a natural number is full. -/
theorem le_mantissa (h : b.Counts n) : 2 ^ 52 ≤ b.mantissa :=
  h.canonical.full.resolve_right fun hleast => by
    have := h.le_exponent
    omega

/-- A mantissa that counts a natural number is not zero. -/
theorem mantissa_pos (h : b.Counts n) : 0 < b.mantissa :=
  lt_of_lt_of_le (Nat.two_pow_pos 52) h.le_mantissa

/-- Core takes a number that counts apart into its mantissa and its exponent. -/
theorem unpack_toModel (h : b.Counts n) :
    b.packed.toModel.unpack = .finite .positive b.mantissa b.exponent h.mantissa_pos := by
  rw [packed, h.canonical.unpack_pack, unpacked_eq_finite h.mantissa_pos rfl rfl,
    sign_of_not_negative h.not_negative]

end Counts

/-- The parts of a natural number below `2 ^ 53` count this number. -/
theorem counts_whole (hpos : 0 < n) (hlt : n < 2 ^ 53) : (whole n 0).Counts n where
  canonical := isCanonical_whole hpos hlt (by decide)
  not_negative := rfl
  le_exponent := by
    simp only [whole]
    omega
  value_eq := by
    have hlog : n.log2 < 53 := (Nat.log2_lt (Nat.ne_of_gt hpos)).mpr hlt
    have hexponent : ((whole n 0).exponent + 52).toNat = n.log2 := by
      simp only [whole]
      omega
    have hmantissa : (whole n 0).mantissa = n * 2 ^ (52 - n.log2) := rfl
    rw [hexponent, hmantissa, Nat.mul_assoc, ← Nat.pow_add]
    congr 2
    omega

/-- The natural numbers up to `2 ^ 53` have parts. -/
theorem exists_counts (hpos : 0 < n) (hle : n ≤ 2 ^ 53) :
    ∃ b : Binary, b.Counts n ∧ Float.ofNat n = b.packed := by
  rcases Nat.lt_or_eq_of_le hle with hlt | rfl
  · exact ⟨whole n 0, counts_whole hpos hlt, ofNat_eq_packed hpos hlt⟩
  · refine ⟨whole 1 53, ⟨isCanonical_whole Nat.one_pos (by decide) (by decide), rfl, by decide,
      by decide⟩, by decide +kernel⟩

/-- A whole number of units that has parts is exact. -/
theorem Counts.normalize_eq (h : c.Counts n) :
    UnpackedFloat.normalize .binary64 ((n * 2 ^ 52 : ℕ) : ℤ) (-52) .positive = c.unpacked := by
  have hle := h.le_exponent
  obtain ⟨k, hshift⟩ : ∃ k : ℕ, (c.exponent + 52).toNat = k := ⟨_, rfl⟩
  have hunits : (-52 : ℤ) = c.exponent - k := by omega
  have hpos : 0 < c.mantissa * 2 ^ k := Nat.mul_pos h.mantissa_pos (Nat.two_pow_pos k)
  have hstay : (c.exponent - k - c.exponent).toNat = 0 := by omega
  rw [← h.value_eq, hshift, hunits, UnpackedFloat.normalize,
    Int.compare_eq_gt.mpr (Int.natCast_pos.mpr hpos)]
  simp only [Int.toNat_natCast, UnpackedFloat.round, decreaseExponent, targetExponent_eq,
    roundedExponent_scaled h.mantissa_pos, h.canonical.roundedExponent_eq h.mantissa_pos, hstay,
    Nat.shiftLeft_zero, Int.natCast_zero, Int.sub_zero]
  rw [← h.canonical.rounded_eq h.mantissa_pos k, sign_of_not_negative h.not_negative, rounded]

/-- A sum that has parts is exact. -/
theorem packed_add_packed (ha : a.Counts m) (hb : b.Counts n) (hc : c.Counts (m + n))
    (hleast : a.exponent = -52 ∨ b.exponent = -52) : a.packed + b.packed = c.packed := by
  have hadd : a.packed + b.packed = .ofModel (.pack (UnpackedFloat.add .binary64
      a.packed.toModel.unpack b.packed.toModel.unpack)) := rfl
  have hale := ha.le_exponent
  have hble := hb.le_exponent
  have hmin : min a.exponent b.exponent = -52 := by omega
  rw [hadd, ha.unpack_toModel, hb.unpack_toModel, packed, ← hc.normalize_eq]
  simp only [UnpackedFloat.add, hmin, decreaseExponent, Nat.shiftLeft_eq, Sign.apply, Int.sub_neg,
    ha.value_eq, hb.value_eq, ← Int.natCast_add, ← Nat.add_mul]

/-- The mantissa is full, so of two numbers the one with the greater exponent is greater. -/
theorem Counts.lt_of_exponent_lt (ha : a.Counts m) (hb : b.Counts n)
    (hlt : a.exponent < b.exponent) : m < n := by
  have hale := ha.le_exponent
  have hstep : (a.exponent + 52).toNat + 1 ≤ (b.exponent + 52).toNat := by omega
  refine Nat.lt_of_mul_lt_mul_right (a := 2 ^ 52) ?_
  calc m * 2 ^ 52 = a.mantissa * 2 ^ (a.exponent + 52).toNat := ha.value_eq.symm
    _ < 2 ^ 53 * 2 ^ (a.exponent + 52).toNat :=
      Nat.mul_lt_mul_of_pos_right ha.canonical.mantissa_lt (Nat.two_pow_pos _)
    _ = 2 ^ 52 * 2 ^ ((a.exponent + 52).toNat + 1) := by
      rw [← Nat.pow_add, ← Nat.pow_add]
      congr 1
      omega
    _ ≤ b.mantissa * 2 ^ (b.exponent + 52).toNat :=
      Nat.mul_le_mul hb.le_mantissa (Nat.pow_le_pow_right (by decide) hstep)
    _ = n * 2 ^ 52 := hb.value_eq

/-- Of two natural numbers the smaller one has the smaller exponent, or at the same exponent the
smaller mantissa. -/
theorem Counts.lt_iff (ha : a.Counts m) (hb : b.Counts n) :
    m < n ↔ a.exponent < b.exponent ∨ a.exponent = b.exponent ∧ a.mantissa < b.mantissa := by
  rcases lt_trichotomy a.exponent b.exponent with hlt | heq | hgt
  · exact iff_of_true (ha.lt_of_exponent_lt hb hlt) (.inl hlt)
  · have hunits : m * 2 ^ 52 < n * 2 ^ 52 ↔ a.mantissa < b.mantissa := by
      rw [← ha.value_eq, ← hb.value_eq, heq]
      exact Nat.mul_lt_mul_right (Nat.two_pow_pos _)
    rw [← hunits, Nat.mul_lt_mul_right (Nat.two_pow_pos 52)]
    simp [heq]
  · have hless := hb.lt_of_exponent_lt ha hgt
    omega

/-- Numbers that count natural numbers are in the order of these. -/
theorem packed_lt_packed (ha : a.Counts m) (hb : b.Counts n) : a.packed < b.packed ↔ m < n := by
  rw [lt_iff_unpack, ha.unpack_toModel, hb.unpack_toModel, UnpackedFloat.lt, ha.lt_iff hb]
  simp [UnpackedFloat.compare, Ordering.then_eq_lt, compare_lt_iff_lt]

/-- No digits of a natural number stand below the point. -/
theorem Counts.mantissa_mod_eq_zero (h : b.Counts n) {k : ℕ} (hk : b.exponent = -(k : ℤ)) :
    b.mantissa % 2 ^ k = 0 := by
  have hle := h.le_exponent
  have hshift : (b.exponent + 52).toNat = 52 - k := by omega
  have hsplit : 52 = k + (52 - k) := by omega
  have hvalue : b.mantissa * 2 ^ (52 - k) = n * 2 ^ k * 2 ^ (52 - k) := by
    rw [← hshift, h.value_eq, hshift, Nat.mul_assoc, ← Nat.pow_add, ← hsplit]
  rw [Nat.eq_of_mul_eq_mul_right (Nat.two_pow_pos _) hvalue, Nat.mul_mod_left]

/-- A number that counts a natural number is its own whole part. -/
theorem Counts.floor_packed (h : b.Counts n) : Number.floor b.packed = b.packed := by
  rw [Number.floor, Number.toWhole, if_pos (isFinite_packed h.canonical), ofFloat_packed h.canonical]
  dsimp only
  split
  · rfl
  · next e he => exact if_pos (h.mantissa_mod_eq_zero (k := e + 1) (by omega))

end Binary

open Binary

variable {m n : ℕ}

/-- Counting on. -/
theorem ofNat_add_one (hlt : n < 2 ^ 53) : Float.ofNat n + 1.0 = Float.ofNat (n + 1) := by
  have hone : (1.0 : Float) = (whole 1 0).packed := by decide
  rcases Nat.eq_zero_or_pos n with rfl | hpos
  · decide
  · obtain ⟨b, hb, hbeq⟩ := exists_counts hpos (Nat.le_of_lt hlt)
    obtain ⟨c, hc, hceq⟩ := exists_counts (Nat.succ_pos n) hlt
    rw [hbeq, hceq, hone]
    exact packed_add_packed hb (counts_whole Nat.one_pos (by decide)) hc (.inr (by decide))

/-- Zero as a natural number is the number zero. -/
theorem ofNat_zero : Float.ofNat 0 = 0.0 := by
  decide

/-- Core takes zero apart into a sign alone. -/
theorem unpack_ofNat_zero : (Float.ofNat 0).toModel.unpack = .zero .positive := by
  rw [ofNat_zero, unpack_toModel (by decide), ofFloat_zero]
  rfl

/-- Natural numbers up to `2 ^ 53` keep their order as numbers. -/
theorem ofNat_lt_ofNat (hm : m ≤ 2 ^ 53) (hn : n ≤ 2 ^ 53) :
    Float.ofNat m < Float.ofNat n ↔ m < n := by
  rw [lt_iff_unpack]
  rcases Nat.eq_zero_or_pos m with rfl | hmpos <;> rcases Nat.eq_zero_or_pos n with rfl | hnpos
  · rw [unpack_ofNat_zero]
    decide
  · obtain ⟨b, hb, hbeq⟩ := exists_counts hnpos hn
    rw [hbeq, unpack_ofNat_zero, hb.unpack_toModel]
    exact iff_of_true rfl hnpos
  · obtain ⟨a, ha, haeq⟩ := exists_counts hmpos hm
    rw [haeq, unpack_ofNat_zero, ha.unpack_toModel]
    exact iff_of_false Bool.false_ne_true (Nat.not_lt_zero m)
  · obtain ⟨a, ha, haeq⟩ := exists_counts hmpos hm
    obtain ⟨b, hb, hbeq⟩ := exists_counts hnpos hn
    rw [haeq, hbeq, ← lt_iff_unpack, packed_lt_packed ha hb]

/-- A natural number up to `2 ^ 53` is its own whole part as a number. -/
theorem floor_ofNat (hn : n ≤ 2 ^ 53) : Number.floor (Float.ofNat n) = Float.ofNat n := by
  rcases Nat.eq_zero_or_pos n with rfl | hpos
  · decide +kernel
  · obtain ⟨b, hb, hbeq⟩ := exists_counts hpos hn
    rw [hbeq, hb.floor_packed]

end Logo
