import Logo.Proofs.Number.Parts

/-!
# Rounding

A positive number `m · 2 ^ e` is rounded to the nearest one that has parts. The result depends on
the number alone and not on how it is split into `m` and `e`, as long as `m` has enough digits. What
has parts is not changed. So natural numbers of few digits, products and quotients are exact
wherever their values have parts.
-/

namespace Logo

open Float.Model (Format UnpackedFloat totalExponent)
open Float.Model.UnpackedFloat

/-- The exponent that a number `m · 2 ^ e` is brought to. -/
def roundedExponent (m : ℕ) (e : ℤ) : ℤ := max (m.log2 + e - 52) (-1074)

/-- Core brings a number to the same exponent. -/
theorem targetExponent_eq (m : ℕ) (e : ℤ) :
    Format.binary64.targetExponent (totalExponent m e) = roundedExponent m e := by
  have hbits : (Format.binary64.mantissaBits : ℤ) = 53 := rfl
  have hmin : Format.binary64.minExponent = -1074 := rfl
  rw [Format.targetExponent, totalExponent, hbits, hmin, roundedExponent]
  omega

/-- A number that is shifted by some digits is longer by these digits. -/
theorem log2_mul_two_pow {m : ℕ} (hm : 0 < m) (k : ℕ) : (m * 2 ^ k).log2 = m.log2 + k := by
  have hne : m ≠ 0 := Nat.ne_of_gt hm
  rw [Nat.log2_eq_iff (Nat.ne_of_gt (Nat.mul_pos hm (Nat.two_pow_pos k)))]
  constructor
  · rw [Nat.pow_add]
    exact Nat.mul_le_mul_right _ (Nat.log2_self_le hne)
  · rw [Nat.add_right_comm, Nat.pow_add]
    exact Nat.mul_lt_mul_of_pos_right Nat.lt_log2_self (Nat.two_pow_pos k)

/-- The logarithm of a product is at least the sum of those of its factors. -/
theorem le_log2_mul {m n : ℕ} (hm : 0 < m) (hn : 0 < n) : m.log2 + n.log2 ≤ (m * n).log2 := by
  rw [Nat.le_log2 (Nat.ne_of_gt (Nat.mul_pos hm hn)), Nat.pow_add]
  exact Nat.mul_le_mul (Nat.log2_self_le (Nat.ne_of_gt hm)) (Nat.log2_self_le (Nat.ne_of_gt hn))

/-- The logarithm of a product exceeds the sum of those of its factors by one at most. -/
theorem log2_mul_le {m n : ℕ} (hm : 0 < m) (hn : 0 < n) :
    (m * n).log2 ≤ m.log2 + n.log2 + 1 := by
  have hlt : m * n < 2 ^ (m.log2 + n.log2 + 2) := by
    rw [show m.log2 + n.log2 + 2 = (m.log2 + 1) + (n.log2 + 1) by omega, Nat.pow_add]
    exact Nat.mul_lt_mul'' Nat.lt_log2_self Nat.lt_log2_self
  have := (Nat.log2_lt (Nat.ne_of_gt (Nat.mul_pos hm hn))).mpr hlt
  omega

/-- The exponent that a number is brought to does not depend on how the number is scaled. -/
theorem roundedExponent_scaled {m : ℕ} (hm : 0 < m) (e : ℤ) (k : ℕ) :
    roundedExponent (m * 2 ^ k) (e - k) = roundedExponent m e := by
  rw [roundedExponent, roundedExponent, log2_mul_two_pow hm]
  omega

/-! ## Shifting -/

/-- Shifting by two counts of digits is shifting by their sum. -/
theorem shiftRight_add (a : ExtendedMantissa) (j k : ℕ) : a >>> (j + k) = a >>> j >>> k := by
  induction k with
  | zero => rfl
  | succ k ih => exact congrArg ExtendedMantissa.shiftRightOne ih

/-- Zeros that are shifted out leave no trace. -/
theorem shiftRight_scaled (m k : ℕ) :
    (⟨m * 2 ^ k, false, false⟩ : ExtendedMantissa) >>> k = ⟨m, false, false⟩ := by
  induction k generalizing m with
  | zero =>
    rw [Nat.pow_zero, Nat.mul_one]
    rfl
  | succ k ih =>
    have hpow : m * 2 ^ (k + 1) = 2 * m * 2 ^ k := by
      rw [Nat.pow_succ, Nat.mul_comm (2 ^ k), ← Nat.mul_assoc, Nat.mul_comm m]
    rw [shiftRight_add, hpow, ih]
    have hone : (⟨2 * m, false, false⟩ : ExtendedMantissa) >>> 1 =
        ⟨2 * m / 2, 2 * m % 2 != 0, false || false⟩ := rfl
    rw [hone, Nat.mul_div_cancel_left m (by decide), Nat.mul_mod_right]
    rfl

/-- A mantissa that can be brought to its exponent is, with the zeros at its end left away. -/
theorem shiftToTargetExponent_scaled {m : ℕ} {e : ℤ} (hm : 0 < m) (he : e ≤ roundedExponent m e)
    (k : ℕ) :
    shiftToTargetExponent .binary64 (m * 2 ^ k) (e - k) .exact =
      shiftToTargetExponent .binary64 m e .exact := by
  have hamount : (roundedExponent m e - (e - k)).toNat = k + (roundedExponent m e - e).toNat := by
    omega
  simp only [shiftToTargetExponent, shiftToExponent, targetExponent_eq, roundedExponent_scaled hm,
    hamount, shiftRight_add, ExtendedMantissa.ofMantissaAndAccuracy, shiftRight_scaled]
  congr 1
  omega

/-! ## Rounding -/

/-- The unpacked number nearest to `m · 2 ^ e`. -/
def rounded (s : Sign) (m : ℕ) (e : ℤ) : UnpackedFloat := roundWithAccuracy .binary64 s m e .exact

/-- A number is rounded in the same way however it is scaled, as long as digits are only dropped. -/
theorem rounded_scaled (s : Sign) {m : ℕ} {e : ℤ} (hm : 0 < m) (he : e ≤ roundedExponent m e)
    (k : ℕ) : rounded s (m * 2 ^ k) (e - k) = rounded s m e := by
  rw [rounded, roundWithAccuracy, shiftToTargetExponent_scaled hm he, rounded, roundWithAccuracy]

/-- Rounding does not depend on how a number is split. -/
theorem rounded_congr (s : Sign) {m : ℕ} {e : ℤ} (hm : 0 < m) {j k : ℕ}
    (hj : e - j ≤ roundedExponent m e) (hk : e - k ≤ roundedExponent m e) :
    rounded s (m * 2 ^ j) (e - j) = rounded s (m * 2 ^ k) (e - k) := by
  wlog hjk : j ≤ k generalizing j k
  · exact (this hk hj (by omega)).symm
  obtain ⟨i, rfl⟩ := Nat.exists_eq_add_of_le hjk
  have hpos : 0 < m * 2 ^ j := Nat.mul_pos hm (Nat.two_pow_pos j)
  rw [← rounded_scaled s hpos (by rwa [roundedExponent_scaled hm]) i, Nat.pow_add, Nat.mul_assoc]
  congr 1
  omega

namespace Binary

variable {b : Binary}

/-- The parts of a finite number are at the exponent that rounding brings them to. -/
theorem IsCanonical.roundedExponent_eq (h : b.IsCanonical) (hpos : 0 < b.mantissa) :
    roundedExponent b.mantissa b.exponent = b.exponent := by
  have hne : b.mantissa ≠ 0 := Nat.ne_of_gt hpos
  have hlog : b.mantissa.log2 < 53 := (Nat.log2_lt hne).mpr h.mantissa_lt
  have hmin := h.le_exponent
  rw [roundedExponent]
  rcases h.full with hfull | hleast
  · have hle : 52 ≤ b.mantissa.log2 := (Nat.le_log2 hne).mpr hfull
    omega
  · omega

/-- What has parts is not changed by rounding. -/
theorem IsCanonical.rounded_eq (h : b.IsCanonical) (hpos : 0 < b.mantissa) (k : ℕ) :
    rounded b.sign (b.mantissa * 2 ^ k) (b.exponent - k) = b.unpacked := by
  have hexponent := h.roundedExponent_eq hpos
  have hstay : shiftToTargetExponent .binary64 b.mantissa b.exponent .exact =
      (⟨b.mantissa, false, false⟩, b.exponent) := by
    simp only [shiftToTargetExponent, shiftToExponent, targetExponent_eq, hexponent, Int.sub_self]
    rw [Int.toNat_zero, Int.natCast_zero, Int.add_zero]
    rfl
  have hround : (⟨b.mantissa, false, false⟩ : ExtendedMantissa).roundedMantissa = b.mantissa := rfl
  rw [rounded_scaled _ hpos (by omega), rounded, roundWithAccuracy, hstay]
  simp only [hround, hstay]
  rw [dif_neg (Nat.ne_of_gt hpos), unpacked_eq_finite hpos rfl rfl]

end Binary

/-! ## Natural numbers -/

namespace Binary

/-- The parts of the natural number `n · 2 ^ k`, if `n` has at most 53 digits. -/
def whole (n k : ℕ) : Binary := ⟨false, n * 2 ^ (52 - n.log2), k - (52 - n.log2 : ℕ)⟩

variable {n k : ℕ} (hpos : 0 < n) (hlt : n < 2 ^ 53)

include hpos

/-- The mantissa of a positive natural number is not zero. -/
theorem mantissa_whole_pos : 0 < (whole n k).mantissa := Nat.mul_pos hpos (Nat.two_pow_pos _)

include hlt

/-- The mantissa of a positive natural number has all its 53 digits. -/
theorem log2_mantissa_whole : (whole n k).mantissa.log2 = 52 := by
  have hlog : n.log2 < 53 := (Nat.log2_lt (Nat.ne_of_gt hpos)).mpr hlt
  rw [whole, log2_mul_two_pow hpos]
  omega

/-- The parts of a natural number that is not too large are those of a finite number. -/
theorem isCanonical_whole (hk : k ≤ 971) : (whole n k).IsCanonical := by
  have hne : (whole n k).mantissa ≠ 0 := Nat.ne_of_gt (mantissa_whole_pos hpos)
  have hlog := log2_mantissa_whole (k := k) hpos hlt
  refine ⟨(Nat.log2_lt hne).mp (by omega), ?_, ?_, .inl ((Nat.le_log2 hne).mp (by omega))⟩
  · simp only [whole]
    omega
  · simp only [whole]
    omega

/-- A natural number that has parts is exact. -/
theorem ofNat_eq_pack (hk : k ≤ 971) :
    Float.Model.ofNat (n * 2 ^ k) = .pack (whole n k).unpacked := by
  have hlog : n.log2 < 53 := (Nat.log2_lt (Nat.ne_of_gt hpos)).mpr hlt
  have hcompare : compare ((n * 2 ^ k : ℕ) : ℤ) 0 = .gt := by
    rw [Int.compare_eq_gt]
    exact Int.natCast_pos.mpr (Nat.mul_pos hpos (Nat.two_pow_pos k))
  rw [Float.Model.ofNat, UnpackedFloat.ofNat, UnpackedFloat.ofInt, UnpackedFloat.normalize,
    hcompare]
  simp only [Int.toNat_natCast, UnpackedFloat.round, decreaseExponent, targetExponent_eq,
    Nat.shiftLeft_eq]
  obtain ⟨shift, hshift⟩ : ∃ shift, shift = (0 - roundedExponent (n * 2 ^ k) 0).toNat := ⟨_, rfl⟩
  have hamount : 52 - n.log2 ≤ k + shift := by
    rw [hshift, roundedExponent, log2_mul_two_pow hpos]
    omega
  obtain ⟨j, hj⟩ := Nat.exists_eq_add_of_le hamount
  rw [← hshift, Nat.mul_assoc, ← Nat.pow_add, hj, Nat.pow_add, ← Nat.mul_assoc,
    ← (isCanonical_whole hpos hlt hk).rounded_eq (mantissa_whole_pos hpos) j]
  have hexponent : (whole n k).exponent - j = 0 - (shift : ℤ) := by
    simp only [whole]
    omega
  rw [hexponent]
  rfl

end Binary

/-! ## Products and quotients -/

namespace Binary

variable {a b : Binary}

/-- Core takes packed parts apart again. -/
theorem IsCanonical.unpack_pack (h : b.IsCanonical) :
    (Float.Model.pack b.unpacked).unpack = b.unpacked := by
  have hunpack := unpack_toModel (isFinite_packed h)
  rwa [ofFloat_packed h] at hunpack

/-- Parts that are not negative have the positive sign. -/
theorem sign_of_not_negative (h : b.negative = false) : b.sign = .positive := by
  rw [sign, h]
  rfl

/-- The product of two positive numbers is rounded once, from the exact product. -/
theorem packed_mul_packed (ha : a.IsCanonical) (hb : b.IsCanonical) (hapos : 0 < a.mantissa)
    (hbpos : 0 < b.mantissa) (hasign : a.negative = false) (hbsign : b.negative = false) :
    a.packed * b.packed = .ofModel (.pack
      (rounded .positive (a.mantissa * b.mantissa) (a.exponent + b.exponent))) := by
  have hmul : a.packed * b.packed = .ofModel (.pack (UnpackedFloat.mul .binary64
      (Float.Model.pack a.unpacked).unpack (Float.Model.pack b.unpacked).unpack)) := rfl
  rw [hmul, ha.unpack_pack, hb.unpack_pack, unpacked_eq_finite hapos rfl rfl,
    unpacked_eq_finite hbpos rfl rfl, sign_of_not_negative hasign, sign_of_not_negative hbsign]
  rfl

/-- A quotient that has parts is exact. The dividend is `b · q` and the divisor `q · 2 ^ f`, where
each may be split in any way, and the quotient is `b / 2 ^ f`. -/
theorem IsCanonical.div_eq (h : b.IsCanonical) (hpos : 0 < b.mantissa)
    (hsign : b.negative = false) {f q : ℕ} (hq : 0 < q) (hf : b.exponent = -f) {i j : ℕ}
    (hdividend : 0 < b.mantissa * q * 2 ^ i) (hdivisor : 0 < q * 2 ^ j) :
    UnpackedFloat.div .binary64 (.finite .positive (b.mantissa * q * 2 ^ i) (-i) hdividend)
      (.finite .positive (q * 2 ^ j) (f - j) hdivisor) = b.unpacked := by
  have hne : b.mantissa ≠ 0 := Nat.ne_of_gt hpos
  have hmost : b.mantissa.log2 < 53 := (Nat.log2_lt hne).mpr h.mantissa_lt
  have hlog : (b.mantissa * q).log2 ≤ b.mantissa.log2 + q.log2 + 1 := log2_mul_le hpos hq
  have hmin := h.le_exponent
  simp only [UnpackedFloat.div, divCore]
  obtain ⟨target, htarget⟩ : ∃ target, target =
      min (-(i : ℤ) - (f - j)) (Format.binary64.targetExponent
        (totalExponent (b.mantissa * q * 2 ^ i) (-i) - totalExponent (q * 2 ^ j) (f - j))) :=
    ⟨_, rfl⟩
  rw [← htarget]
  have hle : target ≤ b.exponent := by
    have hbits : (Format.binary64.mantissaBits : ℤ) = 53 := rfl
    have hleast : Format.binary64.minExponent = -1074 := rfl
    rw [htarget, Format.targetExponent, totalExponent, totalExponent, hbits, hleast,
      log2_mul_two_pow (Nat.mul_pos hpos hq), log2_mul_two_pow hq]
    omega
  obtain ⟨k, hk⟩ : ∃ k : ℕ, target = b.exponent - k := ⟨(b.exponent - target).toNat, by omega⟩
  have hshift : i + (-(i : ℤ) - (f - j) - target).toNat = j + k := by
    omega
  have hexact : (b.mantissa * q * 2 ^ i) <<< (-(i : ℤ) - (f - j) - target).toNat =
      q * 2 ^ j * (b.mantissa * 2 ^ k) := by
    rw [Nat.shiftLeft_eq, Nat.mul_assoc, ← Nat.pow_add, hshift, Nat.pow_add]
    ac_rfl
  rw [hexact, Nat.mul_div_cancel_left _ hdivisor, Nat.mul_mod_right, hk, ← h.rounded_eq hpos k,
    sign_of_not_negative hsign]
  rfl

end Binary

end Logo
