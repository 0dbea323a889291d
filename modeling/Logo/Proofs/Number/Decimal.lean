import Logo.Proofs.Number.Rounding

/-!
# Decimal numerals as numbers

A numeral with a power of ten that is not negative is rounded like the natural number that it is.
The exact numeral of a number is read as this number. Core has a shorter way for small digits and
powers of ten, which gives the same.
-/

namespace Logo

open Float.Model (Format UnpackedFloat)
open Float.Model.UnpackedFloat Binary

/-- The number nearest to a natural number. -/
def nearest (n : ℕ) : Float := .ofModel (.pack (rounded .positive (n * 2 ^ 53) (-53)))

/-- The powers of ten that core has at hand are exact. -/
theorem getElem_powersOfTen (e : Fin 23) :
    Float.exactlyRepresentablePowersOfTen[e] = (whole (5 ^ e.val) e).packed := by
  revert e
  decide +kernel

/-- A natural number that has a place in the mantissa is a number. -/
theorem ofModel_ofNat {n : ℕ} (hpos : 0 < n) (hlt : n < 2 ^ 53) :
    Float.ofModel (.ofNat n) = (whole n 0).packed := by
  have hexact := ofNat_eq_pack hpos hlt (Nat.zero_le 971)
  rw [Nat.pow_zero, Nat.mul_one] at hexact
  rw [hexact, packed]

/-- A positive word below `2 ^ 53` is exact as a number. -/
theorem toFloat_toUInt64 {n : ℕ} (hpos : 0 < n) (hlt : n < 2 ^ 53) :
    n.toUInt64.toFloat = (whole n 0).packed := by
  have hnat : n.toUInt64.toNat = n := by
    simp
    omega
  have hfloat : n.toUInt64.toFloat = .ofModel (.ofNat n.toUInt64.toNat) := rfl
  rw [hfloat, hnat, ofModel_ofNat hpos hlt]

/-- Powers of five are exact up to the twenty-second. -/
theorem five_pow_lt {e : ℕ} (he : e ≤ 22) : 5 ^ e < 2 ^ 53 := by
  calc 5 ^ e ≤ 5 ^ 22 := Nat.pow_le_pow_right (by decide) he
    _ < 2 ^ 53 := by decide

/-- A numeral without digits behind the point is rounded once, from its exact value. -/
theorem ofScientific_of_nonneg {n e : ℕ} (hpos : 0 < n) (he : e ≤ 2048) :
    Float.ofModel (Float.Model.ofScientific n (Int.ofNat e)) = nearest (n * 10 ^ e) := by
  have hmax : ¬(Int.ofNat e > 2 ^ Format.binary64.exponentBits) := by
    simp
    omega
  have hmin : ¬(Int.ofNat e < -((2 ^ Format.binary64.exponentBits : ℤ) + n.log2)) := by
    simp
    omega
  have hnonneg : 0 ≤ Int.ofNat e := Int.natCast_nonneg e
  have hscale : n <<< Format.binary64.mantissaBits * 10 ^ e = n * 10 ^ e * 2 ^ 53 := by
    rw [Nat.shiftLeft_eq]
    exact Nat.mul_right_comm ..
  rw [Float.Model.ofScientific, UnpackedFloat.ofScientific, dif_neg (Nat.ne_of_gt hpos),
    if_neg hmax, if_neg hmin, if_pos hnonneg, nearest, ← hscale]
  rfl

/-- The shorter way for a product. -/
theorem packed_mul_powerOfTen {n e : ℕ} (hpos : 0 < n) (hlt : n < 2 ^ 53) (he : e ≤ 22) :
    (whole n 0).packed * (whole (5 ^ e) e).packed = nearest (n * 10 ^ e) := by
  have hfive : 0 < 5 ^ e := Nat.pow_pos (by decide)
  have hfiveLt := five_pow_lt he
  have hlog : n.log2 < 53 := (Nat.log2_lt (Nat.ne_of_gt hpos)).mpr hlt
  have hfiveLog : (5 ^ e).log2 < 53 := (Nat.log2_lt (Nat.ne_of_gt hfive)).mpr hfiveLt
  have hproduct := le_log2_mul hpos hfive
  rw [packed_mul_packed (isCanonical_whole hpos hlt (by omega))
    (isCanonical_whole hfive hfiveLt (by omega)) (mantissa_whole_pos hpos)
    (mantissa_whole_pos hfive) rfl rfl, nearest]
  -- Both are `n · 5 ^ e · 2 ^ e`, with some powers of two moved to the mantissa.
  obtain ⟨j, hj⟩ : ∃ j, j = 52 - n.log2 + (52 - (5 ^ e).log2) := ⟨_, rfl⟩
  have hmantissa : (whole n 0).mantissa * (whole (5 ^ e) e).mantissa = n * 5 ^ e * 2 ^ j := by
    simp only [whole, hj, pow_add]
    ac_rfl
  have hexponent : (whole n 0).exponent + (whole (5 ^ e) e).exponent = e - j := by
    simp only [whole]
    omega
  have hten : n * 10 ^ e * 2 ^ 53 = n * 5 ^ e * 2 ^ (e + 53) := by
    have hpow : 10 ^ e = 5 ^ e * 2 ^ e := Nat.mul_pow 5 2 e
    rw [hpow, pow_add]
    ac_rfl
  have hleast : (-53 : ℤ) = e - (e + 53 : ℕ) := by omega
  rw [hmantissa, hexponent, hten, hleast, rounded_congr .positive (Nat.mul_pos hpos hfive)]
  · rw [roundedExponent]
    omega
  · rw [roundedExponent]
    omega

/-- A numeral is rounded like the natural number that it is. -/
theorem ofScientific_eq_nearest {n e : ℕ} (hpos : 0 < n) (he : e ≤ 2048) :
    Float.ofScientific n false e = nearest (n * 10 ^ e) := by
  rw [Float.ofScientific]
  split
  · next hshort =>
    simp only [Bool.false_eq_true, ↓reduceIte]
    rw [toFloat_toUInt64 hpos hshort.1, ← packed_mul_powerOfTen hpos hshort.1 hshort.2]
    congr 1
    exact getElem_powersOfTen ⟨e, by omega⟩
  · exact ofScientific_of_nonneg hpos he

/-- A numeral of zeros is zero. -/
theorem ofScientific_zero (e : ℕ) : Float.ofScientific 0 false e = 0.0 := by
  have hshort : ∀ e : Fin 23, Float.ofScientific 0 false e = 0.0 := by decide +kernel
  by_cases he : e ≤ 22
  · exact hshort ⟨e, by omega⟩
  · have hzero : (0.0 : Float) = .ofModel (.pack (.zero .positive)) := by decide
    rw [Float.ofScientific, dif_neg (by omega), hzero]
    rfl

/-- A positive natural number below `2 ^ 53` is nearest to itself. -/
theorem nearest_of_lt {n : ℕ} (hpos : 0 < n) (hlt : n < 2 ^ 53) :
    nearest n = (whole n 0).packed := by
  have hlog : n.log2 < 53 := (Nat.log2_lt (Nat.ne_of_gt hpos)).mpr hlt
  have hmantissa : n * 2 ^ 53 = (whole n 0).mantissa * 2 ^ (n.log2 + 1) := by
    simp only [whole]
    rw [Nat.mul_assoc, ← Nat.pow_add]
    congr 2
    omega
  have hexponent : (-53 : ℤ) = (whole n 0).exponent - (n.log2 + 1 : ℕ) := by
    simp only [whole]
    omega
  have hrounded := (isCanonical_whole hpos hlt (Nat.zero_le 971)).rounded_eq
    (mantissa_whole_pos hpos) (n.log2 + 1)
  rw [nearest, hmantissa, hexponent, packed, ← hrounded]
  rfl

/-- A positive natural number below `2 ^ 53` is exact as a number. -/
theorem ofNat_eq_packed {n : ℕ} (hpos : 0 < n) (hlt : n < 2 ^ 53) :
    Float.ofNat n = (whole n 0).packed := by
  have hread : Float.ofNat n = Float.ofScientific n false 0 := rfl
  rw [hread, ofScientific_eq_nearest hpos (Nat.zero_le _), Nat.pow_zero, Nat.mul_one,
    nearest_of_lt hpos hlt]

/-- Both ways to make a number of a natural one give the same. -/
theorem ofNat_eq_ofModel {n : ℕ} (hlt : n < 2 ^ 53) : Float.ofNat n = .ofModel (.ofNat n) := by
  rcases Nat.eq_zero_or_pos n with rfl | hpos
  · decide
  · rw [ofNat_eq_packed hpos hlt, ofModel_ofNat hpos hlt]

section Exact

variable {b : Binary} (h : b.IsCanonical) (hpos : 0 < b.mantissa) (hsign : b.negative = false)
  {f : ℕ} (hf : b.exponent = -f)

include h hpos hsign hf

/-- The shorter way for a quotient. -/
theorem packed_div_powerOfTen (hlt : b.mantissa * 5 ^ f < 2 ^ 53) (hle : f ≤ 22) :
    (whole (b.mantissa * 5 ^ f) 0).packed / (whole (5 ^ f) f).packed = b.packed := by
  have hfive : 0 < 5 ^ f := Nat.pow_pos (by decide)
  have hdigits : 0 < b.mantissa * 5 ^ f := Nat.mul_pos hpos hfive
  have hfiveLt := five_pow_lt hle
  have hdividend : (whole (b.mantissa * 5 ^ f) 0).IsCanonical :=
    isCanonical_whole hdigits hlt (by decide)
  have hdivisor : (whole (5 ^ f) f).IsCanonical := isCanonical_whole hfive hfiveLt (by omega)
  have hdividendPos : 0 < (whole (b.mantissa * 5 ^ f) 0).mantissa := mantissa_whole_pos hdigits
  have hdivisorPos : 0 < (whole (5 ^ f) f).mantissa := mantissa_whole_pos hfive
  have hdiv : (whole (b.mantissa * 5 ^ f) 0).packed / (whole (5 ^ f) f).packed =
      .ofModel (.pack (UnpackedFloat.div .binary64
        (Float.Model.pack (whole (b.mantissa * 5 ^ f) 0).unpacked).unpack
        (Float.Model.pack (whole (5 ^ f) f).unpacked).unpack)) := rfl
  have hexponent : -((52 - (b.mantissa * 5 ^ f).log2 : ℕ) : ℤ) =
      (whole (b.mantissa * 5 ^ f) 0).exponent := by
    simp only [whole]
    omega
  rw [hdiv, hdividend.unpack_pack, hdivisor.unpack_pack, packed,
    ← h.div_eq hpos hsign hfive hf hdividendPos hdivisorPos,
    unpacked_eq_finite hdividendPos rfl hexponent, unpacked_eq_finite hdivisorPos rfl rfl]
  rfl

/-- A numeral that is the exact value of a number is read as this number. -/
theorem ofScientific_of_neg (hfpos : 0 < f) :
    Float.ofModel (Float.Model.ofScientific (b.mantissa * 5 ^ f) (Int.negOfNat f)) = b.packed := by
  have hleast := h.le_exponent
  have hfive : 0 < 5 ^ f := Nat.pow_pos (by decide)
  have hdigits : 0 < b.mantissa * 5 ^ f := Nat.mul_pos hpos hfive
  have hneg : Int.negOfNat f = -(f : ℤ) := Int.negOfNat_eq
  have hten : 10 ^ f = 5 ^ f * 2 ^ f := Nat.mul_pow 5 2 f
  have hmax : ¬(-(f : ℤ) > 2 ^ Format.binary64.exponentBits) := by
    simp
  have hmin : ¬(-(f : ℤ) <
      -((2 ^ Format.binary64.exponentBits : ℤ) + (b.mantissa * 5 ^ f).log2)) := by
    simp
    omega
  rw [hneg, Float.Model.ofScientific, UnpackedFloat.ofScientific, dif_neg (Nat.ne_of_gt hdigits),
    if_neg hmax, if_neg hmin, if_neg (by omega), packed]
  have hdividendPos : 0 < b.mantissa * 5 ^ f * 2 ^ 0 := by simpa using hdigits
  have hdivisorPos : 0 < 5 ^ f * 2 ^ f := Nat.mul_pos hfive (Nat.two_pow_pos f)
  rw [← h.div_eq hpos hsign hfive hf hdividendPos hdivisorPos]
  congr 3
  · simp
  · simp only [hten, Int.neg_neg, Int.toNat_natCast, Int.sub_self]

/-- The exact numeral of a number is read as this number, if it has digits behind the point. -/
theorem ofScientific_eq_packed (hfpos : 0 < f) :
    Float.ofScientific (b.mantissa * 5 ^ f) true f = b.packed := by
  rw [Float.ofScientific]
  split
  · next hshort =>
    have hdigits : 0 < b.mantissa * 5 ^ f := Nat.mul_pos hpos (Nat.pow_pos (by decide))
    simp only [↓reduceIte]
    rw [toFloat_toUInt64 hdigits hshort.1,
      ← packed_div_powerOfTen h hpos hsign hf hshort.1 hshort.2]
    congr 1
    exact getElem_powersOfTen ⟨f, by omega⟩
  · exact ofScientific_of_neg h hpos hsign hf hfpos

end Exact

/-- A numeral does not change if its power of ten is written out. -/
theorem Decimal.toFloat_written_out (n : ℕ) {e : ℕ} (he : e ≤ 2048) :
    (⟨n * 10 ^ e, 0⟩ : Decimal).toFloat = (⟨n, e⟩ : Decimal).toFloat := by
  have hleft : (⟨n * 10 ^ e, 0⟩ : Decimal).toFloat = Float.ofScientific (n * 10 ^ e) false 0 := rfl
  have hright : (⟨n, e⟩ : Decimal).toFloat = Float.ofScientific n false e := rfl
  rw [hleft, hright]
  rcases Nat.eq_zero_or_pos n with rfl | hpos
  · rw [Nat.zero_mul, ofScientific_zero, ofScientific_zero]
  · rw [ofScientific_eq_nearest (Nat.mul_pos hpos (Nat.pow_pos (by decide))) (by decide),
      ofScientific_eq_nearest hpos he, Nat.pow_zero, Nat.mul_one]

/-- The exact numeral of a number is read as this number. -/
theorem Binary.toFloat_toDecimal {b : Binary} (h : b.IsCanonical) (hpos : 0 < b.mantissa)
    (hsign : b.negative = false) : b.toDecimal.toFloat = b.packed := by
  cases hexponent : b.exponent with
  | ofNat e =>
    have hdecimal : b.toDecimal.toFloat = Float.ofScientific (b.mantissa * 2 ^ e) false 0 := by
      rw [toDecimal, hexponent]
      rfl
    have hmantissa : b.mantissa * 2 ^ e * 10 ^ 0 * 2 ^ 53 = b.mantissa * 2 ^ (e + 53) := by
      rw [Nat.pow_zero, Nat.mul_one, Nat.mul_assoc, ← Nat.pow_add]
    have hleast : (-53 : ℤ) = b.exponent - (e + 53 : ℕ) := by
      rw [hexponent, Int.ofNat_eq_natCast]
      omega
    rw [hdecimal, ofScientific_eq_nearest (Nat.mul_pos hpos (Nat.two_pow_pos e)) (by decide),
      nearest, hmantissa, hleast, ← sign_of_not_negative hsign, h.rounded_eq hpos, packed]
  | negSucc e =>
    have hdecimal :
        b.toDecimal.toFloat = Float.ofScientific (b.mantissa * 5 ^ (e + 1)) true (e + 1) := by
      rw [toDecimal, hexponent]
      rfl
    have hplaces : b.exponent = -(e + 1 : ℕ) := hexponent
    rw [hdecimal, ofScientific_eq_packed h hpos hsign hplaces (Nat.succ_pos e)]

end Logo
