import Logo.Number.Binary
import Mathlib

/-!
# Numbers and their parts

A finite number is told from the others by its parts. The mantissa has at most 53 binary digits, and
it has fewer only at the least exponent. Any such parts are those of a number. A negation changes
the sign among them and nothing else.

Mathlib is imported as a whole, since the lemmas on core's numbers that are used here, such as the
one that says when two of them are equal, come with no file of it alone.
-/

namespace Logo

open Float.Model (Format UnpackedFloat)
open Float.Model.UnpackedFloat

/-! ## The bits of a number -/

section Bits

variable (bits : BitVec Format.binary64.numBits)

/-- The last 52 bits are those of the mantissa. -/
theorem toNat_unpackMantissa : (unpackMantissa bits).toNat = bits.toNat % 2 ^ 52 := by
  simp [unpackMantissa]

/-- The eleven bits in front of them are those of the exponent. -/
theorem toNat_unpackExponent : (unpackExponent bits).toNat = bits.toNat / 2 ^ 52 % 2 ^ 11 := by
  simp [unpackExponent, Nat.shiftRight_eq_div_pow]

/-- The first bit is the sign. -/
theorem toNat_unpackSign : (unpackSign bits).toNat = bits.toNat / 2 ^ 63 := by
  have hlt : bits.toNat < 2 ^ 64 := bits.isLt
  have hsign : bits.toNat / 2 ^ 63 < 2 := by omega
  simpa [unpackSign, Nat.shiftRight_eq_div_pow] using hsign

/-- The bits of a number are its sign, its exponent and its mantissa next to each other. -/
theorem toNat_packComponents (s : Sign) (e : BitVec 11) (m : BitVec 52) :
    (packComponents Format.binary64 s e m).toNat =
      s.toBitVec.toNat * 2 ^ 63 + e.toNat * 2 ^ 52 + m.toNat := by
  have hbits : packComponents Format.binary64 s e m = s.toBitVec ++ e ++ m := rfl
  rw [hbits, BitVec.toNat_append, BitVec.toNat_append, ← Nat.shiftLeft_add_eq_or_of_lt m.isLt,
    ← Nat.shiftLeft_add_eq_or_of_lt e.isLt, Nat.shiftLeft_eq, Nat.shiftLeft_eq]
  omega

end Bits

attribute [ext] Binary

namespace Binary

/-- Whether parts are those of a finite number. -/
structure IsCanonical (b : Binary) : Prop where
  mantissa_lt : b.mantissa < 2 ^ 53
  le_exponent : -1074 ≤ b.exponent
  exponent_le : b.exponent ≤ 971
  full : 2 ^ 52 ≤ b.mantissa ∨ b.exponent = -1074

/-- The sign among the parts. -/
def sign (b : Binary) : Sign := if b.negative then .negative else .positive

/-- The parts as core has them, where a zero has no mantissa and no exponent. -/
def unpacked (b : Binary) : UnpackedFloat :=
  if h : b.mantissa = 0 then .zero b.sign
  else .finite b.sign b.mantissa b.exponent (Nat.pos_of_ne_zero h)

/-- Without a mantissa, parts are those of a zero. -/
theorem unpacked_eq_zero {b : Binary} (h : b.mantissa = 0) : b.unpacked = .zero b.sign :=
  dif_pos h

/-- With a mantissa, parts are those of a finite number. -/
theorem unpacked_eq_finite {b : Binary} {m : ℕ} {e : ℤ} (hpos : 0 < m) (hm : m = b.mantissa)
    (he : e = b.exponent) : b.unpacked = .finite b.sign m e hpos := by
  subst hm he
  rw [unpacked, dif_neg (Nat.ne_of_gt hpos)]

/-- The number with the given parts. -/
def packed (b : Binary) : Float := .ofModel (.pack b.unpacked)

/-- How the parts of a number are read off its bits. -/
theorem ofFloat_spec (x : Float) :
    ((ofFloat x).negative = true ↔ x.toBits.toNat / 2 ^ 63 = 1) ∧
      (x.toBits.toNat / 2 ^ 52 % 2 ^ 11 = 0 ∧ (ofFloat x).mantissa = x.toBits.toNat % 2 ^ 52 ∧
          (ofFloat x).exponent = -1074 ∨
        x.toBits.toNat / 2 ^ 52 % 2 ^ 11 ≠ 0 ∧
          (ofFloat x).mantissa = x.toBits.toNat % 2 ^ 52 + 2 ^ 52 ∧
          (ofFloat x).exponent = (x.toBits.toNat / 2 ^ 52 % 2 ^ 11 : ℕ) - 1075) := by
  simp only [ofFloat, Nat.pow_eq]
  split
  · next h => exact ⟨by simp, .inl ⟨h, rfl, rfl⟩⟩
  · next h => exact ⟨by simp, .inr ⟨h, rfl, rfl⟩⟩

/-- A number is finite unless all bits of its exponent are set. -/
theorem isFinite_iff (x : Float) : x.isFinite = true ↔ x.toBits.toNat / 2 ^ 52 % 2 ^ 11 ≠ 2047 := by
  have hexponent : @unpackExponent .binary64 x.toBits.toBitVec = -1#11 ↔
      x.toBits.toNat / 2 ^ 52 % 2 ^ 11 = 2047 := by
    rw [← BitVec.toNat_inj, toNat_unpackExponent]
    rfl
  have hunpack : x.isFinite = (UnpackedFloat.unpack .binary64 x.toBits.toBitVec).isFinite := rfl
  rw [hunpack, UnpackedFloat.unpack, ne_eq, ← hexponent]
  by_cases h : @unpackExponent .binary64 x.toBits.toBitVec = -1#11
  · rw [if_pos h]
    split <;> simp [h, UnpackedFloat.isFinite]
  · rw [if_neg h]
    simp only [h, not_false_eq_true, iff_true]
    split
    · split <;> rfl
    · rfl

/-- The parts of a finite number are parts of such a number. -/
theorem isCanonical_ofFloat {x : Float} (hx : x.isFinite = true) : (ofFloat x).IsCanonical := by
  rw [isFinite_iff] at hx
  obtain ⟨_, ⟨_, hmantissa, hexponent⟩ | ⟨_, hmantissa, hexponent⟩⟩ := ofFloat_spec x
  · constructor <;> omega
  · constructor <;> omega

/-- The bits of a number are put together from its parts. -/
theorem toNat_toBits (x : Float) :
    x.toBits.toNat = (if (ofFloat x).negative then 2 ^ 63 else 0) +
      ((ofFloat x).exponent + 1074).toNat * 2 ^ 52 + (ofFloat x).mantissa := by
  have hlt : x.toBits.toNat < 2 ^ 64 := x.toBits.toNat_lt
  obtain ⟨hnegative, hparts⟩ := ofFloat_spec x
  simp only [hnegative]
  split <;> omega

/-- A number is told by its parts. -/
theorem ofFloat_injective {x y : Float} (h : ofFloat x = ofFloat y) : x = y := by
  rw [← Float.toBits_inj, ← UInt64.toNat_inj, toNat_toBits, toNat_toBits, h]

section Packed

variable {b : Binary} (h : b.IsCanonical)

include h

/-- The bits of packed parts are these parts next to each other. -/
theorem toNat_pack_unpacked :
    (UnpackedFloat.pack .binary64 b.unpacked).toNat =
      b.sign.toBitVec.toNat * 2 ^ 63 + (b.exponent + 1074).toNat * 2 ^ 52 + b.mantissa := by
  obtain ⟨hlt, hmin, hmax, hfull⟩ := h
  rw [unpacked]
  split
  · next hzero =>
    rw [UnpackedFloat.pack, packedZero, toNat_packComponents]
    simp
    omega
  · next hne =>
    have hbias : (Format.binary64.exponentBias : ℤ) = 1023 := rfl
    have hdigits : Format.binary64.mantissaBits = 53 := rfl
    simp only [UnpackedFloat.pack, hbias, hdigits]
    rw [if_neg (by omega)]
    split
    · next hlog =>
      have hle : 2 ^ 52 ≤ b.mantissa := (Nat.le_log2 hne).mp (by omega)
      rw [toNat_packComponents, BitVec.toNat_ofNat, BitVec.toNat_ofNat]
      omega
    · next hlog =>
      have hmost := (Nat.log2_lt hne).mpr hlt
      have hfew : b.mantissa < 2 ^ 52 := (Nat.log2_lt hne).mp (by omega)
      rw [toNat_packComponents, BitVec.toNat_ofNat, BitVec.toNat_ofNat]
      omega

/-- A number that is packed from parts has these parts as its bits. -/
theorem toNat_toBits_packed :
    b.packed.toBits.toNat =
      (if b.negative then 2 ^ 63 else 0) + (b.exponent + 1074).toNat * 2 ^ 52 + b.mantissa := by
  have hsign : b.sign.toBitVec.toNat * 2 ^ 63 = if b.negative then 2 ^ 63 else 0 := by
    cases hnegative : b.negative <;> simp [sign, hnegative, Sign.toBitVec]
  rw [← hsign]
  exact toNat_pack_unpacked h

/-- Packed parts are a finite number. -/
theorem isFinite_packed : b.packed.isFinite = true := by
  have hbits := toNat_toBits_packed h
  obtain ⟨hlt, hmin, hmax, hfull⟩ := h
  rw [isFinite_iff]
  split at hbits <;> omega

/-- Parts are read back from the number that they are packed to. -/
theorem ofFloat_packed : ofFloat b.packed = b := by
  have hbits := toNat_toBits_packed h
  obtain ⟨hlt, hmin, hmax, hfull⟩ := h
  obtain ⟨hnegative, hparts⟩ := ofFloat_spec b.packed
  ext1
  · rw [Bool.eq_iff_iff, hnegative]
    split at hbits
    · next hsign => simp only [hsign, iff_true]; omega
    · next hsign => simp only [hsign, Bool.false_eq_true, iff_false]; omega
  · split at hbits <;> omega
  · split at hbits <;> omega

end Packed

/-- A finite number is packed from its own parts. -/
theorem packed_ofFloat {x : Float} (hx : x.isFinite = true) : (ofFloat x).packed = x :=
  ofFloat_injective (ofFloat_packed (isCanonical_ofFloat hx))

/-- Core reads the same sign off a number. -/
theorem ofBitVec_unpackSign (x : Float) :
    Sign.ofBitVec (@unpackSign .binary64 x.toBits.toBitVec) = (ofFloat x).sign := by
  have hlt : x.toBits.toNat < 2 ^ 64 := x.toBits.toNat_lt
  have hzero : @unpackSign .binary64 x.toBits.toBitVec = 0#1 ↔
      ¬(ofFloat x).negative = true := by
    rw [← BitVec.toNat_inj, toNat_unpackSign, UInt64.toNat_toBitVec, (ofFloat_spec x).1]
    simp only [BitVec.toNat_ofNat]
    omega
  simp only [Sign.ofBitVec, sign, hzero]
  split <;> simp_all

/-- Core takes a finite number apart in the same way. -/
theorem unpack_toModel {x : Float} (hx : x.isFinite = true) :
    x.toModel.unpack = (ofFloat x).unpacked := by
  rw [isFinite_iff] at hx
  have hexponent (n : BitVec 11) : @unpackExponent .binary64 x.toBits.toBitVec = n ↔
      x.toBits.toNat / 2 ^ 52 % 2 ^ 11 = n.toNat := by
    rw [← BitVec.toNat_inj, toNat_unpackExponent]
    rfl
  have hmantissa : (@unpackMantissa .binary64 x.toBits.toBitVec).toNat =
      x.toBits.toNat % 2 ^ 52 := toNat_unpackMantissa _
  have hfinite : @unpackExponent .binary64 x.toBits.toBitVec ≠ -1#11 :=
    mt (hexponent _).mp hx
  have hunpack : x.toModel.unpack = UnpackedFloat.unpack .binary64 x.toBits.toBitVec := rfl
  rw [hunpack, UnpackedFloat.unpack, if_neg hfinite, ofBitVec_unpackSign]
  obtain ⟨_, ⟨hfield, hm, he⟩ | ⟨hfield, hm, he⟩⟩ := ofFloat_spec x
  · have hzero : @unpackExponent .binary64 x.toBits.toBitVec = 0#11 :=
      (hexponent _).mpr hfield
    rw [if_pos hzero]
    split
    · next hnone =>
      have hm0 : (ofFloat x).mantissa = 0 := by rw [hm, ← hmantissa, hnone]; rfl
      rw [unpacked_eq_zero hm0]
    · next hsome =>
      refine (unpacked_eq_finite _ (hmantissa.trans hm.symm) ?_).symm
      rw [hzero, he]
      rfl
  · have hnonzero : @unpackExponent .binary64 x.toBits.toBitVec ≠ 0#11 :=
      mt (hexponent _).mp hfield
    rw [if_neg hnonzero]
    refine (unpacked_eq_finite _ ?_ ?_).symm
    · rw [hm, ← hmantissa, BitVec.toNat_append, ← Nat.shiftLeft_add_eq_or_of_lt (BitVec.isLt _),
        Nat.add_comm]
      rfl
    · rw [he, toNat_unpackExponent, UInt64.toNat_toBitVec]
      rfl

/-! ## Signs -/

/-- The parts with the other sign. -/
def opposite (b : Binary) : Binary := { b with negative := !b.negative }

/-- Core negates a number by its sign alone. -/
theorem unpacked_opposite (b : Binary) : b.opposite.unpacked = b.unpacked.neg := by
  have hsign : b.opposite.sign = -b.sign := by
    cases hnegative : b.negative <;> simp [opposite, sign, hnegative] <;> rfl
  by_cases hzero : b.mantissa = 0
  · rw [unpacked_eq_zero hzero, unpacked_eq_zero (b := b.opposite) hzero, hsign, UnpackedFloat.neg]
  · have hpos := Nat.pos_of_ne_zero hzero
    rw [unpacked_eq_finite hpos rfl rfl, unpacked_eq_finite (b := b.opposite) hpos rfl rfl, hsign]
    rfl

/-- Parts with the other sign are parts of a finite number too. -/
theorem IsCanonical.opposite {b : Binary} (h : b.IsCanonical) : b.opposite.IsCanonical :=
  ⟨h.mantissa_lt, h.le_exponent, h.exponent_le, h.full⟩

section Negation

variable {x : Float} (hx : x.isFinite = true)

include hx

/-- The negation of a finite number is packed from its parts with the other sign. -/
theorem neg_eq_packed : -x = (ofFloat x).opposite.packed := by
  have hneg : -x = .ofModel (.pack x.toModel.unpack.neg) := rfl
  rw [hneg, unpack_toModel hx, ← unpacked_opposite, packed]

/-- The negation of a finite number is finite. -/
theorem isFinite_neg : (-x).isFinite = true := by
  rw [neg_eq_packed hx]
  exact isFinite_packed (isCanonical_ofFloat hx).opposite

/-- The parts of a negation are those of the number, with the other sign. -/
theorem ofFloat_neg : ofFloat (-x) = (ofFloat x).opposite := by
  rw [neg_eq_packed hx, ofFloat_packed (isCanonical_ofFloat hx).opposite]

/-- A finite number that is negated twice is the same again. -/
theorem neg_neg_eq : -(-x) = x := by
  apply ofFloat_injective
  rw [ofFloat_neg (isFinite_neg hx), ofFloat_neg hx]
  simp [opposite]

end Negation

/-! ## Zero -/

/-- The parts of zero. -/
theorem ofFloat_zero : ofFloat 0.0 = ⟨false, 0, -1074⟩ := by decide

/-- A number that is equal to zero has no mantissa. -/
theorem mantissa_eq_zero_of_beq {x : Float} (h : (x == 0.0) = true) : (ofFloat x).mantissa = 0 := by
  obtain ⟨_, _, rfl | ⟨rfl, _⟩ | ⟨rfl, _⟩⟩ := Float.beq_iff_ne_nan_and_eq.mp h
  · rw [ofFloat_zero]
  · decide
  · decide

/-- There is one zero of each sign. -/
theorem eq_zero_of_mantissa_eq_zero {x : Float} (hx : x.isFinite = true)
    (hnegative : (ofFloat x).negative = false) (h : (ofFloat x).mantissa = 0) : x = 0.0 := by
  have hexponent : (ofFloat x).exponent = -1074 :=
    (isCanonical_ofFloat hx).full.resolve_left (by omega)
  apply ofFloat_injective
  rw [ofFloat_zero]
  exact Binary.ext hnegative h hexponent

end Binary

/-- A number is equal to itself unless it is NaN. -/
theorem Number.beq_self_iff (x : Float) : (x == x) = true ↔ ¬x.isNaN = true := by
  rw [Float.beq_self_iff, Float.isNaN_eq_decide_eq_nan, decide_eq_true_eq]

end Logo
