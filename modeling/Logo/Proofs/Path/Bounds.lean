import Logo.Path.Resolve
import Logo.Proofs.Number.Decimal
import Logo.Proofs.Path.Room

/-!
# Bounds of indexes

A number that is above the limit is no index. The test compares the number as it was evaluated, and
the index is the whole part of it. Since the limit is a number without rounding, the whole part of a
number that is not above the limit is not above it either. So each index of a path that has been
read is one that an array can be made long enough for.
-/

namespace Logo

open Float.Model (UnpackedFloat)
open Float.Model.UnpackedFloat

/-! ## The whole part of a number -/

namespace Binary

/-- Digits that are shifted out are divided off. -/
theorem mantissa_shiftRight (a : ExtendedMantissa) (k : ℕ) :
    (a >>> k).mantissa = a.mantissa / 2 ^ k := by
  induction k with
  | zero => exact (Nat.div_one a.mantissa).symm
  | succ k ih =>
    have hstep : (a >>> (k + 1)).mantissa = (a >>> k).mantissa / 2 := rfl
    rw [hstep, ih, Nat.div_div_eq_div_mul, Nat.pow_succ]

/-- The whole part of a positive number is its mantissa with the digits behind the point divided
off. -/
theorem roundToInt_positive (m k : ℕ) : roundToInt .positive m (-k) = (m / 2 ^ k : ℕ) := by
  have hdecrease : decreaseExponent m (-k) 0 = (m, -(k : ℤ)) := by simp [decreaseExponent]
  have hshift : (0 - -(k : ℤ)).toNat = k := by omega
  simp only [roundToInt, hdecrease, shiftToExponent, hshift, mantissa_shiftRight]
  rfl

/-- A number that is made a word is at most its whole part. -/
theorem toNat_toUInt64_le (x : Float) :
    x.toUInt64.toNat ≤ (x.toModel.unpack.toInt 0 (UInt64.size - 1)).toNat := by
  have hclamp : x.toUInt64 =
      UInt64.ofNatClamp (x.toModel.unpack.toInt 0 (UInt64.size - 1)).toNat := rfl
  rw [hclamp, UInt64.ofNatClamp]
  split
  · exact Nat.le_of_eq UInt64.toNat_ofNatLT
  · next hge =>
    rw [UInt64.toNat_ofNatLT]
    omega

/-- Numbers are compared as core compares them when they are taken apart. -/
theorem lt_iff_compare (x y : Float) :
    x < y ↔ x.toModel.unpack.compare y.toModel.unpack = some .lt := by
  have hlt : x < y ↔ x.toModel.unpack.lt y.toModel.unpack = true := decide_eq_true_iff
  rw [hlt, UnpackedFloat.lt, beq_iff_eq]

variable {n : ℕ} (hpos : 0 < n) (hlt : n < 2 ^ 53)

include hpos

/-- A positive natural number is taken apart into its mantissa and its exponent. -/
theorem unpacked_whole : (whole n 0).unpacked =
    .finite .positive (whole n 0).mantissa (whole n 0).exponent (mantissa_whole_pos hpos) :=
  unpacked_eq_finite (mantissa_whole_pos hpos) rfl rfl

include hlt

/-- Parts that are not above those of a natural number have no larger whole part. -/
theorem mantissa_div_le {b : Binary} (hb : b.IsCanonical) {k : ℕ}
    (he : b.exponent = -k) (hle : b.exponent < (whole n 0).exponent ∨
      b.exponent = (whole n 0).exponent ∧ b.mantissa ≤ (whole n 0).mantissa) :
    b.mantissa / 2 ^ k ≤ n := by
  have hlog : n.log2 < 53 := (Nat.log2_lt (Nat.ne_of_gt hpos)).mpr hlt
  have hdigits : 2 ^ n.log2 ≤ n := Nat.log2_self_le (Nat.ne_of_gt hpos)
  have hmost := hb.mantissa_lt
  simp only [whole] at hle
  rcases hle with hless | ⟨hsame, hmantissa⟩
  · -- At a smaller exponent, all digits of the mantissa are not enough.
    have hk : 53 - n.log2 ≤ k := by omega
    have hpow : 2 ^ 53 = 2 ^ n.log2 * 2 ^ (53 - n.log2) := by
      rw [← Nat.pow_add]
      congr 1
      omega
    calc b.mantissa / 2 ^ k ≤ b.mantissa / 2 ^ (53 - n.log2) :=
          Nat.div_le_div_left (Nat.pow_le_pow_right (by decide) hk) (Nat.two_pow_pos _)
      _ ≤ 2 ^ 53 / 2 ^ (53 - n.log2) := Nat.div_le_div_right (Nat.le_of_lt hmost)
      _ = 2 ^ n.log2 := by rw [hpow, Nat.mul_div_cancel _ (Nat.two_pow_pos _)]
      _ ≤ n := hdigits
  · have hk : k = 52 - n.log2 := by omega
    calc b.mantissa / 2 ^ k ≤ n * 2 ^ k / 2 ^ k := Nat.div_le_div_right (by rwa [hk])
      _ = n := Nat.mul_div_cancel _ (Nat.two_pow_pos k)

/-- Parts that are not above those of a natural number have a whole part of at most this number. -/
theorem toInt_unpacked_le {b : Binary} (hb : b.IsCanonical)
    (hle : (whole n 0).unpacked.compare b.unpacked ≠ some .lt) (low high : ℤ) :
    (b.unpacked.toInt low high).toNat ≤ n := by
  by_cases hzero : b.mantissa = 0
  · rw [unpacked_eq_zero hzero]
    exact Nat.zero_le n
  rw [unpacked_whole hpos, unpacked_eq_finite (Nat.pos_of_ne_zero hzero) rfl rfl] at hle
  rw [unpacked_eq_finite (Nat.pos_of_ne_zero hzero) rfl rfl, toInt]
  cases hsign : b.sign with
  | negative => simp [roundToInt, Sign.apply]
  | positive =>
    -- Parts are compared by their exponents first, and then by their mantissas.
    rw [hsign, UnpackedFloat.compare] at hle
    simp only [ne_eq, Option.some.injEq, Ordering.then_eq_lt, Int.compare_eq_lt, Int.compare_eq_eq,
      Nat.compare_eq_lt] at hle
    have hexponent : (whole n 0).exponent ≤ 0 := by
      simp only [whole]
      omega
    have he : b.exponent = -(-b.exponent).toNat := by omega
    have hdiv := mantissa_div_le hpos hlt hb he (by omega)
    rw [he, roundToInt_positive]
    omega

/-- The whole part of a number that is not above a natural number is not above it. -/
theorem toNat_toUInt64_le_of_not_lt {x : Float} (hx : ¬(whole n 0).packed < x) :
    x.toUInt64.toNat ≤ n := by
  have hcanonical : (whole n 0).IsCanonical := isCanonical_whole hpos hlt (by decide)
  have hlimit : (whole n 0).packed.toModel.unpack = (whole n 0).unpacked := hcanonical.unpack_pack
  refine (toNat_toUInt64_le x).trans ?_
  rw [lt_iff_compare, hlimit] at hx
  by_cases hfinite : x.isFinite = true
  · rw [unpack_toModel hfinite] at hx ⊢
    exact toInt_unpacked_le hpos hlt (isCanonical_ofFloat hfinite) hx _ _
  · have hunpack : x.isFinite = x.toModel.unpack.isFinite := rfl
    rw [hunpack] at hfinite
    cases hmodel : x.toModel.unpack with
    | notANumber => exact Nat.zero_le n
    | zero | finite =>
      rw [hmodel] at hfinite
      exact absurd rfl hfinite
    | infinity s =>
      cases s with
      | negative => exact Nat.zero_le n
      | positive =>
        rw [hmodel, unpacked_whole hpos] at hx
        exact absurd rfl hx

end Binary

/-! ## The accessors of a path -/

/-- The limit of indexes is exact as a number. -/
theorem ofNat_maxIndex : Float.ofNat maxIndex = (Binary.whole maxIndex 0).packed :=
  ofNat_eq_packed (by decide) (by decide)

namespace Path

variable {path : String} {x : Accessor}

/-- An index that a value stands for is within the limit. -/
theorem inBounds_of_indexAccessor {v : Value} (h : indexAccessor path v = .ok x) : x.InBounds := by
  cases v with
  | number number =>
    rw [indexAccessor] at h
    split at h
    · cases h
    · next hlimit =>
      rw [gt_iff_lt, ofNat_maxIndex] at hlimit
      have hle := Binary.toNat_toUInt64_le_of_not_lt (by decide) (by decide) hlimit
      cases hnat : Number.toNat? number with
      | none => simp [hnat] at h
      | some i =>
        simp only [hnat, Except.ok.injEq] at h
        simp only [Number.toNat?, Option.ite_none_right_eq_some, Option.some.injEq] at hnat
        rw [← h, ← hnat.2]
        exact hle
  | array | object | code =>
    rw [indexAccessor] at h
    · split at h
      · cases h
        trivial
      · cases h
    · simp

/-- An accessor that a part of a path is read as is within the limit. -/
theorem Part.inBounds_of_resolve {evaluate : String → Eval Value} {part : Part}
    (h : part.resolve path evaluate = pure x) : x.InBounds := by
  cases part with
  | field name =>
    rw [Part.resolve, Eval.pure_inj] at h
    subst h
    trivial
  | index expression =>
    rw [Part.resolve] at h
    obtain ⟨v, _, haccessor⟩ := Eval.bind_eq_pure_iff.mp h
    exact inBounds_of_indexAccessor (Eval.liftM_eq_pure_iff.mp haccessor)
  | flawed flaw => cases h

/-- Each index of a path that has been read is in bounds. -/
theorem inBounds_of_resolve {find? : String → Option Value} {evaluate : String → Eval Value}
    {resolved : Path} (h : resolve find? evaluate path = pure resolved) :
    ∀ x ∈ resolved.accessors, x.InBounds := by
  rw [resolve] at h
  obtain ⟨expanded, _, h⟩ := Eval.bind_eq_pure_iff.mp h
  dsimp only at h
  split at h
  · obtain ⟨accessors, haccessors, h⟩ := Eval.bind_eq_pure_iff.mp h
    rw [Eval.pure_inj] at h
    rw [← h]
    exact Eval.forall_mem_of_mapM_eq_pure (fun _ _ _ => Part.inBounds_of_resolve) haccessors
  · cases h

end Path

end Logo
