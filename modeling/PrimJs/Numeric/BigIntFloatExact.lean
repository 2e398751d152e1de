import PrimJs.Numeric.BigIntMantissa

/-! Conversions between `BigInt` and double lose nothing that a double can hold. -/

namespace PrimJs.BigInt

open Limbs Allocating Binary64

variable {w : Nat} {limbBits : LimbBits}

section Rounding

/-- Adding half a unit less one, and one more for an odd quotient, rounds to even. -/
theorem addend_rounds (n : Nat) {h : Nat} (positive : 0 < h) :
    Rounds n (2 * h) ((n + (n / (2 * h) % 2 + (h - 1))) / (2 * h)) := by
  have split_ : 2 * h * (n / (2 * h)) + n % (2 * h) = n := Nat.div_add_mod n (2 * h)
  have bound := Nat.mod_lt n (show 0 < 2 * h by omega)
  generalize n / (2 * h) = q at *
  generalize n % (2 * h) = r at *
  rw [rounds_iff]
  have value (k p : Nat) (same : n + (q % 2 + (h - 1)) = 2 * h * p + k) (small : k < 2 * h) :
      (n + (q % 2 + (h - 1))) / (2 * h) = p := by
    rw [same, Nat.mul_add_div (by omega), Nat.div_eq_of_lt small, Nat.add_zero]
  have place (p : Nat) : 2 * p * (2 * h) = 2 * (2 * h * p) := by ring
  have next : 2 * h * (q + 1) = 2 * h * q + 2 * h := Nat.mul_succ _ _
  by_cases down : r + q % 2 + h < 2 * h + 1
  · rw [value (r + (q % 2 + (h - 1))) q (by omega) (by omega), place]
    exact ⟨by omega, by omega, fun tie => Nat.even_iff.mpr (by omega)⟩
  · rw [value (r + (q % 2 + (h - 1)) - 2 * h) (q + 1) (by omega) (by omega), place, next]
    exact ⟨by omega, by omega, fun tie => Nat.even_iff.mpr (by omega)⟩

theorem shrRndn_rounds {a : BitVec 64} {n : Nat} (some_ : 0 < n)
    (room : a.toNat + 2^n ≤ 2^64) : Rounds a.toNat (2^n) (shrRndn a n).toNat := by
  obtain ⟨k, rfl⟩ : ∃ k, n = k + 1 := ⟨n - 1, by omega⟩
  have pos := Nat.two_pow_pos k
  have double : 2^(k + 1) = 2 * 2^k := by rw [Nat.pow_succ, Nat.mul_comm]
  have bit : (a >>> (k + 1) &&& 1#64).toNat = a.toNat / (2 * 2^k) % 2 := by
    rw [BitVec.toNat_and, BitVec.toNat_ushiftRight, Nat.shiftRight_eq_div_pow, double]
    exact Nat.and_one_is_mod _
  have half : (1#64 <<< k - 1#64).toNat = 2^k - 1 := by
    rw [BitVec.toNat_sub, BitVec.toNat_shiftLeft, Nat.shiftLeft_eq]
    simp only [BitVec.toNat_ofNat, Nat.reducePow, Nat.reduceMod, Nat.one_mul]
    omega
  have small := Nat.mod_lt (a.toNat / (2 * 2^k)) (show 0 < 2 by decide)
  have value : (shrRndn a (k + 1)).toNat
      = (a.toNat + (a.toNat / (2 * 2^k) % 2 + (2^k - 1))) / (2 * 2^k) := by
    rw [shrRndn, Nat.add_sub_cancel, BitVec.toNat_ushiftRight, Nat.shiftRight_eq_div_pow, double,
      BitVec.toNat_add, BitVec.toNat_add, bit, half]
    congr 1
    omega
  rw [value, double]
  exact addend_rounds a.toNat pos

/-- The rounded mantissa and the exponent make the nearest pattern. -/
theorem roundMantissa_spec {x e : Nat} {mant : BitVec 64} (low : 2^e ≤ x) (high : x < 2^(e + 1))
    (jam : Jammed (x * 2^63) (2^e) mant.toNat) :
    ∃ m, ∃ e' : Nat, roundMantissa mant (e : Int) = (m, (e' : Int)) ∧ m.toNat < 2^52
      ∧ NearestEven (x * one) ((e' + 1023) * 2^52 + m.toNat) := by
  by_cases large : 1023 < e
  · refine ⟨0#64, 1024, ?_, by decide, ?_⟩
    · rw [roundMantissa, if_pos (by exact_mod_cast large)]
      rfl
    · exact nearestEven_large low large
  · rw [roundMantissa, if_neg (by exact_mod_cast large)]
    dsimp only
    have half : (mant >>> 1 ||| mant &&& 1#64).toNat
        = mant.toNat / 2 ||| (decide (mant.toNat % 2 ≠ 0)).toNat := by
      have last : (mant &&& 1#64).toNat = (decide (mant.toNat % 2 ≠ 0)).toNat := by
        rw [BitVec.toNat_and, show (1#64).toNat = 1 from rfl, Nat.and_one_is_mod]
        rcases Nat.mod_two_eq_zero_or_one mant.toNat with even | odd
        · simp [even]
        · simp [odd]
      rw [BitVec.toNat_or, BitVec.toNat_ushiftRight, Nat.shiftRight_eq_div_pow, last, Nat.pow_one]
    have jam' := jam.trans (Nat.two_pow_pos e) even_two (half ▸ jammed_div mant.toNat two_pos)
    have bound : (mant >>> 1 ||| mant &&& 1#64).toNat < 2^63 := by
      rw [half]
      have word := mant.isLt
      exact Nat.or_lt_two_pow (by omega) (lt_of_le_of_lt (Bool.toNat_le _) (by decide))
    generalize (mant >>> 1 ||| mant &&& 1#64) = jammed at jam' bound ⊢
    have rounds := shrRndn_rounds (n := 10) (by decide) (show jammed.toNat + 2^10 ≤ 2^64 by omega)
    have exact_ : Rounds (x * 2^63) (2^11 * 2^e) (shrRndn jammed 10).toNat := by
      have scaled := Rounds.of_jammed (c := 256) (by positivity) jam' rounds
      rwa [← Nat.mul_assoc] at scaled
    obtain ⟨atLeast, atMost, nearest⟩ := nearestEven_at low high (by omega) (rounds_units exact_)
    generalize shrRndn jammed 10 = q at atLeast atMost nearest ⊢
    have mask (y : BitVec 64) : (y &&& (1#64 <<< 52 - 1#64)).toNat = y.toNat % 2^52 := by
      rw [BitVec.toNat_and]
      exact Nat.and_two_pow_sub_one_eq_mod _ 52
    have carry : 1#64 <<< 53 ≤ q ↔ 2^53 ≤ q.toNat := by
      rw [BitVec.le_def]
      exact Iff.rfl
    by_cases full : 2^53 ≤ q.toNat
    · have whole : q.toNat = 2^53 := by omega
      refine ⟨(q >>> 1) &&& (1#64 <<< 52 - 1#64), e + 1, ?_, ?_, ?_⟩
      · rw [if_pos (carry.mpr full)]
        rfl
      · rw [mask]
        exact Nat.mod_lt _ (by decide)
      · rw [mask, BitVec.toNat_ushiftRight, Nat.shiftRight_eq_div_pow, whole]
        rw [whole] at nearest
        rw [show (e + 1 + 1023) * 2^52 + 2^53 / 2^1 % 2^52 = (e + 1022) * 2^52 + 2^53 by omega]
        exact nearest
    · refine ⟨q &&& (1#64 <<< 52 - 1#64), e, ?_, ?_, ?_⟩
      · rw [if_neg (mt carry.mp full)]
      · rw [mask]
        exact Nat.mod_lt _ (by decide)
      · rw [mask, show (e + 1023) * 2^52 + q.toNat % 2^52 = (e + 1022) * 2^52 + q.toNat by omega]
        exact nearest

end Rounding

section ToFloat64

/-- Sign, exponent and fraction side by side -/
theorem toNat_fields {s : BitVec 64} {k m : BitVec 64} (sign : s.toNat ≤ 1)
    (exponent : k.toNat < 2^11) (fraction : m.toNat < 2^52) :
    (s <<< 63 ||| k <<< 52 ||| m).toNat = s.toNat * 2^63 + k.toNat * 2^52 + m.toNat := by
  have high : (s <<< 63).toNat = 2^63 * s.toNat := by
    rw [BitVec.toNat_shiftLeft, Nat.shiftLeft_eq]
    omega
  have middle : (k <<< 52).toNat = 2^52 * k.toNat := by
    rw [BitVec.toNat_shiftLeft, Nat.shiftLeft_eq]
    omega
  have joined : 2^63 * s.toNat ||| 2^52 * k.toNat = 2^52 * (2^11 * s.toNat + k.toNat) := by
    rw [← Nat.two_pow_add_eq_or_of_lt (show 2^52 * k.toNat < 2^63 by omega)]
    omega
  rw [BitVec.toNat_or, BitVec.toNat_or, high, middle, joined,
    ← Nat.two_pow_add_eq_or_of_lt fraction]
  omega

theorem value_ne_zero (positive : 0 < w) {a : JSBigInt w} (normal : Normalized a.tab)
    (many : a.len ≠ 1) : a.value ≠ 0 := by
  have some_ := List.length_pos_iff.mpr normal.nonempty
  intro zero
  rw [JSBigInt.len] at many
  have outside := normal.not_fits positive (n := 1) (by omega) (by decide)
  rw [JSBigInt.value] at zero
  rw [zero] at outside
  exact outside ⟨by simp, by positivity⟩

/-- Every integer is converted to the nearest double. -/
theorem jsBigintToFloat64_nearest {a : JSBigInt limbBits.width} (normal : Normalized a.tab) :
    NearestTo a.value (jsBigintToFloat64 a) := by
  have positive : 0 < limbBits.width := by cases limbBits <;> decide
  rw [jsBigintToFloat64]
  by_cases single : a.len = 1
  · have value : a.value = (a.limb 0).toInt := by
      rw [JSBigInt.value, limb_zero single, signed_singleton]
    rw [if_pos single, value]
    exact ofInt_nearest _
  · have nonzero := value_ne_zero positive normal single
    obtain ⟨mant, run, -, jam⟩ := jsBigintGetMantExp_spec normal nonzero
    have low := Nat.log2_self_le (Int.natAbs_ne_zero.mpr nonzero)
    obtain ⟨m, e, round, small, nearest⟩ := roundMantissa_spec low Nat.lt_log2_self jam
    have bounded := nearest.bounded
    rw [infinity] at bounded
    have exponent : BitVec.ofInt 64 ((e : Int) + 1023) = BitVec.ofNat 64 (e + 1023) := by
      rw [← BitVec.ofInt_natCast]
      rfl
    have exponentNat : (BitVec.ofNat 64 (e + 1023)).toNat = e + 1023 := by
      rw [BitVec.toNat_ofNat]
      omega
    have sign : ((jsBigintSign a).setWidth 64).toNat = if a.value < 0 then 1 else 0 := by
      rw [jsBigintSign_eq positive, JSBigInt.value]
      by_cases below : signed a.tab < 0
      · rw [if_pos ((negative_iff _).mpr below), if_pos below, BitVec.toNat_setWidth,
          BitVec.toNat_one positive]
      · rw [if_neg (mt (negative_iff _).mp below), if_neg below, BitVec.toNat_setWidth,
          BitVec.toNat_zero]
    rw [if_neg single, run]
    simp only [round, exponent]
    have fields : (jsBigintSign a).setWidth 64 <<< 63 ||| BitVec.ofNat 64 (e + 1023) <<< 52 ||| m
        = BitVec.ofNat 64 ((if a.value < 0 then 2^63 else 0) + ((e + 1023) * 2^52 + m.toNat)) := by
      apply BitVec.eq_of_toNat_eq
      rw [toNat_fields (by rw [sign]; split_ifs <;> decide) (by omega) small, sign, exponentNat,
        BitVec.toNat_ofNat]
      split_ifs <;> omega
    rw [fields]
    exact nearestTo_of_pattern nearest

end ToFloat64

section FromFloat64

theorem exponentBits_eq (b : BitVec 64) : exponentBits b = exponent b := by
  rw [exponentBits, exponent, BitVec.toNat_and, BitVec.toNat_ushiftRight,
    Nat.shiftRight_eq_div_pow]
  exact Nat.and_two_pow_sub_one_eq_mod _ 11

theorem toNat_mantissaBits (b : BitVec 64) : (mantissaBits b).toNat = fraction b := by
  rw [mantissaBits, fraction, BitVec.toNat_and]
  exact Nat.and_two_pow_sub_one_eq_mod _ 52

theorem mantissaBits_eq_zero (b : BitVec 64) : mantissaBits b = 0#64 ↔ fraction b = 0 := by
  rw [← toNat_mantissaBits, ← BitVec.toNat_inj, BitVec.toNat_zero]

/-- The mantissa with its leading bit -/
theorem toNat_leading (b : BitVec 64) :
    (mantissaBits b ||| 1#64 <<< 52).toNat = 2^52 + fraction b := by
  have bound := fraction_lt b
  have joined := Nat.two_pow_add_eq_or_of_lt bound 1
  rw [Nat.mul_one] at joined
  rw [BitVec.toNat_or, toNat_mantissaBits, Nat.or_comm, joined]
  rfl

theorem signed_redundant {w : Nat} (positive : 0 < w) {x y : BitVec w}
    (redundant : y = signLimb [x]) : signed [x, y] = x.toInt := by
  have extension := signed_append_signLimb positive 1 [x]
  rwa [List.replicate_one, ← redundant, List.singleton_append, signed_singleton] at extension

theorem toInt_low {x : BitVec 64} (short : -(2^31) ≤ x.toInt ∧ x.toInt ≤ 2^31 - 1) :
    (x.setWidth 32).toInt = x.toInt := by
  have word := x.isLt
  rw [BitVec.toInt_eq_toNat_cond] at short
  rw [BitVec.toInt_eq_toNat_cond, BitVec.toInt_eq_toNat_cond, BitVec.toNat_setWidth]
  split_ifs at short ⊢ <;> omega

theorem jsBigintSetSi64_denotes (limbBits : LimbBits) (x : BitVec 64) :
    Denotes x.toInt (jsBigintSetSi64 limbBits x) ∧ (jsBigintSetSi64 limbBits x).len ≤ 2 := by
  cases limbBits with
  | bits64 => exact ⟨⟨normalized_singleton x, signed_singleton x⟩, Nat.le_succ 1⟩
  | bits32 =>
      rw [jsBigintSetSi64]
      by_cases short : -(2^31) ≤ x.toInt ∧ x.toInt ≤ 2^31 - 1
      · rw [if_pos short]
        exact ⟨⟨normalized_singleton _, (signed_singleton _).trans (toInt_low short)⟩,
          Nat.le_succ 1⟩
      · rw [if_neg short]
        have value : signed [x.setWidth 32, (x.sshiftRight 32).setWidth 32] = x.toInt := by
          have limbs := signed_splitDouble (w := 32) (by decide) x
          rwa [splitDouble_sshiftRight (w := 32) (by decide)] at limbs
        refine ⟨⟨(normalized_append [] _ _).mpr fun redundant => short ?_, value⟩, le_refl 2⟩
        have small := signed_redundant (w := 32) (by decide) redundant
        have low := BitVec.le_toInt (x.setWidth 32)
        have high := BitVec.toInt_lt (x := x.setWidth 32)
        rw [← value, small]
        omega

theorem sign_iff (b : BitVec 64) : b >>> 63 ≠ 0#64 ↔ b.msb = true := by
  rw [show b >>> 63 = if b.msb then 1#64 else 0#64 from signBit (by decide) b]
  by_cases sign : b.msb = true <;> simp [sign]

/-- The mantissa with the sign -/
theorem toInt_signed (b : BitVec 64) {mant : BitVec 64} (small : mant.toNat < 2^53) :
    (if b >>> 63 ≠ 0#64 then -mant else mant).toInt
      = if b.msb then -(mant.toNat : Int) else mant.toNat := by
  simp only [sign_iff]
  by_cases sign : b.msb = true
  · rw [if_pos sign, if_pos sign, BitVec.toInt_eq_toNat_cond, BitVec.toNat_neg]
    split_ifs <;> omega
  · rw [if_neg sign, if_neg sign, BitVec.toInt_eq_toNat_cond]
    split_ifs <;> omega

def FromFloat64.Of {w : Nat} (b : BitVec 64) : FromFloat64 w → Prop
  | integer n => Normalized n.tab ∧ isFinite b = true ∧ toRat b = n.value
  | notInteger => isFinite b = true ∧ ∀ x : Int, toRat b ≠ x
  | notFinite => isNaN b = true ∨ isInfinite b = true

theorem size_allowed {limbBits : LimbBits} {len : Nat} (small : len ≤ 32) (error : RangeError) :
    ¬ SizeRefused limbBits.width len error := by
  rintro ⟨-, refused⟩
  have sized : 32 ≤ maxSize limbBits.width := by cases limbBits <;> decide
  omega

/-- The integer made of a mantissa and an exponent -/
theorem shifted_spec {b mant : BitVec 64} {e : Nat} (small : mant.toNat < 2^53) (le : e ≤ 971)
    (finite : isFinite b = true)
    (value : Binary64.magnitude (b.toNat % 2^63) = mant.toNat * 2^e * one) :
    Outcome (FromFloat64.integer <$> jsBigintShl
        (jsBigintSetSi64 limbBits (if b >>> 63 ≠ 0#64 then -mant else mant)) (BitVec.ofNat 32 e))
      (FromFloat64.Of b) (fun _ => False) := by
  have positive : 0 < limbBits.width := by cases limbBits <;> decide
  have wide : 32 ≤ limbBits.width := by cases limbBits <;> decide
  obtain ⟨⟨normal, number⟩, short⟩ :=
    jsBigintSetSi64_denotes limbBits (if b >>> 63 ≠ 0#64 then -mant else mant)
  have shift : (BitVec.ofNat 32 e).toNat = e := by
    rw [BitVec.toNat_ofNat]
    omega
  have outcome := jsBigintShl_denotes positive normal (BitVec.ofNat 32 e)
  rw [number, toInt_signed b small, shift] at outcome
  apply Outcome.map (outcome.mono (fun _ denotes => denotes) fun error refused => ?_)
  · rintro n ⟨normal', value'⟩
    refine ⟨normal', finite, (toRat_eq _ b).mpr ?_⟩
    rw [units, value, value']
    split_ifs
    · push_cast
      ring
    · push_cast
      ring
  · have quotient : e / limbBits.width ≤ 971 / 32 := Nat.div_le_div le wide (by decide)
    exact size_allowed (by omega) error refused

/-- The bits of the mantissa below the point -/
theorem lowBits_ne_zero (mant : BitVec 64) {shift : Nat} (small : shift < 64) :
    mant &&& (1#64 <<< shift - 1#64) ≠ 0#64 ↔ mant.toNat % 2^shift ≠ 0 := by
  have pos := Nat.two_pow_pos shift
  have bound : 2^shift < 2^64 := Nat.pow_lt_pow_right (by decide) small
  have mask : (1#64 <<< shift - 1#64).toNat = 2^shift - 1 := by
    rw [BitVec.toNat_sub, BitVec.toNat_shiftLeft, Nat.shiftLeft_eq]
    simp only [BitVec.toNat_ofNat, Nat.reducePow, Nat.reduceMod, Nat.one_mul]
    omega
  rw [ne_eq, ← BitVec.toNat_inj, BitVec.toNat_and, mask, Nat.and_two_pow_sub_one_eq_mod,
    BitVec.toNat_zero]

theorem jsBigintFromFloat64_spec (limbBits : LimbBits) (b : BitVec 64) :
    Outcome (jsBigintFromFloat64 limbBits b) (FromFloat64.Of b) (fun _ => False) := by
  have bound := exponent_lt b
  have leading := toNat_leading b
  have fractionBound := fraction_lt b
  rw [jsBigintFromFloat64, exponentBits_eq]
  simp only [mantissaBits_eq_zero]
  by_cases special : exponent b = 2047
  · rw [if_pos special]
    apply Outcome.pure
    by_cases fraction : fraction b = 0
    · exact .inr (by simp [isInfinite, special, fraction])
    · exact .inl (by simp [isNaN, special, fraction])
  have finite : isFinite b = true := by simp [isFinite, special]
  rw [if_neg special]
  by_cases zero : exponent b = 0 ∧ fraction b = 0
  · rw [if_pos zero]
    have value : Binary64.magnitude (b.toNat % 2^63) = 0 := by
      rw [magnitude_subnormal b zero.1, zero.2]
    apply Outcome.map ((jsBigintNewSi_denotes _).mono (fun _ denotes => denotes)
      fun error refused => size_allowed (by decide) error refused)
    rintro n ⟨normal, value'⟩
    refine ⟨normal, finite, (toRat_eq _ b).mpr ?_⟩
    rw [units, value, value']
    simp
  rw [if_neg zero]
  by_cases small : exponent b < 1023
  · rw [if_pos small]
    exact Outcome.pure ⟨finite, fractional_of_small b small zero⟩
  rw [if_neg small]
  obtain ⟨e, exponent_eq⟩ : ∃ e, exponent b = e + 1023 := ⟨exponent b - 1023, by omega⟩
  have scaled := magnitude_scaled b exponent_eq
  rw [← leading] at scaled
  rw [exponent_eq, Nat.add_sub_cancel]
  generalize mantissaBits b ||| 1#64 <<< 52 = mant at *
  have pos := one_pos
  by_cases whole : e < 52
  · have shift : 2^52 = 2^e * 2^(52 - e) := pow_split (by omega)
    have scale : 0 < 2^e * one := Nat.mul_pos (Nat.two_pow_pos e) pos
    simp only [whole, true_and, if_true, lowBits_ne_zero mant (show 52 - e < 64 by omega)]
    by_cases point : mant.toNat % 2^(52 - e) ≠ 0
    · -- an integer would have no bit below the point
      rw [if_pos point]
      refine Outcome.pure ⟨finite, fun x same => point ?_⟩
      have value := natAbs_units b
      rw [(toRat_eq x b).mp same, Int.natAbs_mul, Int.natAbs_natCast] at value
      rw [← value, shift] at scaled
      have multiple : x.natAbs * 2^(52 - e) = mant.toNat := by
        apply Nat.eq_of_mul_eq_mul_right scale
        rw [← scaled]
        ring
      rw [← multiple, Nat.mul_mod_left]
    · rw [if_neg point]
      have shifted : (mant >>> (52 - e)).toNat = mant.toNat / 2^(52 - e) := by
        rw [BitVec.toNat_ushiftRight, Nat.shiftRight_eq_div_pow]
      have parts : mant.toNat = mant.toNat / 2^(52 - e) * 2^(52 - e) := by
        have division := Nat.div_add_mod' mant.toNat (2^(52 - e))
        omega
      apply shifted_spec _ (Nat.zero_le _) finite
      · rw [shifted, Nat.pow_zero, Nat.mul_one]
        apply Nat.eq_of_mul_eq_mul_right (Nat.two_pow_pos 52)
        rw [scaled]
        nth_rewrite 1 [parts]
        rw [shift]
        ring
      · rw [shifted]
        exact (Nat.div_le_self _ _).trans_lt (by omega)
  · have shift : 2^e = 2^(e - 52) * 2^52 := pow_split (by omega)
    simp only [whole, false_and, if_false]
    apply shifted_spec (by omega) (by omega) finite
    apply Nat.eq_of_mul_eq_mul_right (Nat.two_pow_pos 52)
    rw [scaled, shift]
    ring

end FromFloat64

section Exactness

/-- What the conversions promise -/
structure Float64Exact (limbBits : LimbBits) : Prop where
  toFloat64 (a : NormalBigInt limbBits.width) :
    NearestTo a.value (jsBigintToFloat64 a.toJSBigInt)
  fromFloat64 (b : BitVec 64) :
    Outcome (jsBigintFromFloat64 limbBits b) (FromFloat64.Of b) (fun _ => False)
  roundTrip (a : NormalBigInt limbBits.width) : |a.value| ≤ 2^53 →
    Outcome (jsBigintFromFloat64 limbBits (jsBigintToFloat64 a.toJSBigInt))
      (fun r => r = .integer a.toJSBigInt) (fun _ => False)

/-- The conversions are exact for limbs of 32 and of 64 bits. -/
theorem float64_exact (limbBits : LimbBits) : Float64Exact limbBits where
  toFloat64 a := jsBigintToFloat64_nearest a.normal
  fromFloat64 b := jsBigintFromFloat64_spec limbBits b
  roundTrip a small := by
    have positive : 0 < limbBits.width := by cases limbBits <;> decide
    have within : a.value.natAbs ≤ 2^53 := by
      rw [Int.abs_eq_natAbs] at small
      exact_mod_cast small
    obtain ⟨finite, units_eq⟩ := (jsBigintToFloat64_nearest a.normal).exact_ within
    have value := (toRat_eq _ _).mpr units_eq
    have special := (jsBigintFromFloat64_spec limbBits (jsBigintToFloat64 a.toJSBigInt))
    refine special.mono (fun r of_ => ?_) fun _ never => never
    cases r with
    | integer n =>
        have same : n.value = a.value := by exact_mod_cast of_.2.2.symm.trans value
        exact congrArg _ (Denotes.unique positive ⟨of_.1, same⟩ ⟨a.normal, rfl⟩)
    | notInteger => exact absurd value (of_.2 _)
    | notFinite =>
        simp only [isFinite, decide_eq_true_eq] at finite
        rcases of_ with nan | infinite
        · simp [isNaN, finite] at nan
        · simp [isInfinite, finite] at infinite

end Exactness

end PrimJs.BigInt
