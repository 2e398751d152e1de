import Mathlib.Data.List.Basic
import PrimJs.Numeric.BigIntDivrem
import PrimJs.Numeric.BigIntFloat

/-! The mantissa of a `BigInt` keeps the 64 high bits of its absolute value, and in the last one
whether bits are lost. -/

namespace PrimJs.BigInt

open Limbs Binary64

variable {w : Nat} {limbBits : LimbBits}

section Limbs

theorem absLoop_zero (tab : List (BitVec w)) : absLoop 0#w tab 0#w = tab := by
  induction tab with
  | nil => rfl
  | cons x tab ih =>
      have carry : limbOf (x < 0#w) = 0#w := by simp [limbOf]
      simp only [absLoop, BitVec.neg_zero, BitVec.xor_zero, BitVec.add_zero, carry, ih]

theorem absLoop_one (tab : List (BitVec w)) (carry : BitVec w) :
    absLoop 1#w tab carry = (mpNeg tab carry).1 := by
  induction tab generalizing carry with
  | nil => rfl
  | cons x tab ih =>
      rw [absLoop, mpNeg, ih, BitVec.neg_one_eq_allOnes, BitVec.xor_allOnes]

theorem unsigned_absLoop (positive : 0 < w) {a : JSBigInt w} (nonempty : a.tab ≠ []) :
    unsigned (absLoop (jsBigintSign a) a.tab (jsBigintSign a)) = a.value.natAbs
      ∧ (absLoop (jsBigintSign a) a.tab (jsBigintSign a)).length = a.len := by
  have limbs := unsigned_abs positive nonempty
  have sign := jsBigintSign_eq positive a
  by_cases below : negative a.tab = true
  · rw [if_pos below] at sign
    rw [sign, if_pos (one_ne_zero_limb positive)] at limbs
    rw [sign, absLoop_one]
    exact limbs
  · rw [if_neg below] at sign
    rw [sign, if_neg (not_not.mpr rfl)] at limbs
    rw [sign, absLoop_zero]
    exact limbs

theorem foldl_or (tab : List (BitVec w)) (acc : BitVec w) :
    tab.foldl (· ||| ·) acc = 0#w ↔ acc = 0#w ∧ unsigned tab = 0 := by
  induction tab generalizing acc with
  | nil => simp
  | cons x tab ih =>
      rw [List.foldl_cons, ih, BitVec.or_eq_zero_iff, unsigned_cons, ← BitVec.toNat_inj (x := x)]
      simp [and_assoc]

/-- The bits of `a0` below the limbs that are read -/
def spareBits : LimbBits → Nat
  | .bits32 => 32
  | .bits64 => 0

theorem width_mul_limbs (limbBits : LimbBits) :
    limbBits.width * mantissaLimbs limbBits.width + spareBits limbBits = 128 := by
  cases limbBits <;> rfl

theorem mantissaWords_spec {t : List (BitVec limbBits.width)}
    (length : t.length = mantissaLimbs limbBits.width) :
    (mantissaWords limbBits t).1.toNat * 2^64 + (mantissaWords limbBits t).2.toNat
      = unsigned t * 2^spareBits limbBits := by
  cases limbBits with
  | bits32 =>
      obtain ⟨x, y, z, rfl⟩ : ∃ x y z, t = [x, y, z] := List.length_eq_three.mp length
      have high : (mantissaWords .bits32 [x, y, z]).1.toNat = z.toNat * 2^32 + y.toNat :=
        toNat_joinLimbs z y
      have low : (mantissaWords .bits32 [x, y, z]).2.toNat = x.toNat * 2^32 := by
        have limb : x.toNat < 2^32 := x.isLt
        change (BitVec.setWidth 64 x <<< 32).toNat = _
        rw [BitVec.toNat_shiftLeft, BitVec.toNat_setWidth, Nat.shiftLeft_eq]
        omega
      rw [high, low]
      change _ = (x.toNat + 2^32 * (y.toNat + 2^32 * (z.toNat + 2^32 * 0))) * 2^32
      ring
  | bits64 =>
      obtain ⟨x, y, rfl⟩ : ∃ x y, t = [x, y] := List.length_eq_two.mp length
      change y.toNat * 2^64 + x.toNat = (x.toNat + 2^64 * (y.toNat + 2^64 * 0)) * 2^0
      ring

end Limbs

section Normalize

/-- The quotient by a power of two, jammed, from a quotient with spare bits -/
theorem jammed_of_split {n d h r c k : Nat} (positive : 0 < d) (split_ : n = h * d + r)
    (below : r < 2^c * d) (spare : 2^c ∣ h) (le : c ≤ k) :
    Jammed n (d * 2^k) (h / 2^k ||| (decide (h % 2^k ≠ 0 ∨ r ≠ 0)).toNat) := by
  have width := Nat.two_pow_pos k
  have parts : h / 2^k * 2^k + h % 2^k = h := Nat.div_add_mod' h (2^k)
  have bound := Nat.mod_lt h width
  have multiple : 2^c ∣ h % 2^k := (Nat.dvd_mod_iff (Nat.pow_dvd_pow 2 le)).mpr spare
  have gap : h % 2^k + 2^c ≤ 2^k := by
    obtain ⟨i, same⟩ := multiple
    obtain ⟨j, same'⟩ := Nat.pow_dvd_pow 2 le
    rw [same, same'] at bound ⊢
    have := Nat.lt_of_mul_lt_mul_left bound
    calc
      2^c * i + 2^c = 2^c * (i + 1) := by ring
      _ ≤ 2^c * j := Nat.mul_le_mul_left _ this
  have rest : h % 2^k * d + r < d * 2^k := by
    calc
      h % 2^k * d + r < h % 2^k * d + 2^c * d := by omega
      _ = (h % 2^k + 2^c) * d := by ring
      _ ≤ 2^k * d := Nat.mul_le_mul_right _ gap
      _ = d * 2^k := Nat.mul_comm _ _
  have whole : h % 2^k * d + r + d * 2^k * (h / 2^k) = n := by
    rw [split_]
    nth_rewrite 3 [← parts]
    ring
  obtain ⟨quotient, remainder⟩ :=
    (Nat.div_mod_unique (Nat.mul_pos positive width)).mpr ⟨whole, rest⟩
  have jam := jammed_div n (Nat.mul_pos positive width)
  rw [quotient, remainder] at jam
  have exact_ : h % 2^k * d + r ≠ 0 ↔ h % 2^k ≠ 0 ∨ r ≠ 0 := by
    rw [ne_eq, Nat.add_eq_zero_iff, Nat.mul_eq_zero]
    omega
  simpa only [exact_] using jam

theorem normalizeMantissa_nonzero {a1 : BitVec 64} (nonzero : a1 ≠ 0#64) (a0 : BitVec 64) :
    normalizeMantissa a1 a0 = (a1 <<< a1.clz.toNat ||| a0 >>> (64 - a1.clz.toNat),
      a0 <<< a1.clz.toNat, a1.clz.toNat) := by
  rw [normalizeMantissa, if_neg nonzero]
  by_cases zero : a1.clz.toNat = 0
  · have gone : a0 >>> 64 = 0#64 := BitVec.ushiftRight_eq_zero (le_refl 64)
    simp [zero, gone]
  · simp [zero]

theorem toNat_or_limbOf (x : BitVec 64) (flag : Bool) :
    (x ||| limbOf flag).toNat = x.toNat ||| flag.toNat := by
  rw [BitVec.toNat_or, toNat_limbOf (by decide)]

theorem shiftLeft_ne_zero (x : BitVec 64) {k : Nat} (le : k ≤ 64) :
    x <<< k ≠ 0#64 ↔ x.toNat % 2^(64 - k) ≠ 0 := by
  have whole : 2^64 = 2^(64 - k) * 2^k := by
    rw [← Nat.pow_add, Nat.sub_add_cancel le]
  have pos := Nat.two_pow_pos k
  rw [ne_eq, ← BitVec.toNat_inj, BitVec.toNat_shiftLeft, Nat.shiftLeft_eq, whole,
    Nat.mul_mod_mul_right, BitVec.toNat_zero, Nat.mul_eq_zero]
  omega

theorem toNat_shifted {a1 a0 : BitVec 64} (nonzero : a1 ≠ 0#64) :
    (a1 <<< a1.clz.toNat ||| a0 >>> (64 - a1.clz.toNat)).toNat
      = a1.toNat * 2^a1.clz.toNat + a0.toNat / 2^(64 - a1.clz.toNat) := by
  have inside : a1.clz.toNat < 64 := BitVec.lt_def.mp (BitVec.clz_lt_iff_ne_zero.mpr nonzero)
  have most := BitVec.toNat_lt_two_pow_sub_clz (x := a1)
  generalize a1.clz.toNat = shift at *
  have low : (a0 >>> (64 - shift)).toNat = a0.toNat / 2^(64 - shift) := by
    rw [BitVec.toNat_ushiftRight, Nat.shiftRight_eq_div_pow]
  have small : (a0 >>> (64 - shift)).toNat < 2^shift := by
    rw [low]
    apply Nat.div_lt_of_lt_mul
    rw [← Nat.pow_add, Nat.sub_add_cancel inside.le]
    exact a0.isLt
  have column := (shlColumn_spec inside a1 small).1
  have gone : (a1 >>> (64 - shift)).toNat = 0 := by
    rw [BitVec.toNat_ushiftRight, Nat.shiftRight_eq_div_pow, Nat.div_eq_of_lt most]
  rwa [gone, Nat.mul_zero, Nat.add_zero, low] at column

/-- The high bits of `a1` and `a0`, and whether there are bits below -/
theorem normalizeMantissa_spec {a1 a0 : BitVec 64} {c n d r : Nat} (positive : 0 < d)
    (split_ : n = (a1.toNat * 2^64 + a0.toNat) * d + r) (below : r < 2^c * d)
    (spare : 2^c ∣ a0.toNat) (top : a1 = 0#64 → 2^63 ≤ a0.toNat ∧ c = 0)
    (room : a1 ≠ 0#64 → a1.clz.toNat + c ≤ 64) :
    ∃ m rest shift, normalizeMantissa a1 (a0 ||| limbOf (r ≠ 0)) = (m, rest, shift) ∧ shift ≤ 64
      ∧ 2^63 ≤ m.toNat ∧ Jammed n (d * 2^(64 - shift)) (m ||| limbOf (rest ≠ 0#64)).toNat := by
  by_cases zero : a1 = 0#64
  · obtain ⟨high, rfl⟩ := top zero
    have jam := jammed_of_split (k := 0) positive split_ below (one_dvd _) (le_refl 0)
    refine ⟨_, _, _, by rw [normalizeMantissa, if_pos zero], le_refl 64, ?_, ?_⟩
    · rw [toNat_or_limbOf]
      exact high.trans Nat.left_le_or
    · have word (flag : Bool) : (limbOf flag : BitVec 64).toNat = flag.toNat :=
        toNat_limbOf (by decide) flag
      simpa [zero, word, Nat.mod_one] using jam
  · have inside : a1.clz.toNat < 64 := BitVec.lt_def.mp (BitVec.clz_lt_iff_ne_zero.mpr zero)
    have least := BitVec.two_pow_sub_clz_le_toNat_of_ne_zero (show 0 < 64 by decide) zero
    have shifted := @toNat_shifted a1 (a0 ||| limbOf (r ≠ 0)) zero
    have sum := room zero
    refine ⟨_, _, _, normalizeMantissa_nonzero zero _, inside.le, ?_, ?_⟩
    · rw [shifted]
      generalize a1.clz.toNat = shift at *
      calc
        2^63 = 2^(64 - 1 - shift) * 2^shift := by
            rw [← Nat.pow_add]
            congr 1
            omega
        _ ≤ a1.toNat * 2^shift := Nat.mul_le_mul_right _ least
        _ ≤ _ := Nat.le_add_right _ _
    · have spare' : 2^c ∣ a1.toNat * 2^64 + a0.toNat :=
        Nat.dvd_add (Nat.dvd_mul_left_of_dvd (Nat.pow_dvd_pow 2 (by omega)) _) spare
      have jam := jammed_of_split (k := 64 - a1.clz.toNat) positive split_ below spare' (by omega)
      have bits : (decide (r ≠ 0)).toNat < 2^(64 - a1.clz.toNat) :=
        lt_of_le_of_lt (Bool.toNat_le _) (Nat.one_lt_two_pow (by omega))
      have whole : 2^64 = 2^a1.clz.toNat * 2^(64 - a1.clz.toNat) := by
        rw [← Nat.pow_add, Nat.add_sub_cancel' inside.le]
      rw [toNat_or_limbOf, shifted, toNat_or_limbOf, Nat.or_div_two_pow, Nat.div_eq_of_lt bits,
        Nat.or_zero]
      have quotient : (a1.toNat * 2^64 + a0.toNat) / 2^(64 - a1.clz.toNat)
          = a1.toNat * 2^a1.clz.toNat + a0.toNat / 2^(64 - a1.clz.toNat) := by
        rw [whole, ← Nat.mul_assoc, Nat.mul_comm _ (2^(64 - a1.clz.toNat)),
          Nat.mul_add_div (Nat.two_pow_pos _)]
      have remainder : (a1.toNat * 2^64 + a0.toNat) % 2^(64 - a1.clz.toNat)
          = a0.toNat % 2^(64 - a1.clz.toNat) := by
        rw [whole, ← Nat.mul_assoc, Nat.mul_add_mod_self_right]
      rw [quotient, remainder] at jam
      have same : decide ((a0 ||| limbOf (r ≠ 0)) <<< a1.clz.toNat ≠ 0#64)
          = decide (a0.toNat % 2^(64 - a1.clz.toNat) ≠ 0 ∨ r ≠ 0) := by
        rw [decide_eq_decide, shiftLeft_ne_zero _ inside.le, toNat_or_limbOf, Nat.or_mod_two_pow,
          Nat.mod_eq_of_lt bits, ne_eq, Nat.or_eq_zero_iff]
        by_cases exact_ : r = 0 <;> simp [exact_]
      rw [same]
      exact jam

end Normalize

section Exponent

/-- The limbs of the absolute value: those in the mantissa and those below -/
theorem mantissaLimbs_spec {tab : List (BitVec limbBits.width)} :
    ∃ r, unsigned tab * 2^128
        = unsigned (List.replicate (mantissaLimbs limbBits.width - tab.length) 0#(limbBits.width)
            ++ tab.drop (tab.length - mantissaLimbs limbBits.width)) * 2^spareBits limbBits
          * 2^(limbBits.width * tab.length) + r
      ∧ r < 2^spareBits limbBits * 2^(limbBits.width * tab.length)
      ∧ (r ≠ 0 ↔ (tab.take (tab.length - mantissaLimbs limbBits.width)).foldl (· ||| ·) 0#(limbBits.width)
          ≠ 0#(limbBits.width)) := by
  have width := width_mul_limbs limbBits
  generalize mantissaLimbs limbBits.width = n2 at *
  generalize spareBits limbBits = c at *
  generalize limbBits.width = w at *
  rcases Nat.le_total tab.length n2 with short | long
  · refine ⟨0, ?_, by positivity, ?_⟩
    · have weight : 2^128 = 2^(w * (n2 - tab.length)) * 2^c * 2^(w * tab.length) := by
        rw [← Nat.pow_add, ← Nat.pow_add]
        congr 1
        have := Nat.mul_sub w n2 tab.length
        have := Nat.mul_le_mul_left w short
        omega
      rw [Nat.sub_eq_zero_of_le short, List.drop_zero, unsigned_append, unsigned_replicate_zero,
        List.length_replicate, weight]
      ring
    · rw [Nat.sub_eq_zero_of_le short, List.take_zero]
      simp
  · have inside : (tab.take (tab.length - n2)).length = tab.length - n2 :=
      List.length_take_of_le (Nat.sub_le _ _)
    have value : unsigned tab = unsigned (tab.take (tab.length - n2))
        + 2^(w * (tab.length - n2)) * unsigned (tab.drop (tab.length - n2)) := by
      nth_rewrite 1 [← List.take_append_drop (tab.length - n2) tab]
      rw [unsigned_append, inside]
    have low := unsigned_lt (tab.take (tab.length - n2))
    rw [inside] at low
    have weight : 2^(w * (tab.length - n2)) * 2^128 = 2^c * 2^(w * tab.length) := by
      rw [← Nat.pow_add, ← Nat.pow_add]
      congr 1
      have := Nat.mul_sub w tab.length n2
      have := Nat.mul_le_mul_left w long
      omega
    refine ⟨unsigned (tab.take (tab.length - n2)) * 2^128, ?_, ?_, ?_⟩
    · rw [Nat.sub_eq_zero_of_le long, List.replicate_zero, List.nil_append, value, Nat.add_mul,
        Nat.mul_right_comm, weight]
      ring
    · rw [← weight]
      exact Nat.mul_lt_mul_of_pos_right low (by positivity)
    · rw [ne_eq, ne_eq, foldl_or, Nat.mul_eq_zero]
      simp

/-- The high bit is found within the words. -/
theorem words_room {a1 a0 : BitVec 64} {t : Nat}
    (words : a1.toNat * 2^64 + a0.toNat = t * 2^spareBits limbBits)
    (large : 2^(127 - limbBits.width) < a1.toNat * 2^64 + a0.toNat + 2^spareBits limbBits) :
    2^spareBits limbBits ∣ a0.toNat ∧ (a1 = 0#64 → 2^63 ≤ a0.toNat ∧ spareBits limbBits = 0)
      ∧ (a1 ≠ 0#64 → a1.clz.toNat + spareBits limbBits ≤ 64) := by
  have word := a0.isLt
  have spare : 2^spareBits limbBits ∣ a0.toNat := by
    have le : spareBits limbBits ≤ 64 := by cases limbBits <;> decide
    have multiple : 2^spareBits limbBits ∣ a1.toNat * 2^64 :=
      Nat.dvd_mul_left_of_dvd (Nat.pow_dvd_pow 2 le) _
    exact (Nat.dvd_add_right multiple).mp (words ▸ Nat.dvd_mul_left _ _)
  refine ⟨spare, fun zero => ?_, fun nonzero => ?_⟩
  · rw [zero] at words large
    cases limbBits <;> simp [spareBits, LimbBits.width] at large words ⊢ <;> omega
  · have inside : a1.clz.toNat < 64 := BitVec.lt_def.mp (BitVec.clz_lt_iff_ne_zero.mpr nonzero)
    have most := BitVec.toNat_lt_two_pow_sub_clz (x := a1)
    cases limbBits with
    | bits64 => exact inside.le
    | bits32 =>
        have high : 2^31 ≤ a1.toNat := by
          simp only [spareBits, LimbBits.width] at large words
          omega
        have bits := (Nat.pow_lt_pow_iff_right (by decide)).mp (high.trans_lt most)
        rw [spareBits]
        omega

/-- A jammed quotient of 64 bits tells the exponent. -/
theorem log2_of_jammed {x len shift m : Nat} (le : shift ≤ 64)
    (jam : Jammed (x * 2^128) (2^len * 2^(64 - shift)) m) (low : 2^63 ≤ m) (high : m < 2^64) :
    (len : Int) - shift - 1 = x.log2 ∧ Jammed (x * 2^63) (2^x.log2) m := by
  have power : 2^len * 2^(64 - shift) = 2^(len + 64 - shift) := by
    rw [← Nat.pow_add]
    congr 1
    omega
  rw [power] at jam
  have pos := Nat.two_pow_pos (len + 64 - shift)
  have atLeast : 2^63 * 2^(len + 64 - shift) ≤ x * 2^128 :=
    not_lt.mp (mt (jam.lt_iff pos ⟨2^62, by decide⟩).mpr (not_lt.mpr low))
  have below : x * 2^128 < 2^64 * 2^(len + 64 - shift) :=
    (jam.lt_iff pos ⟨2^63, by decide⟩).mp high
  have nonzero : x ≠ 0 := by
    rintro rfl
    simp at atLeast
  have own : 2^x.log2 * 2^128 ≤ x * 2^128 := Nat.mul_le_mul_right _ (Nat.log2_self_le nonzero)
  have own' : x * 2^128 < 2^(x.log2 + 1) * 2^128 :=
    Nat.mul_lt_mul_of_pos_right Nat.lt_log2_self (by positivity)
  rw [← Nat.pow_add] at atLeast below own own'
  have left := (Nat.pow_lt_pow_iff_right (by decide)).mp (own.trans_lt below)
  have right := (Nat.pow_lt_pow_iff_right (by decide)).mp (atLeast.trans_lt own')
  have exponent : len + 64 - shift = x.log2 + 65 := by omega
  refine ⟨by omega, (Jammed.scale (c := 2^65) (by positivity)).mp ?_⟩
  rwa [Nat.mul_assoc, ← Nat.pow_add, ← Nat.pow_add, ← exponent]

/-- The mantissa is the 64 high bits of the absolute value, jammed. -/
theorem jsBigintGetMantExp_spec {a : JSBigInt limbBits.width} (normal : Normalized a.tab)
    (nonzero : a.value ≠ 0) :
    ∃ mant, jsBigintGetMantExp a = (mant, (a.value.natAbs.log2 : Int)) ∧ 2^63 ≤ mant.toNat
      ∧ Jammed (a.value.natAbs * 2^63) (2^a.value.natAbs.log2) mant.toNat := by
  have positive : 0 < limbBits.width := by cases limbBits <;> decide
  have some_ := List.length_pos_iff.mpr normal.nonempty
  obtain ⟨value, length⟩ := unsigned_absLoop positive normal.nonempty
  obtain ⟨r, split_, below, low⟩ := @mantissaLimbs_spec limbBits
    (absLoop (jsBigintSign a) a.tab (jsBigintSign a))
  have words := mantissaWords_spec (t := List.replicate (mantissaLimbs limbBits.width - a.len)
    0#(limbBits.width) ++ (absLoop (jsBigintSign a) a.tab (jsBigintSign a)).drop
      (a.len - mantissaLimbs limbBits.width)) (by
    rw [List.length_append, List.length_replicate, List.length_drop, length]
    omega)
  rw [value, length, ← words] at split_
  rw [length] at below low
  rw [jsBigintGetMantExp]
  simp only [← decide_eq_decide.mpr low]
  generalize mantissaWords limbBits _ = pair at words split_ ⊢
  obtain ⟨a1, a0⟩ := pair
  dsimp only at words split_ ⊢
  have weight := Nat.two_pow_pos (limbBits.width * a.len)
  have large : 2^(127 - limbBits.width) < a1.toNat * 2^64 + a0.toNat + 2^spareBits limbBits := by
    have least := normalized_large positive normal nonzero
    have bits : limbBits.width * a.len + (127 - limbBits.width)
        ≤ limbBits.width * (a.len - 1) - 1 + 128 := by
      have narrow : limbBits.width ≤ 64 := by cases limbBits <;> decide
      have := Nat.mul_sub limbBits.width a.len 1
      have := Nat.mul_le_mul_left limbBits.width some_
      change 0 < a.len at some_
      omega
    have product : 2^(limbBits.width * a.len) * 2^(127 - limbBits.width)
        < 2^(limbBits.width * a.len) * (a1.toNat * 2^64 + a0.toNat + 2^spareBits limbBits) := by
      calc
        _ = 2^(limbBits.width * a.len + (127 - limbBits.width)) := (Nat.pow_add _ _ _).symm
        _ ≤ 2^(limbBits.width * (a.len - 1) - 1 + 128) := Nat.pow_le_pow_right (by decide) bits
        _ = 2^(limbBits.width * (a.len - 1) - 1) * 2^128 := Nat.pow_add _ _ _
        _ ≤ a.value.natAbs * 2^128 := Nat.mul_le_mul_right _ least
        _ < _ := by
            rw [split_, Nat.mul_add, Nat.mul_comm (2^(limbBits.width * a.len)) (2^spareBits _),
              Nat.mul_comm (2^(limbBits.width * a.len))]
            exact Nat.add_lt_add_left below _
    exact Nat.lt_of_mul_lt_mul_left product
  obtain ⟨spare, top, room⟩ := words_room words large
  obtain ⟨m, rest, shift, run, le, high, jam⟩ :=
    normalizeMantissa_spec weight split_ below spare top room
  have high' : 2^63 ≤ (m ||| limbOf (rest ≠ 0#64)).toNat := by
    rw [toNat_or_limbOf]
    exact high.trans Nat.left_le_or
  obtain ⟨exponent, scaled⟩ := log2_of_jammed le jam high' (BitVec.isLt _)
  refine ⟨m ||| limbOf (rest ≠ 0#64), ?_, high', scaled⟩
  rw [run, ← exponent, Nat.cast_mul, mul_comm (limbBits.width : Int)]

end Exponent

end PrimJs.BigInt
