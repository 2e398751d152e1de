import PrimJs.Numeric.BigIntBits

/-! `<<` and `>>` of the interpreter: the count is a `BigInt` of any length, and the code saturates it. -/

namespace PrimJs.BigInt

open Limbs Allocating

variable {w : Nat}

def jsBigintGetSiSat (a : JSBigInt w) : Int :=
  if a.len = 1 then (a.limb 0).toInt
  else if jsBigintSign a ≠ 0#w then -2^(w - 1)
  else 2^(w - 1) - 1

def saturatedShift (shift : Int) : Int :=
  if shift > int32Max then int32Max else if shift < -int32Max then -int32Max else shift

/-- The shifts of `js_binary_logic_slow` -/
def jsBinaryShiftSlow (p1 p2 : JSBigInt w) (sar : Bool) : Allocating RangeError (JSBigInt w) :=
  let shift := saturatedShift (jsBigintGetSiSat p2)
  let shift := if sar then -shift else shift
  if 0 ≤ shift then jsBigintShl p1 (.ofInt 32 shift) else jsBigintShr p1 (.ofInt 32 (-shift))

/-- The number of bits by which the value moves to the left. -/
def shiftCount (b : JSBigInt w) (sar : Bool) : Int := if sar then -b.value else b.value

theorem saturatedShift_getSiSat (wide : 32 ≤ w) {b : JSBigInt w} (normal : Normalized b.tab) :
    saturatedShift (jsBigintGetSiSat b) = saturatedShift b.value := by
  have positive : 0 < w := by omega
  rw [jsBigintGetSiSat]
  by_cases single : b.len = 1
  · rw [if_pos single, JSBigInt.value, limb_zero single, signed_singleton]
  · rw [if_neg single]
    have some_ : 0 < b.len := List.length_pos_iff.mpr normal.nonempty
    have half : (2 : Int)^31 ≤ 2^(w - 1) := pow_le_pow_right₀ (by norm_num) (by omega)
    have outside := normal.not_fits positive (show 1 < b.len by omega) Nat.one_pos
    rw [Fits, mul_one, ← JSBigInt.value] at outside
    have sign := (jsBigintSign_ne_zero positive b).trans (negative_iff b.tab)
    rw [← JSBigInt.value] at sign
    unfold saturatedShift int32Max
    split
    · next below =>
      have less := sign.mp below
      omega
    · next above =>
      have more := mt sign.mpr above
      omega

section

variable {a : JSBigInt w} (normal : Normalized a.tab) {count : Nat}

include normal

/-- With the largest count only zero is shifted to the left. -/
theorem jsBigintShl_past (large : maxSize w ≤ int32Max / w) (past : int32Max ≤ count) :
    Outcome (jsBigintShl a (.ofInt 32 int32Max)) (Denotes (a.value * 2^count))
      (SizeRefused w (a.len + count / w)) := by
  rw [jsBigintShl]
  by_cases zero : a.len = 1 ∧ a.limb 0 = 0#w
  · have value : a.value * 2^count = (0#w).toInt := by
      rw [JSBigInt.value, limb_zero zero.1, zero.2, signed_singleton, BitVec.toInt_zero, zero_mul]
    rw [if_pos zero, value]
    refine (jsBigintNewSi_denotes _).mono (fun _ denotes => denotes) fun _ refused => ?_
    exact ⟨refused.1, refused.2.trans_le (zero.1.ge.trans (Nat.le_add_right _ _))⟩
  · have some_ : 0 < a.len := List.length_pos_iff.mpr normal.nonempty
    have bound : int32Max / w ≤ count / w := Nat.div_le_div_right past
    have refused : maxSize w < a.len + int32Max / w := by omega
    have news : Outcome (jsBigintNew w (a.len + int32Max / w)) (fun _ => False)
        (SizeRefused w (a.len + count / w)) := by
      rw [jsBigintNew, if_pos refused]
      exact Outcome.thrown ⟨rfl, by omega⟩
    rw [if_neg zero]
    exact news.bind fun _ never => never.elim

theorem shr_past (positive : 0 < w) (fits : w * a.len ≤ int32Max) :
    a.value / 2^min int32Max count = a.value / 2^count := by
  obtain within | past := le_total count int32Max
  · rw [min_eq_right within]
  · rw [min_eq_left past, ← shr_over positive normal.nonempty fits,
      shr_over positive normal.nonempty (fits.trans past)]

end

/-- A shift is exact for every count. `js_bigint_extend` can put one limb over the size limit. -/
theorem bigInt_shift_exact (limbBits : LimbBits) (a b : NormalBigInt limbBits.width) (sar : Bool)
    (held : a.len ≤ maxSize limbBits.width + 1) :
    let count := shiftCount b.toJSBigInt sar
    Outcome (jsBinaryShiftSlow a.toJSBigInt b.toJSBigInt sar)
      (Denotes (if 0 ≤ count then a.value * 2^count.toNat else a.value / 2^(-count).toNat))
      (SizeRefused limbBits.width (a.len + count.toNat / limbBits.width)) := by
  have wide : 32 ≤ limbBits.width := by cases limbBits <;> decide
  have positive : 0 < limbBits.width := by omega
  have small : limbBits.width * (maxSize limbBits.width + 1) ≤ int32Max := by cases limbBits <;> decide
  have large : maxSize limbBits.width ≤ int32Max / limbBits.width := by cases limbBits <;> decide
  intro count
  have amount : (if sar then -saturatedShift (jsBigintGetSiSat b.toJSBigInt)
      else saturatedShift (jsBigintGetSiSat b.toJSBigInt)) = saturatedShift count := by
    rw [saturatedShift_getSiSat wide b.normal]
    unfold count shiftCount saturatedShift
    split <;> split_ifs <;> omega
  rw [jsBinaryShiftSlow, amount]
  by_cases left : 0 ≤ count
  · by_cases within : count ≤ int32Max
    · have kept : saturatedShift count = count := by
        unfold saturatedShift int32Max at *
        split_ifs <;> omega
      have bits : (BitVec.ofInt 32 count).toNat = count.toNat := by
        unfold int32Max at within
        rw [BitVec.toNat_ofInt]
        omega
      rw [kept, if_pos left, if_pos left, ← bits]
      exact jsBigintShl_denotes positive a.normal _
    · have limit : saturatedShift count = int32Max := if_pos (not_le.mp within)
      rw [limit, if_pos (by decide), if_pos left]
      exact jsBigintShl_past a.normal large (by omega)
  · have bits : (BitVec.ofInt 32 (-saturatedShift count)).toNat = min int32Max (-count).toNat := by
      unfold saturatedShift int32Max
      rw [BitVec.toNat_ofInt]
      split_ifs <;> omega
    have right : ¬ 0 ≤ saturatedShift count := by
      unfold saturatedShift int32Max
      split_ifs <;> omega
    have fits := (Nat.mul_le_mul_left limbBits.width held).trans small
    rw [if_neg right, if_neg left, ← shr_past a.normal positive fits, ← bits, show count.toNat = 0 by omega, Nat.zero_div]
    exact jsBigintShr_denotes positive a.normal _

/-- `-5n >> 1n` is `-3n`. -/
theorem bigInt_shift_exact_five :
    Outcome (jsBinaryShiftSlow ⟨[-5#64]⟩ ⟨[1#64]⟩ true) (Denotes (-3)) (SizeRefused 64 1) :=
  bigInt_shift_exact .bits64 ⟨⟨[-5#64]⟩, normalized_singleton _⟩ ⟨⟨[1#64]⟩, normalized_singleton _⟩ true
    (by decide)

end PrimJs.BigInt
