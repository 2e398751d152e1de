import PrimJs.Numeric.BigIntSpec
import Mathlib.Algebra.Order.Ring.Abs
import Mathlib.Tactic.LinearCombination

/-! Multiplication, with the corrections for negative factors. -/

namespace PrimJs.BigInt

open Limbs Allocating

variable {w : Nat}

variable (positive : 0 < w)
include positive

/-- Subtracting `y` from the limbs above the first `n` -/
theorem subHigh_modEq {tab y : List (BitVec w)} {n : Nat} (length : tab.length = n + y.length) :
    (unsigned (tab.take n ++ (mpSub (tab.drop n) y 0#w).1) : Int)
        ≡ unsigned tab - 2^(w * n) * unsigned y [ZMOD 2^(w * tab.length)]
      ∧ (tab.take n ++ (mpSub (tab.drop n) y 0#w).1).length = tab.length := by
  have high : (tab.drop n).length = y.length := by
    rw [List.length_drop]
    omega
  have low : (tab.take n).length = n := by
    rw [List.length_take]
    omega
  have zero : (0#w).toNat ≤ 1 := by simp
  obtain ⟨difference, lengths⟩ := mpSub_spec positive high zero
  refine ⟨?_, ?_⟩
  · have whole : unsigned tab = unsigned (tab.take n) + 2^(w * n) * unsigned (tab.drop n) := by
      conv_lhs => rw [← List.take_append_drop n tab, unsigned_append, low]
    rw [unsigned_append, low, whole]
    rw [high, BitVec.toNat_zero, Nat.add_zero] at difference
    have difference' : (unsigned (tab.drop n) : Int)
        + 2^(w * y.length) * (mpSub (tab.drop n) y 0#w).2.toNat
        = unsigned (mpSub (tab.drop n) y 0#w).1 + unsigned y := by exact_mod_cast difference
    apply Int.modEq_iff_dvd.mpr
    refine ⟨-(mpSub (tab.drop n) y 0#w).2.toNat, ?_⟩
    rw [length, Nat.mul_add, pow_add]
    push_cast
    linear_combination 2^(w * n) * difference'
  · rw [List.length_append, low, lengths, high, length]

/-- What a negative factor `x` takes off the unsigned product with `y` -/
def correct (x : JSBigInt w) (y tab : List (BitVec w)) : List (BitVec w) :=
  if jsBigintSign x ≠ 0#w then tab.take x.len ++ (mpSub (tab.drop x.len) y 0#w).1 else tab

theorem correct_modEq {x : JSBigInt w} {y tab : List (BitVec w)}
    (length : tab.length = x.len + y.length) :
    (unsigned (correct x y tab) : Int)
        ≡ unsigned tab - signWeight x.tab * unsigned y [ZMOD 2^(w * tab.length)]
      ∧ (correct x y tab).length = tab.length := by
  rw [correct, signWeight]
  by_cases sign : jsBigintSign x ≠ 0#w
  · rw [if_pos sign, if_pos ((jsBigintSign_ne_zero positive x).mp sign)]
    push_cast
    exact subHigh_modEq positive length
  · rw [if_neg sign, if_neg (mt (jsBigintSign_ne_zero positive x).mpr sign)]
    simp

variable {b a : JSBigInt w}

theorem mulTab_modEq (a : JSBigInt w) (bNonempty : b.tab ≠ []) :
    (unsigned (jsBigintMulTab a b) : Int) ≡ a.value * b.value [ZMOD 2^(w * (a.len + b.len))]
      ∧ (jsBigintMulTab a b).length = a.len + b.len := by
  obtain ⟨product, length⟩ := mpMulBasecase_spec a.tab bNonempty
  have result : jsBigintMulTab a b
      = correct b a.tab (correct a b.tab (mpMulBasecase a.tab b.tab)) := rfl
  obtain ⟨first, same⟩ := correct_modEq positive (x := a) (y := b.tab) length
  have turned : (correct a b.tab (mpMulBasecase a.tab b.tab)).length = b.len + a.tab.length := by
    rw [same, length, Nat.add_comm]
    rfl
  obtain ⟨second, same'⟩ := correct_modEq positive turned
  have total : (correct a b.tab (mpMulBasecase a.tab b.tab)).length = a.len + b.len :=
    same.trans length
  rw [length, product] at first
  rw [total] at second same'
  rw [result]
  refine ⟨?_, same'⟩
  have weights : (2^(w * (a.len + b.len)) : Int) ∣ signWeight a.tab * signWeight b.tab := by
    rw [signWeight, signWeight]
    by_cases aSign : negative a.tab = true
    · by_cases bSign : negative b.tab = true
      · rw [if_pos aSign, if_pos bSign, Nat.mul_add, pow_add]
        push_cast
        exact dvd_refl _
      · simp [bSign]
    · simp [aSign]
  push_cast at first
  calc
    _ ≡ (unsigned (correct a b.tab (mpMulBasecase a.tab b.tab)) : Int)
          - signWeight b.tab * unsigned a.tab [ZMOD 2^(w * (a.len + b.len))] := second
    _ ≡ unsigned a.tab * unsigned b.tab - signWeight a.tab * unsigned b.tab
          - signWeight b.tab * unsigned a.tab [ZMOD 2^(w * (a.len + b.len))] :=
        first.sub (Int.ModEq.refl _)
    _ ≡ a.value * b.value [ZMOD 2^(w * (a.len + b.len))] := by
        apply Int.modEq_iff_dvd.mpr
        have difference : a.value * b.value - (unsigned a.tab * unsigned b.tab
            - signWeight a.tab * unsigned b.tab - signWeight b.tab * unsigned a.tab)
            = signWeight a.tab * signWeight b.tab := by
          rw [JSBigInt.value, JSBigInt.value, signed, signed]
          ring
        rw [difference]
        exact weights

section

variable (aNonempty : a.tab ≠ []) (bNonempty : b.tab ≠ [])

include aNonempty bNonempty

theorem product_range : Fits w (a.len + b.len) (a.value * b.value) := by
  obtain ⟨aLow, aHigh⟩ := fits_signed positive aNonempty
  obtain ⟨bLow, bHigh⟩ := fits_signed positive bNonempty
  have aBits := Nat.mul_pos positive (List.length_pos_iff.mpr aNonempty)
  have bBits := Nat.mul_pos positive (List.length_pos_iff.mpr bNonempty)
  have width : (2 : Int)^(w * (a.len + b.len) - 1)
      = 2 * (2^(w * a.tab.length - 1) * 2^(w * b.tab.length - 1)) := by
    rw [← pow_add, ← pow_succ', JSBigInt.len, JSBigInt.len, Nat.mul_add]
    congr 1
    omega
  have aAbs : |a.value| ≤ 2^(w * a.tab.length - 1) := abs_le.mpr ⟨aLow, le_of_lt aHigh⟩
  have bAbs : |b.value| ≤ 2^(w * b.tab.length - 1) := abs_le.mpr ⟨bLow, le_of_lt bHigh⟩
  have bound : |a.value * b.value| ≤ 2^(w * a.tab.length - 1) * 2^(w * b.tab.length - 1) := by
    rw [abs_mul]
    exact mul_le_mul aAbs bAbs (abs_nonneg _) (by positivity)
  obtain ⟨low, high⟩ := abs_le.mp bound
  have pos : (0 : Int) < 2^(w * a.tab.length - 1) * 2^(w * b.tab.length - 1) := by positivity
  rw [Fits, width]
  constructor <;> linarith

theorem mulTab_nonempty : jsBigintMulTab a b ≠ [] := by
  rw [← List.length_pos_iff, (mulTab_modEq positive a bNonempty).2]
  exact Nat.add_pos_left (List.length_pos_iff.mpr aNonempty) _

theorem mulTab_value : signed (jsBigintMulTab a b) = a.value * b.value := by
  obtain ⟨residue, length⟩ := mulTab_modEq positive a bNonempty
  obtain ⟨low, high⟩ := product_range positive aNonempty bNonempty
  have some_ : jsBigintMulTab a b ≠ [] := mulTab_nonempty positive aNonempty bNonempty
  rw [← length] at low high residue
  exact signed_eq positive some_ low high residue

theorem mulOnStack_denotes :
    Outcome (mulOnStack a b) (Denotes (a.value * b.value)) (SizeRefused w (a.len + b.len)) := by
  have outcome := jsBigintNewFromTab_denotes positive (mulTab_nonempty positive aNonempty bNonempty)
  rw [mulTab_value positive aNonempty bNonempty, (mulTab_modEq positive a bNonempty).2] at outcome
  exact outcome

theorem mulOnHeap_denotes :
    Outcome (mulOnHeap a b) (Denotes (a.value * b.value)) (SizeRefused w (a.len + b.len)) := by
  rw [← mulTab_value positive aNonempty bNonempty]
  apply Outcome.bind (jsBigintNew_outcome w _)
  intro _ _
  exact jsBigintNormalize_denotes positive (mulTab_nonempty positive aNonempty bNonempty)

end

theorem jsBigintMul_denotes (sized : stackLimbs ≤ maxSize w) (aNonempty : a.tab ≠ [])
    (bNonempty : b.tab ≠ []) :
    Outcome (jsBigintMul a b) (Denotes (a.value * b.value)) (SizeRefused w (a.len + b.len)) := by
  rw [jsBigintMul]
  by_cases short : a.len = 1 ∧ b.len = 1
  · rw [if_pos short]
    have outcome := jsBigintNewDi_denotes positive (slimbs (a.limb 0) * slimbs (b.limb 0))
    have value : (slimbs (a.limb 0) * slimbs (b.limb 0)).toInt = a.value * b.value := by
      rw [toInt_slimbs_mul positive, JSBigInt.value, JSBigInt.value, limb_zero short.1,
        limb_zero short.2, signed_singleton, signed_singleton]
    rw [value] at outcome
    refine outcome.mono (fun _ denotes => denotes) fun error refused => absurd refused.2 ?_
    rw [stackLimbs] at sized
    omega
  · rw [if_neg short]
    by_cases onStack : jsBigintMulOnStack a b = true
    · rw [if_pos onStack]
      exact mulOnStack_denotes positive aNonempty bNonempty
    · rw [if_neg onStack]
      exact mulOnHeap_denotes positive aNonempty bNonempty

end PrimJs.BigInt
