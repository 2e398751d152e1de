import Mathlib.Tactic
import Mathlib.Logic.Function.Basic

/-! A set of numbers as bits of words, in which higher bits of a word stand for lower numbers. -/

namespace PrimJs.PackedBits

variable {w : Nat} {lines : Nat → BitVec w} {n m : Nat}

def bitIndex (w n : Nat) : Nat := w - 1 - n % w

def mask (w n : Nat) : BitVec w := 1#w <<< bitIndex w n

def bit (lines : Nat → BitVec w) (n : Nat) : Bool := (lines (n / w)).getLsbD (bitIndex w n)

def setBit (lines : Nat → BitVec w) (n : Nat) : Nat → BitVec w :=
  Function.update lines (n / w) (lines (n / w) ||| mask w n)

def clearBit (lines : Nat → BitVec w) (n : Nat) : Nat → BitVec w :=
  Function.update lines (n / w) (lines (n / w) &&& ~~~mask w n)

theorem bitIndex_lt (some_ : 0 < w) : bitIndex w n < w := by
  unfold bitIndex
  omega

theorem eq_of_place (some_ : 0 < w) (word : n / w = m / w) (index : bitIndex w n = bitIndex w m) :
    n = m := by
  have lowN := Nat.mod_lt n some_
  have lowM := Nat.mod_lt m some_
  have low : n % w = m % w := by
    unfold bitIndex at index
    omega
  calc n = w * (n / w) + n % w := (Nat.div_add_mod n w).symm
    _ = w * (m / w) + m % w := by rw [word, low]
    _ = m := Nat.div_add_mod m w

theorem getLsbD_mask (some_ : 0 < w) (i : Nat) :
    (mask w n).getLsbD i = decide (bitIndex w n = i) := by
  rw [mask, ← BitVec.twoPow_eq, BitVec.getLsbD_twoPow]
  simp [bitIndex_lt some_]

theorem mask_ne_zero (some_ : 0 < w) : mask w n ≠ 0#w := by
  intro zero
  have bits := getLsbD_mask (n := n) some_ (bitIndex w n)
  rw [zero] at bits
  simp at bits

theorem mask_inj (some_ : 0 < w) (same : mask w n = mask w m) : bitIndex w n = bitIndex w m := by
  have bits := getLsbD_mask (n := n) some_ (bitIndex w m)
  rw [same, getLsbD_mask some_] at bits
  simpa using bits

section

variable (some_ : 0 < w) (lines : Nat → BitVec w)

include some_

theorem and_mask_eq_zero : lines (n / w) &&& mask w n = 0#w ↔ bit lines n = false := by
  rw [mask, ← BitVec.twoPow_eq, BitVec.and_twoPow, bit]
  cases (lines (n / w)).getLsbD (bitIndex w n) with
  | false => simp
  | true =>
      have some' := mask_ne_zero (n := n) some_
      rw [mask, ← BitVec.twoPow_eq] at some'
      simpa using some'

theorem test_eq (n : Nat) : decide (lines (n / w) &&& mask w n ≠ 0#w) = bit lines n := by
  have zero := and_mask_eq_zero (n := n) some_ lines
  cases here : bit lines n with
  | true => simpa [here] using zero
  | false => simpa [here] using zero

theorem bit_setBit (n m : Nat) : bit (setBit lines n) m = (decide (n = m) || bit lines m) := by
  unfold bit setBit
  by_cases word : m / w = n / w
  · rw [word, Function.update_self, BitVec.getLsbD_or, getLsbD_mask some_, Bool.or_comm]
    congr 1
    by_cases same : n = m
    · simp [same]
    · have other : bitIndex w n ≠ bitIndex w m := fun index => same (eq_of_place some_ word.symm index)
      simp [same, other]
  · have other : n ≠ m := fun same => word (by rw [same])
    rw [Function.update_of_ne word]
    simp [other]

theorem bit_clearBit (n m : Nat) : bit (clearBit lines n) m = (decide (n ≠ m) && bit lines m) := by
  unfold bit clearBit
  by_cases word : m / w = n / w
  · rw [word, Function.update_self, BitVec.getLsbD_and, BitVec.getLsbD_not, getLsbD_mask some_,
      Bool.and_comm, decide_eq_true (bitIndex_lt some_), Bool.true_and]
    congr 1
    by_cases same : n = m
    · simp [same]
    · have other : bitIndex w n ≠ bitIndex w m := fun index => same (eq_of_place some_ word.symm index)
      simp [same, other]
  · have other : n ≠ m := fun same => word (by rw [same])
    rw [Function.update_of_ne word]
    simp [other]

end

end PrimJs.PackedBits
