import Mathlib.Tactic
import Mathlib.Tactic.Linarith
import Mathlib.Tactic.LinearCombination
import Mathlib.Tactic.Ring

/-! Estimates of a quotient digit in base `β`. -/

namespace PrimJs.LongDivision

section Reciprocal

/-- `m + β` is the reciprocal of a divisor `d` with its high bit set, and `s` what it leaves. The
estimate `q` made with it is the quotient of `a1 * β + a0` or one less. -/
theorem reciprocal_estimate {β d a1 a0 m s n1 q : Int} (normal : β ≤ 2 * d) (digit : d < β)
    (a1Nonneg : 0 ≤ a1) (a1Small : a1 < d) (a0Nonneg : 0 ≤ a0) (a0Small : a0 < β)
    (inverse : m * d + s = β * β - β * d - 1) (sNonneg : 0 ≤ s) (sSmall : s < d)
    (half : n1 = 0 ∧ 2 * a0 < β ∨ n1 = 1 ∧ β ≤ 2 * a0)
    (low : β * (q - a1) ≤ m * (a1 + n1) + a0 + n1 * (d - β))
    (high : m * (a1 + n1) + a0 + n1 * (d - β) < β * (q - a1) + β) :
    q * d ≤ a1 * β + a0 ∧ a1 * β + a0 < (q + 2) * d := by
  have dPos : 0 < d := by linarith
  have βPos : 0 < β := by linarith
  -- what the sum in the estimate leaves, times `d`
  have rest : β * (a1 * β + a0) - d * (m * (a1 + n1) + a0 + n1 * (d - β) + β * a1)
      = a0 * (β - d) + (1 + s) * (a1 + n1) - n1 * ((β - d) * (β - d)) := by
    linear_combination (-(a1 + n1)) * inverse
  have lowD := mul_le_mul_of_nonneg_left low dPos.le
  have highD := mul_lt_mul_of_pos_left high dPos
  have below : 0 ≤ a0 * (β - d) + (1 + s) * (a1 + n1) - n1 * ((β - d) * (β - d)) := by
    rcases half with ⟨rfl, -⟩ | ⟨rfl, large⟩
    · have first : 0 ≤ a0 * (β - d) := mul_nonneg a0Nonneg (by linarith)
      have second : 0 ≤ (1 + s) * (a1 + 0) := mul_nonneg (by linarith) (by linarith)
      linarith
    · have first : (β - d) * (β - d) ≤ a0 * (β - d) :=
        mul_le_mul_of_nonneg_right (by linarith) (by linarith)
      have second : 0 ≤ (1 + s) * (a1 + 1) := mul_nonneg (by linarith) (by linarith)
      linarith
  have above : a0 * (β - d) + (1 + s) * (a1 + n1) - n1 * ((β - d) * (β - d)) ≤ d * β := by
    have inner : (1 + s) * (a1 + n1) ≤ d * (a1 + n1) := by
      apply mul_le_mul_of_nonneg_right (by linarith)
      rcases half with ⟨rfl, -⟩ | ⟨rfl, -⟩ <;> linarith
    rcases half with ⟨rfl, small⟩ | ⟨rfl, -⟩
    · have first : a0 * (β - d) ≤ d * (β - d) :=
        mul_le_mul_of_nonneg_right (by linarith) (by linarith)
      have second : d * (a1 + 0) ≤ d * d := mul_le_mul_of_nonneg_left (by linarith) dPos.le
      linarith
    · have first : (a0 - (β - d)) * (β - d) ≤ d * (β - d) :=
        mul_le_mul_of_nonneg_right (by linarith) (by linarith)
      have second : d * (a1 + 1) ≤ d * d := mul_le_mul_of_nonneg_left (by linarith) dPos.le
      linarith
  constructor
  · have scaled : β * (q * d) ≤ β * (a1 * β + a0) := by linarith
    exact le_of_mul_le_mul_left scaled βPos
  · have scaled : β * (a1 * β + a0) < β * ((q + 2) * d) := by linarith
    exact lt_of_mul_lt_mul_left scaled βPos.le

end Reciprocal

section Digit

/-- The quotient of the two high digits by the high digit of a divisor with its high bit set is
at most 2 more than the quotient digit. -/
theorem digit_estimate {β γ D L v below rest q : Int} (normal : β ≤ 2 * D) (γPos : 0 < γ)
    (LNonneg : 0 ≤ L) (LSmall : L < γ) (restNonneg : 0 ≤ rest) (restSmall : rest < γ)
    (fits : γ * (v * β + below) + rest < β * (γ * D + L)) (qNonneg : 0 ≤ q) (qSmall : q < β)
    (low : q * D ≤ v * β + below) (high : v * β + below < (q + 1) * D ∨ q + 1 = β) :
    γ * (v * β + below) + rest < (q + 1) * (γ * D + L)
      ∧ q * (γ * D + L) ≤ γ * (v * β + below) + rest + 2 * (γ * D + L) := by
  constructor
  · rcases high with above | top
    · have digits : γ * (v * β + below + 1) ≤ γ * ((q + 1) * D) :=
        mul_le_mul_of_nonneg_left (by linarith) γPos.le
      have tail : 0 ≤ (q + 1) * L := mul_nonneg (by linarith) LNonneg
      linarith
    · rw [top]
      exact fits
  · have digits : γ * (q * D) ≤ γ * (v * β + below) := mul_le_mul_of_nonneg_left low γPos.le
    have tail : q * L ≤ q * γ := mul_le_mul_of_nonneg_left LSmall.le qNonneg
    have scale : q * γ ≤ 2 * D * γ := mul_le_mul_of_nonneg_right (by linarith) γPos.le
    linarith

end Digit

end PrimJs.LongDivision
