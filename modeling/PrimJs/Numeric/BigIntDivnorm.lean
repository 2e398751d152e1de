import PrimJs.Foundation.LongDivision
import PrimJs.Numeric.BigIntDivision
import PrimJs.Numeric.BigIntExact

/-! Long division of limbs, with and without the reciprocal. -/

namespace PrimJs.BigInt

open Limbs LongDivision

variable {w : Nat}

section Words

theorem two_pow_double : 2^(2 * w) = 2^w * 2^w := by rw [Nat.two_mul, Nat.pow_add]

theorem toNat_joinLimbs (a1 a0 : BitVec w) : (joinLimbs a1 a0).toNat = a1.toNat * 2^w + a0.toNat := by
  have bound : a1.toNat * 2^w < 2^w * 2^w := Nat.mul_lt_mul_of_pos_right a1.isLt (Nat.two_pow_pos w)
  have high : (double a1 <<< w).toNat = 2^w * a1.toNat := by
    rw [BitVec.toNat_shiftLeft, toNat_double, Nat.shiftLeft_eq, two_pow_double,
      Nat.mod_eq_of_lt bound, Nat.mul_comm]
  rw [joinLimbs, BitVec.toNat_or, high, toNat_double]
  rw [← Nat.two_pow_add_eq_or_of_lt a0.isLt, Nat.mul_comm]

theorem join_lt {a1 a0 d : Nat} (small : a1 < d) (limb : a0 < 2^w) : a1 * 2^w + a0 < d * 2^w := by
  calc
    a1 * 2^w + a0 < (a1 + 1) * 2^w := by rw [Nat.add_mul]; omega
    _ ≤ d * 2^w := Nat.mul_le_mul_right _ small

theorem divDouble_spec {a1 b : BitVec w} (small : a1 < b) (a0 : BitVec w) :
    (divDouble a1 a0 b).1.toNat = (a1.toNat * 2^w + a0.toNat) / b.toNat
      ∧ (divDouble a1 a0 b).2.toNat = (a1.toNat * 2^w + a0.toNat) % b.toNat := by
  have less : a1.toNat < b.toNat := BitVec.lt_def.mp small
  have bound := join_lt less a0.isLt
  have quotient : (a1.toNat * 2^w + a0.toNat) / b.toNat < 2^w := Nat.div_lt_of_lt_mul bound
  have remainder : (a1.toNat * 2^w + a0.toNat) % b.toNat < 2^w :=
    lt_trans (Nat.mod_lt _ (by omega)) b.isLt
  rw [divDouble, BitVec.toNat_setWidth, BitVec.toNat_setWidth, BitVec.toNat_udiv,
    BitVec.toNat_umod, toNat_joinLimbs, toNat_double, Nat.mod_eq_of_lt quotient,
    Nat.mod_eq_of_lt remainder]
  exact ⟨rfl, rfl⟩

theorem half_le {d : BitVec w} (normal : d.msb = true) : 2^w ≤ 2 * d.toNat := by
  rw [BitVec.msb_eq_decide] at normal
  have large := of_decide_eq_true normal
  cases w with
  | zero => simp at large; omega
  | succ w =>
      rw [Nat.add_sub_cancel] at large
      rw [Nat.pow_succ]
      omega

/-- The reciprocal, with what it leaves -/
theorem udiv1normInit_spec {d : BitVec w} (normal : d.msb = true) :
    ∃ s, (udiv1normInit d).toNat * d.toNat + s = 2^w * 2^w - 2^w * d.toNat - 1 ∧ s < d.toNat
      ∧ 0 < (udiv1normInit d).toNat := by
  have half := half_le normal
  have bound := d.isLt
  have pos := Nat.two_pow_pos w
  have dPos : 0 < d.toNat := by omega
  have a1 : (-d - 1#w).toNat = 2^w - 1 - d.toNat := by
    have ones : -d - 1#w = ~~~d := by rw [BitVec.not_eq_neg_add, BitVec.sub_eq_add_neg]
    rw [ones, BitVec.toNat_not]
  have a0 : (-1#w).toNat = 2^w - 1 := by
    rw [BitVec.neg_one_eq_allOnes, BitVec.toNat_allOnes]
  have square : 2^w * d.toNat + 2^w ≤ 2^w * 2^w := by
    calc
      2^w * d.toNat + 2^w = 2^w * (d.toNat + 1) := by ring
      _ ≤ 2^w * 2^w := Nat.mul_le_mul_left _ bound
  have dividend : (2^w - 1 - d.toNat) * 2^w + (2^w - 1) = 2^w * 2^w - 2^w * d.toNat - 1 := by
    rw [Nat.sub_sub, Nat.sub_mul, Nat.add_mul, Nat.mul_comm d.toNat]
    omega
  have quotient : (2^w * 2^w - 2^w * d.toNat - 1) / d.toNat < 2^w := by
    apply Nat.div_lt_of_lt_mul
    have scale : 2^w * 2^w ≤ d.toNat * 2^w + 2^w * d.toNat := by nlinarith
    omega
  have value : (udiv1normInit d).toNat = (2^w * 2^w - 2^w * d.toNat - 1) / d.toNat := by
    rw [udiv1normInit, BitVec.toNat_setWidth, BitVec.toNat_udiv, toNat_joinLimbs, toNat_double,
      a1, a0, dividend, Nat.mod_eq_of_lt quotient]
  refine ⟨(2^w * 2^w - 2^w * d.toNat - 1) % d.toNat, ?_, Nat.mod_lt _ dPos, ?_⟩
  · rw [value, Nat.mul_comm]
    exact Nat.div_add_mod _ _
  · rw [value]
    apply Nat.div_pos _ dPos
    omega

theorem toNat_mulAdd_one (x b l : BitVec w) :
    (double x * double b + double l).toNat = x.toNat * b.toNat + l.toNat := by
  have zero : double (0#w) = 0#(2 * w) := by simp [double]
  have total := toNat_mulAdd x b l 0#w
  rw [zero, BitVec.add_zero, BitVec.toNat_zero, Nat.add_zero] at total
  exact total

/-- The estimate of `udiv1norm`, before its correction -/
def udiv1normEstimate (a1 a0 d dInv : BitVec w) : BitVec w :=
  let n1m := a0.sshiftRight (w - 1)
  ((double dInv * double (a1 - n1m) + double (a0 + (n1m &&& d))) >>> w).setWidth w + a1

theorem signMask (a0 : BitVec w) :
    a0.sshiftRight (w - 1) = if a0.msb then BitVec.allOnes w else 0#w := by
  apply BitVec.eq_of_getLsbD_eq
  intro i inside
  rw [BitVec.getLsbD_sshiftRight]
  have within : ¬ w ≤ i := by omega
  by_cases top : w - 1 + i < w
  · have here : w - 1 + i = w - 1 := by omega
    by_cases sign : a0.msb = true
    · have bit : a0.getLsbD (w - 1) = true := by rw [← BitVec.msb_eq_getLsbD_last, sign]
      simp [sign, inside, within, here, bit]
    · have bit : a0.getLsbD (w - 1) = false := by
        rw [← BitVec.msb_eq_getLsbD_last]
        exact Bool.eq_false_iff.mpr sign
      simp [sign, within, here, bit]
  · by_cases sign : a0.msb = true <;> simp [sign, inside, within, top]

section

variable {a1 d : BitVec w} (normal : d.msb = true) (small : a1 < d) (a0 : BitVec w)

include normal small

/-- The two adjustments of the estimate for a low limb with its high bit set -/
theorem udiv1norm_adjust : ∃ n1 : Nat, (n1 = 0 ∧ 2 * a0.toNat < 2^w ∨ n1 = 1 ∧ 2^w ≤ 2 * a0.toNat)
      ∧ (a1 - a0.sshiftRight (w - 1)).toNat = a1.toNat + n1
      ∧ (a0 + (a0.sshiftRight (w - 1) &&& d)).toNat + n1 * 2^w = a0.toNat + n1 * d.toNat := by
  have half := half_le normal
  have dBound := d.isLt
  have a0Bound := a0.isLt
  have less : a1.toNat < d.toNat := BitVec.lt_def.mp small
  rw [signMask]
  by_cases sign : a0.msb = true
  · have large := half_le sign
    refine ⟨1, .inr ⟨rfl, large⟩, ?_, ?_⟩
    · have plusOne : a1 - BitVec.allOnes w = a1 + 1#w := by
        rw [← BitVec.neg_one_eq_allOnes, BitVec.sub_neg]
      have one : (1#w).toNat = 1 := BitVec.toNat_one (by
        by_contra zero
        have none : w = 0 := by omega
        subst none
        simp at dBound less
        omega)
      rw [if_pos sign, plusOne, BitVec.toNat_add, one, Nat.mod_eq_of_lt (by omega)]
    · rw [if_pos sign, BitVec.allOnes_and, BitVec.toNat_add,
        Nat.mod_eq_sub_mod (by omega), Nat.mod_eq_of_lt (by omega)]
      omega
  · have clear : 2 * a0.toNat < 2^w := by
      have bit := BitVec.msb_eq_decide a0
      rw [Bool.eq_false_iff.mpr sign] at bit
      have below := of_decide_eq_false bit.symm
      cases w with
      | zero => simp at below; omega
      | succ w =>
          rw [Nat.add_sub_cancel] at below
          rw [Nat.pow_succ]
          omega
    exact ⟨0, .inl ⟨rfl, clear⟩, by simp [sign], by simp [sign]⟩

/-- The estimate is the quotient or one less. -/
theorem udiv1normEstimate_spec :
    (udiv1normEstimate a1 a0 d (udiv1normInit d)).toNat * d.toNat ≤ a1.toNat * 2^w + a0.toNat
      ∧ a1.toNat * 2^w + a0.toNat
        < ((udiv1normEstimate a1 a0 d (udiv1normInit d)).toNat + 2) * d.toNat := by
  have dBound := d.isLt
  have less : a1.toNat < d.toNat := BitVec.lt_def.mp small
  have square : 2^w * d.toNat + 2^w ≤ 2^w * 2^w := by
    calc
      2^w * d.toNat + 2^w = 2^w * (d.toNat + 1) := by ring
      _ ≤ 2^w * 2^w := Nat.mul_le_mul_left _ dBound
  obtain ⟨s, inverse, sSmall, -⟩ := udiv1normInit_spec normal
  obtain ⟨n1, half, shifted, adjusted⟩ := udiv1norm_adjust normal small a0
  rw [udiv1normEstimate]
  have product := toNat_mulAdd_one (udiv1normInit d) (a1 - a0.sshiftRight (w - 1))
    (a0 + (a0.sshiftRight (w - 1) &&& d))
  generalize double (udiv1normInit d) * double (a1 - a0.sshiftRight (w - 1))
    + double (a0 + (a0.sshiftRight (w - 1) &&& d)) = t at *
  generalize (a0 + (a0.sshiftRight (w - 1) &&& d)).toNat = adj at *
  rw [shifted] at product
  generalize (udiv1normInit d).toNat = m at *
  have bound := join_lt less a0.isLt
  have estimate : (t.toNat / 2^w + a1.toNat) * d.toNat ≤ a1.toNat * 2^w + a0.toNat
      ∧ a1.toNat * 2^w + a0.toNat < (t.toNat / 2^w + a1.toNat + 2) * d.toNat := by
    have pos := Nat.two_pow_pos w
    have sum : (t.toNat : Int) = m * (a1.toNat + n1) + a0.toNat + n1 * (d.toNat - 2^w) := by
      have adjusted' : (adj : Int) + n1 * 2^w = a0.toNat + n1 * d.toNat := by exact_mod_cast adjusted
      rw [product]
      push_cast
      linear_combination adjusted'
    have low : 2^w * (t.toNat / 2^w) ≤ t.toNat := Nat.mul_div_le _ _
    have high : t.toNat < 2^w * (t.toNat / 2^w) + 2^w := by
      have split_ := Nat.div_add_mod t.toNat (2^w)
      have rest := Nat.mod_lt t.toNat pos
      omega
    have bounds := @reciprocal_estimate (2^w) d.toNat a1.toNat a0.toNat m s n1
      (t.toNat / 2^w + a1.toNat) (by exact_mod_cast half_le normal) (by exact_mod_cast dBound)
      (by omega) (by exact_mod_cast less) (by omega) (by exact_mod_cast a0.isLt)
      (by have cast : ((m * d.toNat + s : Nat) : Int) = ((2^w * 2^w - 2^w * d.toNat - 1 : Nat) : Int) :=
            congrArg _ inverse
          rw [Nat.sub_sub, Nat.cast_sub (by omega)] at cast
          push_cast at cast
          linarith)
      (by omega) (by exact_mod_cast sSmall)
      (by rcases half with ⟨zero, clear⟩ | ⟨one, set⟩
          · exact .inl ⟨by exact_mod_cast zero, by exact_mod_cast clear⟩
          · exact .inr ⟨by exact_mod_cast one, by exact_mod_cast set⟩)
      (by rw [← sum]
          have cast : ((2^w * (t.toNat / 2^w) : Nat) : Int) ≤ t.toNat := by exact_mod_cast low
          push_cast at cast
          linarith)
      (by rw [← sum]
          have cast : (t.toNat : Int) < ((2^w * (t.toNat / 2^w) + 2^w : Nat) : Int) := by
            exact_mod_cast high
          push_cast at cast
          linarith)
    exact ⟨by exact_mod_cast bounds.1, by exact_mod_cast bounds.2⟩
  have digit : t.toNat / 2^w + a1.toNat < 2^w := by
    by_contra large
    have scaled := Nat.mul_le_mul_right d.toNat (Nat.le_of_not_lt large)
    rw [Nat.mul_comm (2^w)] at scaled
    omega
  have value : ((t >>> w).setWidth w + a1).toNat = t.toNat / 2^w + a1.toNat := by
    have high : t.toNat / 2^w < 2^w := by omega
    rw [BitVec.toNat_add, BitVec.toNat_setWidth, BitVec.toNat_ushiftRight,
      Nat.shiftRight_eq_div_pow, Nat.mod_eq_of_lt high, Nat.mod_eq_of_lt digit]
  rw [value]
  exact estimate

/-- The division by multiplication gives the limbs of the double-limb division. -/
theorem udiv1norm_eq : udiv1norm a1 a0 d (udiv1normInit d) = divDouble a1 a0 d := by
  have positive : 0 < w := by
    by_contra none
    have zero : w = 0 := by omega
    subst zero
    simp [BitVec.msb] at normal
  have one : (1#w).toNat = 1 := BitVec.toNat_one positive
  have dBound := d.isLt
  have less : a1.toNat < d.toNat := BitVec.lt_def.mp small
  have fits := join_lt less a0.isLt
  obtain ⟨quotient, remainder⟩ := divDouble_spec small a0
  obtain ⟨below, above⟩ := udiv1normEstimate_spec normal small a0
  have unfolded : udiv1norm a1 a0 d (udiv1normInit d)
      = let q := udiv1normEstimate a1 a0 d (udiv1normInit d)
        let a := joinLimbs a1 a0 - double q * double d - double d
        let ah := (a >>> w).setWidth w
        (q + (1#w + ah), a.setWidth w + (ah &&& d)) := rfl
  rw [unfolded]
  simp only
  generalize udiv1normEstimate a1 a0 d (udiv1normInit d) = q at *
  generalize dividend : a1.toNat * 2^w + a0.toNat = A at *
  have qBound := q.isLt
  have product : (double q * double d).toNat = q.toNat * d.toNat := by
    have zero : double (0#w) = 0#(2 * w) := by simp [double]
    have total := toNat_mulAdd_one q d 0#w
    rw [zero, BitVec.add_zero, BitVec.toNat_zero, Nat.add_zero] at total
    exact total
  have rest : (joinLimbs a1 a0 - double q * double d).toNat = A - q.toNat * d.toNat := by
    rw [BitVec.toNat_sub_of_le (by
      rw [BitVec.le_def, product, toNat_joinLimbs, dividend]
      exact below), product, toNat_joinLimbs, dividend]
  generalize joinLimbs a1 a0 - double q * double d = left at *
  have split_ : A = q.toNat * d.toNat + left.toNat := by omega
  have leftBound : left.toNat < 2 * d.toNat := by
    have expand : (q.toNat + 2) * d.toNat = q.toNat * d.toNat + 2 * d.toNat := by ring
    omega
  have pos := Nat.two_pow_pos w
  have square : 2^w ≤ 2^w * 2^w := Nat.le_mul_of_pos_left _ pos
  by_cases final : d.toNat ≤ left.toNat
  · have a : (left - double d).toNat = left.toNat - d.toNat := by
      rw [BitVec.toNat_sub_of_le (by rwa [BitVec.le_def, toNat_double]), toNat_double]
    have ah : ((left - double d) >>> w).setWidth w = 0#w := by
      apply BitVec.eq_of_toNat_eq
      rw [BitVec.toNat_setWidth, BitVec.toNat_ushiftRight, Nat.shiftRight_eq_div_pow, a,
        Nat.div_eq_of_lt (by omega), Nat.zero_mod, BitVec.toNat_zero]
    have next : A / d.toNat = q.toNat + 1 := by
      apply Nat.div_eq_of_lt_le
      · rw [split_, Nat.add_mul]
        omega
      · rw [split_]
        have expand : (q.toNat + 1 + 1) * d.toNat = q.toNat * d.toNat + 2 * d.toNat := by ring
        omega
    have digit : A / d.toNat < 2^w := Nat.div_lt_of_lt_mul fits
    apply Prod.ext
    · apply BitVec.eq_of_toNat_eq
      rw [ah, BitVec.add_zero, BitVec.toNat_add, one, quotient, next, Nat.mod_eq_of_lt (by omega)]
    · apply BitVec.eq_of_toNat_eq
      have residue : A % d.toNat = left.toNat - d.toNat := by
        have division := Nat.div_add_mod A d.toNat
        have expand : d.toNat * (q.toNat + 1) = q.toNat * d.toNat + d.toNat := by ring
        rw [next] at division
        omega
      dsimp only
      rw [ah, BitVec.zero_and, BitVec.add_zero, remainder, residue, BitVec.toNat_setWidth, a,
        Nat.mod_eq_of_lt (by omega)]
  · have a : (left - double d).toNat = 2^w * (2^w - 1) + (2^w - d.toNat + left.toNat) := by
      have double_ : 2^w * (2^w - 1) = 2^w * 2^w - 2^w := by rw [Nat.mul_sub, Nat.mul_one]
      rw [BitVec.toNat_sub, toNat_double, two_pow_double, Nat.mod_eq_of_lt (by omega)]
      omega
    have tail : 2^w - d.toNat + left.toNat < 2^w := by omega
    have ah : ((left - double d) >>> w).setWidth w = BitVec.allOnes w := by
      apply BitVec.eq_of_toNat_eq
      rw [BitVec.toNat_setWidth, BitVec.toNat_ushiftRight, Nat.shiftRight_eq_div_pow, a,
        Nat.mul_add_div pos, Nat.div_eq_of_lt tail, BitVec.toNat_allOnes, Nat.mod_eq_of_lt (by omega),
        Nat.add_zero]
    have same : A / d.toNat = q.toNat := by
      apply Nat.div_eq_of_lt_le
      · omega
      · rw [split_, Nat.add_mul]
        omega
    apply Prod.ext
    · have unchanged : q + (1#w + BitVec.allOnes w) = q := by
        rw [← BitVec.neg_one_eq_allOnes, BitVec.add_right_neg, BitVec.add_zero]
      rw [ah, unchanged]
      apply BitVec.eq_of_toNat_eq
      rw [quotient, same]
    · apply BitVec.eq_of_toNat_eq
      have residue : A % d.toNat = left.toNat := by
        have division := Nat.div_add_mod A d.toNat
        rw [same, Nat.mul_comm d.toNat] at division
        omega
      dsimp only
      rw [ah, BitVec.allOnes_and, remainder, residue, BitVec.toNat_add, BitVec.toNat_setWidth, a,
        Nat.mul_add_mod, Nat.mod_eq_of_lt tail, Nat.mod_eq_sub_mod (by omega),
        Nat.mod_eq_of_lt (by omega)]
      omega

end

end Words

section Columns

theorem wrapped_sub {base m n : Nat} (mBound : m < base) (nBound : n < base) :
    (base - n + m) % base = if m < n then base - n + m else m - n := by
  by_cases less : m < n
  · rw [if_pos less, Nat.mod_eq_of_lt (by omega)]
  · rw [if_neg less, Nat.mod_eq_sub_mod (by omega), Nat.mod_eq_of_lt (by omega)]
    omega

/-- The limb and the carry of a column of `mp_sub_mul1` -/
def subMulColumn (b y x l : BitVec w) : BitVec w × BitVec w :=
  let t := double y - double x * double b - double l
  (t.setWidth w, -(t >>> w).setWidth w)

theorem subMulColumn_spec (b y x l : BitVec w) :
    y.toNat + 2^w * (subMulColumn b y x l).2.toNat
      = (subMulColumn b y x l).1.toNat + x.toNat * b.toNat + l.toNat := by
  have bound := product_bound x b
  have yBound := y.isLt
  have lBound := l.isLt
  have pos := Nat.two_pow_pos w
  have square : 2^w ≤ 2^w * 2^w := Nat.le_mul_of_pos_left _ pos
  have product : (double x * double b).toNat = x.toNat * b.toNat := by
    rw [BitVec.toNat_mul, toNat_double, toNat_double, two_pow_double, Nat.mod_eq_of_lt (by omega)]
  have t : (double y - double x * double b - double l).toNat
      = if y.toNat < x.toNat * b.toNat + l.toNat
        then 2^w * 2^w - (x.toNat * b.toNat + l.toNat - y.toNat)
        else y.toNat - (x.toNat * b.toNat + l.toNat) := by
    have inner := @wrapped_sub (2^w * 2^w) y.toNat (x.toNat * b.toNat) (by omega) (by omega)
    have innerBound : (2^w * 2^w - x.toNat * b.toNat + y.toNat) % (2^w * 2^w) < 2^w * 2^w :=
      Nat.mod_lt _ (by omega)
    rw [BitVec.toNat_sub, BitVec.toNat_sub, product, toNat_double, toNat_double, two_pow_double,
      wrapped_sub innerBound (by omega), inner]
    split <;> split <;> split <;> omega
  rw [subMulColumn]
  generalize double y - double x * double b - double l = t' at *
  have division := Nat.div_add_mod t'.toNat (2^w)
  have digit : t'.toNat / 2^w < 2^w := Nat.div_lt_of_lt_mul (two_pow_double (w := w) ▸ t'.isLt)
  have low : (t'.setWidth w).toNat = t'.toNat % 2^w := by rw [BitVec.toNat_setWidth]
  have carry : (-(t' >>> w).setWidth w).toNat = (2^w - t'.toNat / 2^w) % 2^w := by
    rw [BitVec.toNat_neg, BitVec.toNat_setWidth, BitVec.toNat_ushiftRight,
      Nat.shiftRight_eq_div_pow, Nat.mod_eq_of_lt digit]
  dsimp only
  rw [low, carry]
  by_cases borrow : y.toNat < x.toNat * b.toNat + l.toNat
  · rw [if_pos borrow] at t
    have large : 2^w ≤ t'.toNat := by
      have expand : 2^w * 2^w = 2^w * (2^w - 1) + 2^w := by
        rw [Nat.mul_sub, Nat.mul_one, Nat.sub_add_cancel square]
      have most : x.toNat * b.toNat ≤ (2^w - 1) * (2^w - 1) :=
        Nat.mul_le_mul (by have xBound := x.isLt; omega) (by have bBound := b.isLt; omega)
      have expand' : 2^w * (2^w - 1) = (2^w - 1) * (2^w - 1) + (2^w - 1) := by
        obtain ⟨top, same⟩ : ∃ top, 2^w = top + 1 := ⟨2^w - 1, by omega⟩
        rw [same, Nat.add_sub_cancel]
        ring
      omega
    have some_ : 0 < t'.toNat / 2^w := Nat.div_pos large pos
    rw [Nat.mod_eq_of_lt (by omega), Nat.mul_sub]
    omega
  · rw [if_neg borrow] at t
    have none : t'.toNat / 2^w = 0 := Nat.div_eq_of_lt (by omega)
    rw [none, Nat.sub_zero, Nat.mod_self, Nat.mod_eq_of_lt (by omega)]
    omega

theorem mpSubMul1_spec (b : BitVec w) {tabr taba : List (BitVec w)}
    (lengths : tabr.length = taba.length) (l : BitVec w) :
    unsigned tabr + 2^(w * tabr.length) * (mpSubMul1 b tabr taba l).2.toNat
        = unsigned (mpSubMul1 b tabr taba l).1 + unsigned taba * b.toNat + l.toNat
      ∧ (mpSubMul1 b tabr taba l).1.length = tabr.length := by
  induction tabr generalizing taba l with
  | nil =>
      cases taba with
      | nil => simp [mpSubMul1]
      | cons x taba => simp at lengths
  | cons y tabr ih =>
      cases taba with
      | nil => simp at lengths
      | cons x taba =>
          have lengths' : tabr.length = taba.length := by simpa using lengths
          have column := subMulColumn_spec b y x l
          obtain ⟨loop, length⟩ := ih lengths' (subMulColumn b y x l).2
          have unfolded : mpSubMul1 b (y :: tabr) (x :: taba) l
              = ((subMulColumn b y x l).1 :: (mpSubMul1 b tabr taba (subMulColumn b y x l).2).1,
                  (mpSubMul1 b tabr taba (subMulColumn b y x l).2).2) := rfl
          rw [unfolded]
          refine ⟨?_, by simp [length]⟩
          simp only [unsigned_cons, pow_succ_length]
          generalize subMulColumn b y x l = limbs at *
          calc
            y.toNat + 2^w * unsigned tabr
                + 2^w * 2^(w * tabr.length) * (mpSubMul1 b tabr taba limbs.2).2.toNat
              = y.toNat + 2^w * (unsigned tabr
                + 2^(w * tabr.length) * (mpSubMul1 b tabr taba limbs.2).2.toNat) := by ring
            _ = (y.toNat + 2^w * limbs.2.toNat)
                + 2^w * (unsigned (mpSubMul1 b tabr taba limbs.2).1 + unsigned taba * b.toNat) := by
                  rw [loop]
                  ring
            _ = _ := by
                  rw [column]
                  ring

variable (positive : 0 < w)
include positive

theorem mpNeg_spec (tab : List (BitVec w)) {carry : BitVec w} (small : carry.toNat ≤ 1) :
    unsigned (mpNeg tab carry).1 + unsigned tab + 1
          + 2^(w * tab.length) * (mpNeg tab carry).2.toNat
        = 2^(w * tab.length) + carry.toNat
      ∧ (mpNeg tab carry).1.length = tab.length := by
  induction tab generalizing carry with
  | nil => simp [mpNeg]
  | cons x tab ih =>
      have limb := x.isLt
      have two : 2 ≤ 2^w := Nat.pow_le_pow_right (by norm_num : 0 < 2) positive
      have column : (~~~x + carry).toNat + x.toNat + 1
            + 2^w * (limbOf (~~~x + carry < carry) : BitVec w).toNat = 2^w + carry.toNat
          ∧ (limbOf (~~~x + carry < carry) : BitVec w).toNat ≤ 1 := by
        simp only [toNat_limbOf positive, BitVec.lt_def, BitVec.toNat_add, BitVec.toNat_not]
        refine ⟨?_, Bool.toNat_le _⟩
        by_cases wraps : x.toNat = 0 ∧ carry.toNat = 1
        · obtain ⟨zero, one⟩ := wraps
          have total : 2^w - 1 - 0 + 1 = 2^w := by omega
          rw [zero, one, total, Nat.mod_self]
          simp
          omega
        · have below : 2^w - 1 - x.toNat + carry.toNat < 2^w := by omega
          rw [Nat.mod_eq_of_lt below]
          have flag : ¬ 2^w - 1 - x.toNat + carry.toNat < carry.toNat := by omega
          simp only [flag, decide_false, Bool.toNat_false]
          omega
      obtain ⟨value, small'⟩ := column
      obtain ⟨loop, length⟩ := ih small'
      have unfolded : mpNeg (x :: tab) carry
          = ((~~~x + carry) :: (mpNeg tab (limbOf (~~~x + carry < carry))).1,
              (mpNeg tab (limbOf (~~~x + carry < carry))).2) := rfl
      rw [unfolded]
      refine ⟨?_, by simp [length]⟩
      simp only [unsigned_cons, pow_succ_length]
      generalize (limbOf (~~~x + carry < carry) : BitVec w) = c at *
      calc
        (~~~x + carry).toNat + 2^w * unsigned (mpNeg tab c).1 + (x.toNat + 2^w * unsigned tab) + 1
            + 2^w * 2^(w * tab.length) * (mpNeg tab c).2.toNat
          = ((~~~x + carry).toNat + x.toNat + 1) + 2^w * (unsigned (mpNeg tab c).1 + unsigned tab
              + 2^(w * tab.length) * (mpNeg tab c).2.toNat) := by ring
        _ = 2^w * (2^(w * tab.length)) + carry.toNat := by
            have scaled := congrArg (2^w * ·) loop
            simp only [Nat.mul_add, Nat.mul_one] at scaled ⊢
            omega
        _ = _ := by ring

end Columns

section SingleLimb

section

variable {divide : BitVec w → BitVec w → BitVec w × BitVec w} {b r : BitVec w}
  (division : ∀ a1 a0, a1 < b → divide a1 a0 = divDouble a1 a0 b)

include division

theorem div1Loop_spec (small : r < b) (taba : List (BitVec w)) :
    unsigned (div1Loop divide r taba).1 * b.toNat + (div1Loop divide r taba).2.toNat
        = unsigned taba + 2^(w * taba.length) * r.toNat
      ∧ (div1Loop divide r taba).2 < b ∧ (div1Loop divide r taba).1.length = taba.length := by
  induction taba with
  | nil => simp [div1Loop, small]
  | cons a taba ih =>
      obtain ⟨loop, small', length⟩ := ih
      have unfolded : div1Loop divide r (a :: taba)
          = ((divide (div1Loop divide r taba).2 a).1 :: (div1Loop divide r taba).1,
              (divide (div1Loop divide r taba).2 a).2) := rfl
      rw [unfolded, division _ a small']
      obtain ⟨quotient, remainder⟩ := divDouble_spec small' a
      generalize div1Loop divide r taba = rest at *
      have bPos : 0 < b.toNat := by
        have less := BitVec.lt_def.mp small
        omega
      refine ⟨?_, ?_, by simp [length]⟩
      · have column := Nat.div_add_mod (rest.2.toNat * 2^w + a.toNat) b.toNat
        simp only [unsigned_cons, pow_succ_length, quotient, remainder]
        calc
          ((rest.2.toNat * 2^w + a.toNat) / b.toNat + 2^w * unsigned rest.1) * b.toNat
              + (rest.2.toNat * 2^w + a.toNat) % b.toNat
            = (b.toNat * ((rest.2.toNat * 2^w + a.toNat) / b.toNat)
                + (rest.2.toNat * 2^w + a.toNat) % b.toNat)
                + 2^w * (unsigned rest.1 * b.toNat) := by ring
          _ = a.toNat + 2^w * (unsigned rest.1 * b.toNat + rest.2.toNat) := by
              rw [column]
              ring
          _ = _ := by
              rw [loop]
              ring
      · rw [BitVec.lt_def, remainder]
        exact Nat.mod_lt _ bPos

theorem div1Loop_congr {divide' : BitVec w → BitVec w → BitVec w × BitVec w}
    (division' : ∀ a1 a0, a1 < b → divide' a1 a0 = divDouble a1 a0 b) (small : r < b)
    (taba : List (BitVec w)) : div1Loop divide r taba = div1Loop divide' r taba := by
  induction taba with
  | nil => rfl
  | cons a taba ih =>
      have below := (div1Loop_spec division' small taba).2.1
      rw [div1Loop, div1Loop, ih]
      dsimp only
      rw [division _ a below, division' _ a below]

end

theorem mpDiv1norm_eq {b : BitVec w} (normal : b.msb = true) {r : BitVec w} (small : r < b)
    (taba : List (BitVec w)) : mpDiv1norm taba b r = mpDiv1 taba b r := by
  rw [mpDiv1norm, mpDiv1]
  by_cases long : udiv1normThreshold ≤ taba.length
  · rw [if_pos long]
    exact div1Loop_congr (fun a1 a0 less => udiv1norm_eq normal less a0) (fun _ _ _ => rfl) small taba
  · rw [if_neg long]

end SingleLimb

section Correction

variable (positive : 0 < w)
include positive

theorem addBack_round (tabb : List (BitVec w)) (fuel : Nat) (q : BitVec w) {taba : List (BitVec w)}
    (high : BitVec w) (lengths : taba.length = tabb.length) :
    ∃ taba', taba'.length = tabb.length ∧
      ((∃ high', addBack tabb (fuel + 1) q taba high = addBack tabb fuel (q - 1#w) taba' high'
          ∧ unsigned taba' + 2^(w * tabb.length) * high'.toNat
            = unsigned taba + 2^(w * tabb.length) * high.toNat + unsigned tabb)
        ∨ (addBack tabb (fuel + 1) q taba high = some (q - 1#w, taba')
          ∧ unsigned taba' + 2^w * 2^(w * tabb.length)
            = unsigned taba + 2^(w * tabb.length) * high.toNat + unsigned tabb)) := by
  have one : (1#w).toNat = 1 := BitVec.toNat_one positive
  have zero : (0#w).toNat ≤ 1 := by simp
  obtain ⟨sum, small, length⟩ := addcLoop_spec positive (taba.zip tabb) zero
  rw [List.map_fst_zip (le_of_eq lengths), List.map_snd_zip (ge_of_eq lengths), List.length_zip,
    lengths, Nat.min_self, BitVec.toNat_zero, Nat.add_zero] at sum
  rw [List.length_zip, lengths, Nat.min_self] at length
  refine ⟨(addcLoop 0#w (taba.zip tabb)).1, length, ?_⟩
  have unfolded : addBack tabb (fuel + 1) q taba high
      = if (addcLoop 0#w (taba.zip tabb)).2 ≠ 0#w then
          if high + 1#w = 0#w then some (q - 1#w, (addcLoop 0#w (taba.zip tabb)).1)
          else addBack tabb fuel (q - 1#w) (addcLoop 0#w (taba.zip tabb)).1 (high + 1#w)
        else addBack tabb fuel (q - 1#w) (addcLoop 0#w (taba.zip tabb)).1 high := rfl
  generalize addcLoop 0#w (taba.zip tabb) = s at *
  rw [unfolded]
  by_cases carries : s.2 ≠ 0#w
  · have carry : s.2.toNat = 1 := by
      have some_ : s.2.toNat ≠ 0 := fun none => carries (BitVec.eq_of_toNat_eq none)
      omega
    rw [carry, Nat.mul_one] at sum
    have bound := high.isLt
    rw [if_pos carries]
    by_cases wraps : high + 1#w = 0#w
    · have top : high.toNat + 1 = 2^w := by
        have value := congrArg BitVec.toNat wraps
        rw [BitVec.toNat_add, one, BitVec.toNat_zero] at value
        by_contra below
        rw [Nat.mod_eq_of_lt (by omega)] at value
        omega
      refine .inr ⟨by rw [if_pos wraps], ?_⟩
      rw [← top, Nat.add_mul]
      rw [Nat.mul_comm high.toNat]
      omega
    · have value : (high + 1#w).toNat = high.toNat + 1 := by
        rw [BitVec.toNat_add, one]
        apply Nat.mod_eq_of_lt
        by_contra over_
        apply wraps
        apply BitVec.eq_of_toNat_eq
        have top : high.toNat + 1 = 2^w := by omega
        rw [BitVec.toNat_add, one, top, Nat.mod_self, BitVec.toNat_zero]
      refine .inl ⟨high + 1#w, by rw [if_neg wraps], ?_⟩
      rw [value, Nat.mul_add]
      omega
  · have none : s.2.toNat = 0 := by rw [Decidable.not_not.mp carries, BitVec.toNat_zero]
    rw [none, Nat.mul_zero, Nat.add_zero] at sum
    refine .inl ⟨high, by rw [if_neg carries], ?_⟩
    omega

section

variable {tabb : List (BitVec w)} {k fuel : Nat} (enough : k < fuel) {q : BitVec w}
  {taba : List (BitVec w)} {high : BitVec w} (lengths : taba.length = tabb.length)

include enough lengths

/-- The loop ends after the correction that makes the difference nonnegative, the one of number
`k + 1`. -/
theorem addBack_spec (digits : k < q.toNat)
    (below : unsigned taba + 2^(w * tabb.length) * high.toNat + k * unsigned tabb
      < 2^w * 2^(w * tabb.length)) (reaches : 2^w * 2^(w * tabb.length)
      ≤ unsigned taba + 2^(w * tabb.length) * high.toNat + (k + 1) * unsigned tabb) :
    ∃ q' taba', addBack tabb fuel q taba high = some (q', taba')
      ∧ q'.toNat + (k + 1) = q.toNat ∧ taba'.length = tabb.length
      ∧ unsigned taba' + 2^w * 2^(w * tabb.length)
        = unsigned taba + 2^(w * tabb.length) * high.toNat + (k + 1) * unsigned tabb := by
  have one : (1#w).toNat = 1 := BitVec.toNat_one positive
  induction k generalizing fuel q taba high with
  | zero =>
      obtain ⟨fuel, rfl⟩ : ∃ n, fuel = n + 1 := ⟨fuel - 1, by omega⟩
      have less : (q - 1#w).toNat + 1 = q.toNat := by
        rw [BitVec.toNat_sub_of_le (by rw [BitVec.le_def, one]; omega), one]
        omega
      obtain ⟨taba', length, ⟨high', -, value⟩ | ⟨run, value⟩⟩ :=
        addBack_round positive tabb fuel q high lengths
      · exfalso
        have limbs := unsigned_lt taba'
        rw [length] at limbs
        have digit := Nat.mul_le_mul_left (2^(w * tabb.length)) high'.isLt
        rw [Nat.mul_succ, Nat.mul_comm _ (2^w)] at digit
        omega
      · exact ⟨q - 1#w, taba', run, less, length, by omega⟩
  | succ k ih =>
      obtain ⟨fuel, rfl⟩ : ∃ n, fuel = n + 1 := ⟨fuel - 1, by omega⟩
      have less : (q - 1#w).toNat + 1 = q.toNat := by
        rw [BitVec.toNat_sub_of_le (by rw [BitVec.le_def, one]; omega), one]
        omega
      have more : (k + 1) * unsigned tabb = k * unsigned tabb + unsigned tabb := Nat.succ_mul _ _
      have more' : (k + 1 + 1) * unsigned tabb = k * unsigned tabb + 2 * unsigned tabb := by ring
      obtain ⟨taba', length, ⟨high', run, value⟩ | ⟨run, value⟩⟩ :=
        addBack_round positive tabb fuel q high lengths
      · have enough' : k < fuel := by omega
        have digits' : k < (q - 1#w).toNat := by omega
        have below' : unsigned taba' + 2^(w * tabb.length) * high'.toNat + k * unsigned tabb
            < 2^w * 2^(w * tabb.length) := by omega
        have reaches' : 2^w * 2^(w * tabb.length)
            ≤ unsigned taba' + 2^(w * tabb.length) * high'.toNat + (k + 1) * unsigned tabb := by
          omega
        obtain ⟨q', r, rest, digit, length', total⟩ := ih enough' length digits' below' reaches'
        exact ⟨q', r, run.trans rest, by omega, length', by omega⟩
      · exfalso
        omega

/-- Corrections end with the digit: `total` says that the limbs hold `window - q * tabb`. -/
theorem addBack_divides {window : Nat}
    (total : unsigned taba + 2^(w * tabb.length) * high.toNat + q.toNat * unsigned tabb
      = window + 2^w * 2^(w * tabb.length))
    (below : window + k * unsigned tabb < q.toNat * unsigned tabb)
    (reaches : q.toNat * unsigned tabb ≤ window + (k + 1) * unsigned tabb) :
    ∃ q' r, addBack tabb fuel q taba high = some (q', r)
      ∧ window = q'.toNat * unsigned tabb + unsigned r ∧ unsigned r < unsigned tabb
      ∧ r.length = tabb.length := by
  have digits : k < q.toNat := by
    by_contra few
    have atMost := Nat.mul_le_mul_right (unsigned tabb) (Nat.le_of_not_lt few)
    omega
  have more : (k + 1) * unsigned tabb = k * unsigned tabb + unsigned tabb := Nat.succ_mul _ _
  have below' : unsigned taba + 2^(w * tabb.length) * high.toNat + k * unsigned tabb
      < 2^w * 2^(w * tabb.length) := by omega
  have reaches' : 2^w * 2^(w * tabb.length)
      ≤ unsigned taba + 2^(w * tabb.length) * high.toNat + (k + 1) * unsigned tabb := by omega
  obtain ⟨q', r, run, digit, length, value⟩ :=
    addBack_spec positive enough lengths digits below' reaches'
  rw [← digit, Nat.add_mul] at total
  exact ⟨q', r, run, by omega, by omega, length⟩

end

end Correction

section Digits

/-- The divisor of `mp_divnorm` has the high bit of its high limb set. -/
structure NormalDivisor (tabb : List (BitVec w)) : Prop where
  nonempty : tabb ≠ []
  top : (tabb.getD (tabb.length - 1) 0#w).msb = true

variable {tabb taba : List (BitVec w)}

section

variable (normal : NormalDivisor tabb)

include normal

theorem NormalDivisor.positive : 0 < w := by
  by_contra none
  have zero : w = 0 := by omega
  subst zero
  have top := normal.top
  simp [BitVec.msb] at top

/-- The high limb and the number under it -/
theorem NormalDivisor.split :
    ∃ L, L < 2^(w * (tabb.length - 1))
      ∧ unsigned tabb = 2^(w * (tabb.length - 1)) * (tabb.getD (tabb.length - 1) 0#w).toNat + L := by
  obtain ⟨low, parts⟩ := limbs_split (a := ⟨tabb⟩) normal.nonempty
  rw [JSBigInt.limb, JSBigInt.len] at parts
  dsimp only at parts
  have length : tabb.length - 1 = low.length := by
    have lengths := congrArg List.length parts
    rw [List.length_append, List.length_singleton] at lengths
    omega
  have value := congrArg unsigned parts
  rw [unsigned_append, unsigned_cons, unsigned_nil, Nat.mul_zero, Nat.add_zero] at value
  refine ⟨unsigned low, ?_, ?_⟩
  · rw [length]
    exact unsigned_lt low
  · rw [← length] at value
    omega

theorem NormalDivisor.scale : 2^(w * tabb.length) = 2^w * 2^(w * (tabb.length - 1)) := by
  have some_ := List.length_pos_iff.mpr normal.nonempty
  have length : tabb.length = tabb.length - 1 + 1 := by omega
  rw [← Nat.pow_add]
  congr 1
  conv_lhs => rw [length, Nat.mul_succ, Nat.add_comm]

theorem NormalDivisor.half : 2^(w * tabb.length) ≤ 2 * unsigned tabb := by
  obtain ⟨L, -, value⟩ := normal.split
  have top := Nat.mul_le_mul_left (2^(w * (tabb.length - 1))) (half_le normal.top)
  rw [normal.scale, value]
  calc
    2^w * 2^(w * (tabb.length - 1)) = 2^(w * (tabb.length - 1)) * 2^w := Nat.mul_comm _ _
    _ ≤ 2^(w * (tabb.length - 1)) * (2 * (tabb.getD (tabb.length - 1) 0#w).toNat) := top
    _ ≤ _ := by
        rw [Nat.mul_left_comm]
        omega

theorem NormalDivisor.pos : 0 < unsigned tabb := by
  have half := normal.half
  have scale := Nat.two_pow_pos (w * tabb.length)
  omega

theorem divnormFirst_spec (lengths : taba.length = tabb.length) :
    unsigned taba = (divnormFirst taba tabb).1.toNat * unsigned tabb
        + unsigned (divnormFirst taba tabb).2
      ∧ unsigned (divnormFirst taba tabb).2 < unsigned tabb
      ∧ (divnormFirst taba tabb).2.length = tabb.length := by
  have positive := normal.positive
  have one : (1#w).toNat = 1 := BitVec.toNat_one positive
  have order := compareLimbs_reverse (taba.zip tabb)
  rw [List.map_fst_zip (le_of_eq lengths), List.map_snd_zip (ge_of_eq lengths)] at order
  rw [divnormFirst]
  by_cases less : unsigned taba < unsigned tabb
  · have sign : compareLimbs (taba.zip tabb).reverse = -1 := by
      rw [order]
      exact Int.sign_eq_neg_one_of_neg (by omega)
    rw [if_pos sign]
    exact ⟨by simp, less, lengths⟩
  · have sign : ¬ compareLimbs (taba.zip tabb).reverse = -1 := by
      rw [order, Int.sign_eq_neg_one_iff_neg]
      omega
    have zero : (0#w).toNat ≤ 1 := by simp
    obtain ⟨difference, length⟩ := mpSub_spec positive lengths zero
    rw [BitVec.toNat_zero, Nat.add_zero, lengths] at difference
    have bound := unsigned_lt taba
    have half := normal.half
    rw [lengths] at bound
    rw [if_neg sign]
    dsimp only
    have resBound := unsigned_lt (mpSub taba tabb 0#w).1
    rw [length, lengths] at resBound
    have noBorrow : (mpSub taba tabb 0#w).2.toNat = 0 := by
      by_contra borrow
      have scaled := Nat.mul_le_mul_left (2^(w * tabb.length)) (Nat.pos_of_ne_zero borrow)
      omega
    rw [noBorrow, Nat.mul_zero] at difference
    refine ⟨?_, by omega, length.trans lengths⟩
    rw [one]
    omega

end

def estimate (b1 b1Inv v below : BitVec w) : BitVec w :=
  if b1 ≤ v then BitVec.allOnes w
  else if b1Inv ≠ 0#w then (udiv1norm v below b1 b1Inv).1
  else (divDouble v below b1).1

theorem estimate_spec {b1 b1Inv : BitVec w} (top : b1.msb = true)
    (reciprocal : b1Inv = 0#w ∨ b1Inv = udiv1normInit b1) (v below : BitVec w) :
    (estimate b1 b1Inv v below).toNat * b1.toNat ≤ v.toNat * 2^w + below.toNat
      ∧ (v.toNat * 2^w + below.toNat < ((estimate b1 b1Inv v below).toNat + 1) * b1.toNat
        ∨ (estimate b1 b1Inv v below).toNat + 1 = 2^w) := by
  have pos := Nat.two_pow_pos w
  rw [estimate]
  by_cases large : b1 ≤ v
  · have value : (BitVec.allOnes w).toNat + 1 = 2^w := by
      rw [BitVec.toNat_allOnes]
      omega
    rw [if_pos large]
    refine ⟨?_, .inr value⟩
    calc
      (BitVec.allOnes w).toNat * b1.toNat ≤ 2^w * v.toNat :=
        Nat.mul_le_mul (by omega) (BitVec.le_def.mp large)
      _ ≤ v.toNat * 2^w + below.toNat := by
        rw [Nat.mul_comm]
        exact Nat.le_add_right _ _
  · have small : v < b1 := BitVec.not_le.mp large
    have less := BitVec.lt_def.mp small
    have plain : (if b1Inv ≠ 0#w then (udiv1norm v below b1 b1Inv).1 else (divDouble v below b1).1)
        = (divDouble v below b1).1 := by
      by_cases none : b1Inv = 0#w
      · rw [if_neg (not_not.mpr none)]
      · rw [if_pos none, reciprocal.resolve_left none, udiv1norm_eq top small]
    rw [if_neg large, plain, (divDouble_spec small below).1]
    refine ⟨Nat.div_mul_le_self _ _, .inl ?_⟩
    exact Nat.lt_mul_of_div_lt (Nat.lt_succ_self _) (by omega)

/-- The window of a step: the number under its two high limbs, and these -/
theorem window_split {window : List (BitVec w)} {n : Nat} (length : window.length = n + 1)
    (some_ : 0 < n) :
    ∃ rest, rest < 2^(w * (n - 1)) ∧ unsigned window = 2^(w * (n - 1))
        * ((window.getD n 0#w).toNat * 2^w + (window.getD (n - 1) 0#w).toNat) + rest
      ∧ unsigned window
        = unsigned (window.take n) + 2^(w * n) * (window.getD n 0#w).toNat := by
  obtain ⟨n, rfl⟩ : ∃ m, n = m + 1 := ⟨n - 1, by omega⟩
  have whole : window.take (n + 2) = window := List.take_of_length_le (le_of_eq length)
  have parts := @take_two w window n (ge_of_eq length)
  have high : window.take (n + 1) = window.take n ++ [window.getD n 0#w] := by
    have inside : n < window.length := by omega
    rw [List.take_add_one]
    simp [inside]
  have low : (window.take n).length = n := by
    rw [List.length_take]
    omega
  have value := congrArg unsigned (whole.symm.trans parts)
  rw [unsigned_append, low, unsigned_cons, unsigned_cons, unsigned_nil, Nat.mul_zero,
    Nat.add_zero] at value
  have lowBound := unsigned_lt (window.take n)
  rw [low] at lowBound
  rw [Nat.add_sub_cancel]
  refine ⟨unsigned (window.take n), lowBound, ?_, ?_⟩
  · rw [value]
    ring
  · rw [high, unsigned_append, low, unsigned_cons, unsigned_nil, value, Nat.mul_succ, Nat.pow_add]
    ring

/-- A step divides the window, whose high limbs are below the divisor. -/
theorem divnormStep_spec (normal : NormalDivisor tabb) {fuel : Nat} (enough : 2 ≤ fuel)
    {b1Inv : BitVec w}
    (reciprocal : b1Inv = 0#w ∨ b1Inv = udiv1normInit (tabb.getD (tabb.length - 1) 0#w))
    (a : BitVec w) {r : List (BitVec w)} (length : r.length = tabb.length)
    (small : unsigned r < unsigned tabb) :
    ∃ q r', divnormStep fuel tabb (tabb.getD (tabb.length - 1) 0#w) b1Inv (a :: r) = some (q, r')
      ∧ unsigned (a :: r) = q.toNat * unsigned tabb + unsigned r' ∧ unsigned r' < unsigned tabb
      ∧ r'.length = tabb.length := by
  have positive := normal.positive
  have windowLength : (a :: r).length = tabb.length + 1 := by rw [List.length_cons, length]
  obtain ⟨rest, restSmall, high, low⟩ :=
    window_split windowLength (List.length_pos_iff.mpr normal.nonempty)
  obtain ⟨L, LSmall, divisor⟩ := normal.split
  have fits : unsigned (a :: r) < 2^w * unsigned tabb := by
    have limb := a.isLt
    rw [unsigned_cons]
    calc
      a.toNat + 2^w * unsigned r < 2^w * (unsigned r + 1) := by rw [Nat.mul_succ]; omega
      _ ≤ 2^w * unsigned tabb := Nat.mul_le_mul_left _ small
  have lowLength : ((a :: r).take tabb.length).length = tabb.length := by
    rw [List.length_take, windowLength]
    omega
  have unfolded : divnormStep fuel tabb (tabb.getD (tabb.length - 1) 0#w) b1Inv (a :: r)
      = let v := (a :: r).getD tabb.length 0#w
        let q := estimate (tabb.getD (tabb.length - 1) 0#w) b1Inv v
          ((a :: r).getD (tabb.length - 1) 0#w)
        let s := mpSubMul1 q ((a :: r).take tabb.length) tabb 0#w
        if v < v - s.2 then addBack tabb fuel q s.1 (v - s.2) else some (q, s.1) := rfl
  dsimp only at unfolded
  obtain ⟨under, above⟩ := estimate_spec normal.top reciprocal ((a :: r).getD tabb.length 0#w)
    ((a :: r).getD (tabb.length - 1) 0#w)
  generalize estimate (tabb.getD (tabb.length - 1) 0#w) b1Inv ((a :: r).getD tabb.length 0#w)
    ((a :: r).getD (tabb.length - 1) 0#w) = q at *
  generalize (a :: r).getD tabb.length 0#w = v at *
  generalize (a :: r).getD (tabb.length - 1) 0#w = below at *
  have bounds := @digit_estimate (2^w) (2^(w * (tabb.length - 1)))
    (tabb.getD (tabb.length - 1) 0#w).toNat L v.toNat below.toNat rest q.toNat
    (by exact_mod_cast half_le normal.top) (by positivity) (by omega) (by exact_mod_cast LSmall)
    (by omega) (by exact_mod_cast restSmall)
    (by rw [high, divisor] at fits; exact_mod_cast fits) (by omega) (by exact_mod_cast q.isLt)
    (by exact_mod_cast under) (by exact_mod_cast above)
  have next : unsigned (a :: r) < (q.toNat + 1) * unsigned tabb := by
    rw [high, divisor]
    exact_mod_cast bounds.1
  have close : q.toNat * unsigned tabb ≤ unsigned (a :: r) + 2 * unsigned tabb := by
    rw [high, divisor]
    exact_mod_cast bounds.2
  obtain ⟨difference, sLength⟩ := mpSubMul1_spec q lowLength 0#w
  rw [lowLength, BitVec.toNat_zero, Nat.add_zero, Nat.mul_comm (unsigned tabb)] at difference
  rw [lowLength] at sLength
  have resBound := unsigned_lt (mpSubMul1 q ((a :: r).take tabb.length) tabb 0#w).1
  rw [sLength] at resBound
  rw [unfolded]
  generalize mpSubMul1 q ((a :: r).take tabb.length) tabb 0#w = s at *
  generalize unsigned ((a :: r).take tabb.length) = lowValue at *
  generalize unsigned (a :: r) = window at *
  have vBound := v.isLt
  have sBound := s.2.isLt
  have half := normal.half
  have divisorBound := unsigned_lt tabb
  have more : (q.toNat + 1) * unsigned tabb = q.toNat * unsigned tabb + unsigned tabb :=
    Nat.succ_mul _ _
  have wrapped := wrapped_sub vBound sBound
  by_cases borrow : v.toNat < s.2.toNat
  · -- the estimate is too large, and one or two corrections are due
    have high' : (v - s.2).toNat = 2^w - s.2.toNat + v.toNat := by
      rw [BitVec.toNat_sub, wrapped, if_pos borrow]
    have flag : v < v - s.2 := by
      rw [BitVec.lt_def, high']
      omega
    have total : unsigned s.1 + 2^(w * tabb.length) * (v - s.2).toNat + q.toNat * unsigned tabb
        = window + 2^w * 2^(w * tabb.length) := by
      rw [high', Nat.mul_add, Nat.mul_sub, Nat.mul_comm (2^w)]
      have scaled := Nat.mul_le_mul_left (2^(w * tabb.length)) sBound.le
      omega
    have negative_ : window < q.toNat * unsigned tabb := by
      have scaled := Nat.mul_le_mul_left (2^(w * tabb.length)) borrow
      rw [Nat.mul_succ] at scaled
      omega
    rw [if_pos flag]
    by_cases once : q.toNat * unsigned tabb ≤ window + unsigned tabb
    · exact addBack_divides positive (by omega : 0 < fuel) sLength total (by omega) (by omega)
    · exact addBack_divides positive (by omega : 1 < fuel) sLength total (by omega) (by omega)
  · have high' : (v - s.2).toNat = v.toNat - s.2.toNat := by
      rw [BitVec.toNat_sub, wrapped, if_neg borrow]
    have flag : ¬ v < v - s.2 := by
      rw [BitVec.lt_def, high']
      omega
    have same : v.toNat = s.2.toNat := by
      by_contra differs
      have scaled := Nat.mul_le_mul_left (2^(w * tabb.length))
        (show s.2.toNat + 1 ≤ v.toNat by omega)
      rw [Nat.mul_succ] at scaled
      omega
    rw [if_neg flag]
    rw [same] at low
    refine ⟨q, s.1, rfl, ?_, ?_, sLength⟩
    · omega
    · omega

theorem divnormLoop_spec {step : List (BitVec w) → Option (BitVec w × List (BitVec w))}
    (divides : ∀ a r, r.length = tabb.length → unsigned r < unsigned tabb → ∃ q r',
      step (a :: r) = some (q, r') ∧ unsigned (a :: r) = q.toNat * unsigned tabb + unsigned r'
        ∧ unsigned r' < unsigned tabb ∧ r'.length = tabb.length) {window : List (BitVec w)}
    (length : window.length = tabb.length) (small : unsigned window < unsigned tabb)
    (taba : List (BitVec w)) :
    ∃ q r, divnormLoop step window taba = some (q, r)
      ∧ unsigned taba + 2^(w * taba.length) * unsigned window
        = unsigned q * unsigned tabb + unsigned r
      ∧ unsigned r < unsigned tabb ∧ r.length = tabb.length ∧ q.length = taba.length := by
  induction taba with
  | nil => exact ⟨[], window, rfl, by simp, small, length, rfl⟩
  | cons a taba ih =>
      obtain ⟨q, r, run, value, below, rLength, qLength⟩ := ih
      obtain ⟨digit, r', step', column, below', length'⟩ := divides a r rLength below
      refine ⟨digit :: q, r', ?_, ?_, below', length', by simp [qLength]⟩
      · rw [divnormLoop, run]
        dsimp only
        rw [step']
      · rw [unsigned_cons] at column
        simp only [unsigned_cons, pow_succ_length]
        calc
          a.toNat + 2^w * unsigned taba + 2^w * 2^(w * taba.length) * unsigned window
            = a.toNat + 2^w * (unsigned taba + 2^(w * taba.length) * unsigned window) := by ring
          _ = (a.toNat + 2^w * unsigned r) + 2^w * (unsigned q * unsigned tabb) := by
              rw [value]
              ring
          _ = _ := by
              rw [column]
              ring

/-- Quotient and remainder in their limbs -/
structure Divided (taba tabb : List (BitVec w)) (result : List (BitVec w) × List (BitVec w)) :
    Prop where
  quotient : unsigned result.1 = unsigned taba / unsigned tabb
  remainder : unsigned result.2 = unsigned taba % unsigned tabb
  quotientLength : result.1.length = taba.length - tabb.length + 1
  remainderLength : result.2.length = tabb.length

theorem Divided.of_eq {q r : List (BitVec w)}
    (value : unsigned taba = unsigned q * unsigned tabb + unsigned r)
    (small : unsigned r < unsigned tabb) (qLength : q.length = taba.length - tabb.length + 1)
    (rLength : r.length = tabb.length) : Divided taba tabb (q, r) := by
  have quotient : unsigned taba / unsigned tabb = unsigned q := by
    apply Nat.div_eq_of_lt_le
    · omega
    · rw [Nat.succ_mul]
      omega
  have remainder : unsigned taba % unsigned tabb = unsigned r := by
    have division := Nat.div_add_mod (unsigned taba) (unsigned tabb)
    rw [quotient, Nat.mul_comm] at division
    omega
  exact ⟨quotient.symm, remainder.symm, qLength, rLength⟩

theorem Divided.unique {result result' : List (BitVec w) × List (BitVec w)}
    (left : Divided taba tabb result) (right : Divided taba tabb result') : result = result' := by
  apply Prod.ext
  · exact unsigned_injective (left.quotientLength.trans right.quotientLength.symm)
      (left.quotient.trans right.quotient.symm)
  · exact unsigned_injective (left.remainderLength.trans right.remainderLength.symm)
      (left.remainder.trans right.remainder.symm)

theorem divnormWith_spec (normal : NormalDivisor tabb) {fuel : Nat} (enough : 2 ≤ fuel)
    {b1Inv : BitVec w}
    (reciprocal : b1Inv = 0#w ∨ b1Inv = udiv1normInit (tabb.getD (tabb.length - 1) 0#w))
    (long : tabb.length ≤ taba.length) :
    ∃ result, divnormWith fuel b1Inv taba tabb = some result ∧ Divided taba tabb result := by
  have topLength : (taba.drop (taba.length - tabb.length)).length = tabb.length := by
    rw [List.length_drop]
    omega
  have lowLength : (taba.take (taba.length - tabb.length)).length = taba.length - tabb.length := by
    rw [List.length_take]
    omega
  obtain ⟨first, small, length⟩ := divnormFirst_spec normal topLength
  have divides (a : BitVec w) (r : List (BitVec w)) (lengths : r.length = tabb.length)
      (below : unsigned r < unsigned tabb) := divnormStep_spec normal enough reciprocal a lengths below
  obtain ⟨q, r, run, value, below, rLength, qLength⟩ :=
    divnormLoop_spec divides length small (taba.take (taba.length - tabb.length))
  refine ⟨(q ++ [(divnormFirst (taba.drop (taba.length - tabb.length)) tabb).1], r), ?_, ?_⟩
  · rw [divnormWith]
    dsimp only
    rw [run]
    rfl
  · apply Divided.of_eq _ below _ rLength
    · have parts := unsigned_append (taba.take (taba.length - tabb.length))
        (taba.drop (taba.length - tabb.length))
      rw [List.take_append_drop, first] at parts
      rw [parts, unsigned_append, qLength, unsigned_cons, unsigned_nil]
      calc
        _ = (unsigned (taba.take (taba.length - tabb.length))
              + 2^(w * (taba.take (taba.length - tabb.length)).length)
                * unsigned (divnormFirst (taba.drop (taba.length - tabb.length)) tabb).2)
              + 2^(w * (taba.take (taba.length - tabb.length)).length)
                * (divnormFirst (taba.drop (taba.length - tabb.length)) tabb).1.toNat
                * unsigned tabb := by ring
        _ = _ := by
            rw [value]
            ring
    · rw [List.length_append, List.length_singleton, qLength, lowLength]

theorem single_limb (single : tabb.length = 1) :
    unsigned tabb = (tabb.getD (tabb.length - 1) 0#w).toNat := by
  obtain ⟨b, rfl⟩ := List.length_eq_one_iff.mp single
  simp

theorem mpDiv1_divided (normal : NormalDivisor tabb) (single : tabb.length = 1)
    (some_ : 1 ≤ taba.length) :
    Divided taba tabb ((mpDiv1 taba (tabb.getD (tabb.length - 1) 0#w) 0#w).1,
      [(mpDiv1 taba (tabb.getD (tabb.length - 1) 0#w) 0#w).2]) := by
  have divisor := single_limb single
  have pos := normal.pos
  have small : 0#w < tabb.getD (tabb.length - 1) 0#w := by
    rw [BitVec.lt_def, ← divisor, BitVec.toNat_zero]
    exact pos
  obtain ⟨value, below, length⟩ :=
    @div1Loop_spec w (divDouble · · _) _ _ (fun _ _ _ => rfl) small taba
  rw [← mpDiv1, BitVec.toNat_zero, Nat.mul_zero, Nat.add_zero, ← divisor] at value
  rw [← mpDiv1, BitVec.lt_def, ← divisor] at below
  rw [← mpDiv1] at length
  apply Divided.of_eq
  · simpa using value.symm
  · simpa using below
  · rw [length, single]
    omega
  · rw [single]
    rfl

section

variable (normal : NormalDivisor tabb) {fuel : Nat} (enough : 2 ≤ fuel)
  (long : tabb.length ≤ taba.length)

include normal enough long

theorem plainDivnorm_spec :
    ∃ result, plainDivnorm fuel taba tabb = some result ∧ Divided taba tabb result := by
  rw [plainDivnorm]
  by_cases single : tabb.length = 1
  · have some_ : 1 ≤ taba.length := by omega
    rw [if_pos single]
    exact ⟨_, rfl, mpDiv1_divided normal single some_⟩
  · rw [if_neg single]
    exact divnormWith_spec normal enough (.inl rfl) long

/-- The reciprocals do not change a limb. -/
theorem mpDivnorm_eq : mpDivnorm fuel taba tabb = plainDivnorm fuel taba tabb := by
  rw [mpDivnorm, plainDivnorm]
  by_cases single : tabb.length = 1
  · have small : 0#w < tabb.getD (tabb.length - 1) 0#w := by
      rw [BitVec.lt_def, ← single_limb single, BitVec.toNat_zero]
      exact normal.pos
    rw [if_pos single, if_pos single, mpDiv1norm_eq normal.top small]
  · have reciprocal : (if udiv1normThreshold ≤ taba.length - tabb.length
          then udiv1normInit (tabb.getD (tabb.length - 1) 0#w) else 0#w) = 0#w
        ∨ (if udiv1normThreshold ≤ taba.length - tabb.length
          then udiv1normInit (tabb.getD (tabb.length - 1) 0#w) else 0#w)
            = udiv1normInit (tabb.getD (tabb.length - 1) 0#w) := by
      by_cases threshold : udiv1normThreshold ≤ taba.length - tabb.length
      · exact .inr (if_pos threshold)
      · exact .inl (if_neg threshold)
    obtain ⟨result, run, divided⟩ := divnormWith_spec normal enough reciprocal long
    obtain ⟨result', run', divided'⟩ := @divnormWith_spec w _ _ normal _ enough 0#w (.inl rfl) long
    rw [if_neg single, if_neg single, run, run', divided.unique divided']

end

end Digits

end PrimJs.BigInt
