import PrimJs.Numeric.BigIntFloatExact

/-! Comparisons of `BigInt` with the numbers of other types. -/

namespace PrimJs.BigInt

open Limbs Binary64

variable {w : Nat} {limbBits : LimbBits}

section Float64

/-- Two negative operands of different exponents: their order is taken for that of the absolute
values. -/
def Misordered (x : Int) (b : BitVec 64) : Prop :=
  x < 0 ∧ b.msb = true ∧ isFinite b = true ∧ units b ≠ 0
    ∧ (x.natAbs.log2 : Int) ≠ (exponent b : Int) - 1023

theorem value_eq_zero (positive : 0 < w) {a : JSBigInt w} (normal : Normalized a.tab) :
    a.len = 1 ∧ a.limb 0 = 0#w ↔ a.value = 0 := by
  constructor
  · rintro ⟨single, zero⟩
    rw [JSBigInt.value, limb_zero single, zero, signed_singleton, BitVec.toInt_zero]
  · intro zero
    have single : a.len = 1 := by
      by_contra many
      exact value_ne_zero positive normal many zero
    refine ⟨single, BitVec.eq_of_toInt_eq ?_⟩
    rw [← signed_singleton, ← limb_zero single, BitVec.toInt_zero]
    exact zero

theorem toNat_sign (positive : 0 < w) (a : JSBigInt w) :
    ((jsBigintSign a).toNat : Int) = if a.value < 0 then 1 else 0 := by
  rw [jsBigintSign_eq positive, JSBigInt.value]
  by_cases below : signed a.tab < 0
  · rw [if_pos ((negative_iff _).mpr below), if_pos below, BitVec.toNat_one positive]
    rfl
  · rw [if_neg (mt (negative_iff _).mp below), if_neg below, BitVec.toNat_zero]
    rfl

theorem toNat_msb (b : BitVec 64) : ((b >>> 63).toNat : Int) = if b.msb then 1 else 0 := by
  rw [show b >>> 63 = if b.msb then 1#64 else 0#64 from signBit (by decide) b]
  by_cases sign : b.msb = true <;> simp [sign]

theorem units_eq_zero (b : BitVec 64) : units b = 0 ↔ exponent b = 0 ∧ fraction b = 0 := by
  have pattern := pattern_eq b
  have value := natAbs_units b
  constructor
  · intro zero
    rw [zero, Int.natAbs_zero, show 0 = Binary64.magnitude 0 from rfl] at value
    have same := magnitude_strictMono.injective value
    omega
  · rintro ⟨exponent, fraction⟩
    rw [magnitude_subnormal b exponent, fraction] at value
    exact Int.natAbs_eq_zero.mp value

theorem toNat_aligned (b : BitVec 64) :
    ((mantissaBits b ||| 1#64 <<< 52) <<< 11).toNat = (2^52 + fraction b) * 2^11 := by
  have bound := fraction_lt b
  rw [BitVec.toNat_shiftLeft, toNat_leading, Nat.shiftLeft_eq]
  omega

/-- The comparison of the absolute values -/
theorem compareMagnitudes {a : JSBigInt limbBits.width} (normal : Normalized a.tab)
    (nonzero : a.value ≠ 0) (b : BitVec 64) (sign : Int) :
    (if (jsBigintGetMantExp a).2 ≠ (exponent b : Int) - 1023 then
        (if (jsBigintGetMantExp a).2 < (exponent b : Int) - 1023 then -1 else 1)
      else if (jsBigintGetMantExp a).1 < (mantissaBits b ||| 1#64 <<< 52) <<< 11 then 2 * sign - 1
      else if (mantissaBits b ||| 1#64 <<< 52) <<< 11 < (jsBigintGetMantExp a).1 then 1 - 2 * sign
      else 0)
    = if a.value.natAbs * one < Binary64.magnitude (b.toNat % 2^63) then
        (if (a.value.natAbs.log2 : Int) ≠ (exponent b : Int) - 1023 then -1 else 2 * sign - 1)
      else if Binary64.magnitude (b.toNat % 2^63) < a.value.natAbs * one then
        (if (a.value.natAbs.log2 : Int) ≠ (exponent b : Int) - 1023 then 1 else 1 - 2 * sign)
      else 0 := by
  obtain ⟨mant, run, -, jam⟩ := jsBigintGetMantExp_spec normal nonzero
  have some_ := Int.natAbs_ne_zero.mpr nonzero
  simp only [run]
  rcases lt_trichotomy (a.value.natAbs.log2 : Int) ((exponent b : Int) - 1023) with
    below | same | above
  · rw [if_pos below.ne, if_pos below, if_pos (lt_magnitude below), if_pos below.ne]
  · obtain ⟨smaller, larger⟩ := compare_magnitude (n := a.value.natAbs)
      (show exponent b = a.value.natAbs.log2 + 1023 by omega)
    have even : Even ((2^52 + fraction b) * 2^11) := ⟨(2^52 + fraction b) * 2^10, by ring⟩
    have pos := Nat.two_pow_pos a.value.natAbs.log2
    have less : mant < (mantissaBits b ||| 1#64 <<< 52) <<< 11
        ↔ a.value.natAbs * one < Binary64.magnitude (b.toNat % 2^63) := by
      rw [BitVec.lt_def, toNat_aligned, jam.lt_iff pos even, smaller]
    have more : (mantissaBits b ||| 1#64 <<< 52) <<< 11 < mant
        ↔ Binary64.magnitude (b.toNat % 2^63) < a.value.natAbs * one := by
      rw [BitVec.lt_def, toNat_aligned, jam.gt_iff pos even, larger]
    simp only [same, ne_eq, not_true_eq_false, if_false, less, more]
  · have order := magnitude_lt some_ above
    rw [if_pos above.ne', if_neg above.not_gt, if_neg order.not_gt, if_pos order,
      if_pos above.ne']

theorem units_lt (b : BitVec 64) (x : Int) (signs : x < 0 ↔ b.msb = true) :
    (x * one < units b ↔ if x < 0 then Binary64.magnitude (b.toNat % 2^63) < x.natAbs * one
        else x.natAbs * one < Binary64.magnitude (b.toNat % 2^63))
      ∧ (units b < x * one ↔ if x < 0 then x.natAbs * one < Binary64.magnitude (b.toNat % 2^63)
        else Binary64.magnitude (b.toNat % 2^63) < x.natAbs * one) := by
  have product : (x.natAbs * one : Nat) = |x| * (one : Int) := by
    rw [Nat.cast_mul, Int.abs_eq_natAbs]
  generalize x.natAbs * one = n at *
  rw [units]
  by_cases below : x < 0
  · rw [if_pos (signs.mp below), if_pos below, if_pos below]
    rw [abs_of_neg below] at product
    constructor <;> constructor <;> intro order <;> linarith
  · rw [if_neg (mt signs.mpr below), if_neg below, if_neg below]
    rw [abs_of_nonneg (not_lt.mp below)] at product
    constructor <;> constructor <;> intro order <;> linarith

/-- The result is exact, but for the sign of misordered operands. -/
theorem jsBigintFloat64Cmp_eq {a : JSBigInt limbBits.width} (normal : Normalized a.tab)
    (b : BitVec 64) [Decidable (Misordered a.value b)] :
    jsBigintFloat64Cmp a b
      = if Misordered a.value b then -exactCmp a.value b else exactCmp a.value b := by
  have positive : 0 < limbBits.width := by cases limbBits <;> decide
  rw [jsBigintFloat64Cmp, exponentBits_eq, toNat_sign positive, toNat_msb]
  simp only [mantissaBits_eq_zero, value_eq_zero positive normal]
  by_cases special : exponent b = 2047
  · have plain : ¬ Misordered a.value b := by simp [Misordered, isFinite, special]
    rw [if_pos special, if_neg plain]
    by_cases infinite : fraction b = 0
    · have none_ : mantissaBits b = 0#64 := (mantissaBits_eq_zero b).mpr infinite
      rw [if_neg (not_not.mpr none_),
        exactCmp_infinite _ (by simp [isInfinite, special, infinite])]
      split_ifs <;> rfl
    · rw [if_pos (mt (mantissaBits_eq_zero b).mp infinite),
        exactCmp_nan _ (by simp [isNaN, special, infinite])]
  have finite : isFinite b = true := by simp [isFinite, special]
  have pos : (0 : Int) < one := by exact_mod_cast one_pos
  rw [if_neg special, exactCmp_finite _ finite]
  by_cases zero : exponent b = 0 ∧ fraction b = 0
  · have none_ := (units_eq_zero b).mpr zero
    have plain : ¬ Misordered a.value b := fun misordered => misordered.2.2.2.1 none_
    rw [if_pos zero, if_neg plain, none_]
    have below : a.value * one < 0 ↔ a.value < 0 := by
      rw [← not_le, mul_nonneg_iff_of_pos_right pos, not_le]
    simp only [below, mul_pos_iff_of_pos_right pos]
    split_ifs <;> omega
  have some_ : units b ≠ 0 := mt (units_eq_zero b).mp zero
  rw [if_neg zero]
  by_cases origin : a.value = 0
  · have plain : ¬ Misordered a.value b := fun misordered => misordered.1.ne origin
    rw [if_pos origin, if_neg plain, origin, zero_mul]
    rw [units] at some_ ⊢
    split_ifs at some_ ⊢ <;> omega
  rw [if_neg origin]
  by_cases signs : a.value < 0 ↔ b.msb = true
  · have magnitudes := compareMagnitudes normal origin b (if a.value < 0 then 1 else 0)
    have misordered : Misordered a.value b ↔ a.value < 0
        ∧ (a.value.natAbs.log2 : Int) ≠ (exponent b : Int) - 1023 :=
      ⟨fun all => ⟨all.1, all.2.2.2.2⟩, fun both =>
        ⟨both.1, signs.mp both.1, finite, some_, both.2⟩⟩
    obtain ⟨less, more⟩ := units_lt b a.value signs
    rw [if_neg (not_not.mpr (by simp only [signs])), magnitudes]
    simp only [misordered, less, more]
    by_cases below : a.value < 0
    · simp only [below, if_true, true_and]
      split_ifs <;> first | rfl | omega
    · simp only [below, if_false, false_and]
      split_ifs <;> rfl
  · have plain : ¬ Misordered a.value b := fun misordered =>
      signs (iff_of_true misordered.1 misordered.2.1)
    have different : (if a.value < 0 then (1 : Int) else 0) ≠ if b.msb = true then 1 else 0 := by
      by_cases below : a.value < 0 <;> by_cases sign : b.msb = true <;> simp_all
    rw [if_pos different, if_neg plain]
    rcases lt_or_gt_of_ne origin with below | above
    · have order := mul_neg_of_neg_of_pos below pos
      have sign : b.msb ≠ true := fun sign => signs (iff_of_true below sign)
      rw [units, if_neg sign, if_pos below]
      rw [if_pos (by omega)]
      rfl
    · have order := mul_pos above pos
      have sign : b.msb = true := by
        by_contra sign
        exact signs (iff_of_false (not_lt.mpr above.le) sign)
      rw [units, if_pos sign, if_neg (not_lt.mpr above.le)]
      rw [if_neg (by omega), if_pos (by omega)]
      rfl

end Float64

section Operands

variable {w : Nat}

/-- A `BigInt` operand is in normal form. -/
def Operand.Normal : Operand w → Prop
  | bigInt a => Normalized a.tab
  | _ => True

def Operand.integer : Operand w → Option Int
  | int x => some x.toInt
  | bigInt a => some a.value
  | float64 _ => none

/-- The number of an operand, unless it is NaN -/
def Operand.number : Operand w → Option Extended
  | int x => some (((x.toInt : ℚ) : WithTop ℚ) : Extended)
  | bigInt a => some (((a.value : ℚ) : WithTop ℚ) : Extended)
  | float64 b => toExtended b

def CompareOp.Holds : CompareOp → Extended → Extended → Prop
  | lt, x, y => x < y
  | lte, x, y => x ≤ y
  | gt, x, y => y < x
  | gte, x, y => y ≤ x
  | eq, x, y => x = y

/-- The relation holds of the numbers. It holds of no pair with NaN. -/
def HoldsExactly (op : CompareOp) (op1 op2 : Operand w) : Prop :=
  ∃ x y, op1.number = some x ∧ op2.number = some y ∧ op.Holds x y

def MisorderedOperands (op1 op2 : Operand w) : Prop :=
  ∃ x b, Misordered x b ∧ (op1.integer = some x ∧ op2 = .float64 b
    ∨ op1 = .float64 b ∧ op2.integer = some x)

theorem ofVal_iff (op : CompareOp) {val : Int} {x y : Extended} (less : val < 0 ↔ x < y)
    (more : 0 < val ↔ y < x) : op.ofVal val = true ↔ op.Holds x y := by
  cases op with
  | lt => simpa [CompareOp.ofVal, CompareOp.Holds] using less
  | gt => simpa [CompareOp.ofVal, CompareOp.Holds] using more
  | lte => simpa [CompareOp.ofVal, CompareOp.Holds] using not_congr more
  | gte => simpa [CompareOp.ofVal, CompareOp.Holds] using not_congr less
  | eq =>
      have same : val = 0 ↔ ¬ val < 0 ∧ ¬ 0 < val := by omega
      simp only [CompareOp.ofVal, CompareOp.Holds, decide_eq_true_eq, same, less, more, not_lt]
      exact ⟨fun ⟨low, high⟩ => le_antisymm high low, fun equal => ⟨equal.ge, equal.le⟩⟩

/-- The opposite sign is right for equality alone. -/
theorem ofVal_neg_iff (op : CompareOp) {val : Int} (nonzero : val ≠ 0) :
    op.ofVal (-val) = op.ofVal val ↔ op = .eq := by
  cases op with
  | eq => simp [CompareOp.ofVal]
  | lt => simp only [CompareOp.ofVal, decide_eq_decide, reduceCtorEq, iff_false]; omega
  | lte => simp only [CompareOp.ofVal, decide_eq_decide, reduceCtorEq, iff_false]; omega
  | gt => simp only [CompareOp.ofVal, decide_eq_decide, reduceCtorEq, iff_false]; omega
  | gte => simp only [CompareOp.ofVal, decide_eq_decide, reduceCtorEq, iff_false]; omega

variable {x : Int} {b : BitVec 64}

theorem misordered_ne (misordered : Misordered x b) : exactCmp x b ≠ 0 := by
  obtain ⟨below, sign, finite, -, bits⟩ := misordered
  obtain ⟨less, more⟩ := units_lt b x (iff_of_true below sign)
  rw [exactCmp_finite x finite]
  rw [if_pos below] at less more
  rcases lt_or_gt_of_ne bits with lower | higher
  · have order := more.mpr (lt_magnitude lower)
    rw [if_neg order.not_gt, if_pos order]
    decide
  · have order := less.mpr (magnitude_lt (by omega) higher)
    rw [if_pos order]
    decide

/-- The integer of an operand in the form of a `BigInt` -/
theorem jsToBigIntBuf_spec {op : Operand limbBits.width} (normal : op.Normal)
    (integer : op.integer = some x) :
    ∃ p, jsToBigIntBuf op = some p ∧ Normalized p.tab ∧ p.value = x := by
  cases op with
  | int v =>
      have wide : 32 ≤ limbBits.width := by cases limbBits <;> decide
      refine ⟨_, rfl, normalized_singleton _, ?_⟩
      rw [JSBigInt.value, signed_singleton, BitVec.toInt_signExtend_of_le wide]
      exact Option.some.inj integer
  | bigInt a => exact ⟨a, rfl, normal, Option.some.inj integer⟩
  | float64 b => cases integer

theorem number_of_integer {op : Operand w} (integer : op.integer = some x) :
    op.number = some (((x : ℚ) : WithTop ℚ) : Extended) := by
  cases op with
  | int v =>
      obtain rfl := Option.some.inj integer
      rfl
  | bigInt a =>
      obtain rfl := Option.some.inj integer
      rfl
  | float64 b => cases integer

theorem coe_lt (x y : Int) : (((x : ℚ) : WithTop ℚ) : Extended) < ((y : ℚ) : WithTop ℚ)
    ↔ x < y := by
  rw [WithBot.coe_lt_coe, WithTop.coe_lt_coe, Int.cast_lt]

/-- Two integers are compared exactly. -/
theorem jsCompareBigint_integers (op : CompareOp) {op1 op2 : Operand limbBits.width} {y : Int}
    (normal1 : op1.Normal) (normal2 : op2.Normal) (integer1 : op1.integer = some x)
    (integer2 : op2.integer = some y) :
    ∃ r, jsCompareBigint op op1 op2 = some r ∧ (r = true ↔ HoldsExactly op op1 op2) := by
  have positive : 0 < limbBits.width := by cases limbBits <;> decide
  have exact_ {val : Int} (less : val < 0 ↔ x < y) (more : 0 < val ↔ y < x) :
      op.ofVal val = true ↔ HoldsExactly op op1 op2 := by
    rw [HoldsExactly, number_of_integer integer1, number_of_integer integer2]
    rw [ofVal_iff op (less.trans (coe_lt x y).symm) (more.trans (coe_lt y x).symm)]
    simp
  obtain ⟨p1, run1, normal1', value1⟩ := jsToBigIntBuf_spec normal1 integer1
  obtain ⟨p2, run2, normal2', value2⟩ := jsToBigIntBuf_spec normal2 integer2
  have limbs : op.ofVal (jsBigintCmp p1 p2) = true ↔ HoldsExactly op op1 op2 := by
    rw [jsBigintCmp_eq positive normal1' normal2', value1, value2]
    exact exact_ (by rw [Int.sign_neg_iff]; omega) (by rw [Int.sign_pos_iff]; omega)
  cases op1 with
  | float64 b => cases integer1
  | bigInt a =>
      refine ⟨_, ?_, limbs⟩
      cases op2 <;> simp [jsCompareBigint, run1, run2]
      cases integer2
  | int v1 =>
      cases op2 with
      | float64 b => cases integer2
      | bigInt a => exact ⟨_, by simp [jsCompareBigint, run1, run2], limbs⟩
      | int v2 =>
          obtain rfl := Option.some.inj integer1
          obtain rfl := Option.some.inj integer2
          have order : (v2.slt v1).toInt - (v1.slt v2).toInt < 0 ↔ v1.toInt < v2.toInt := by
            rcases lt_trichotomy v1.toInt v2.toInt with less | same | more
            · simp [BitVec.slt, less, less.not_gt]
            · simp [BitVec.slt, same]
            · simp [BitVec.slt, more, more.not_gt]
          have order' : 0 < (v2.slt v1).toInt - (v1.slt v2).toInt ↔ v2.toInt < v1.toInt := by
            rcases lt_trichotomy v1.toInt v2.toInt with less | same | more
            · simp [BitVec.slt, less, less.not_gt]
            · simp [BitVec.slt, same]
            · simp [BitVec.slt, more, more.not_gt]
          exact ⟨_, rfl, exact_ order order'⟩

variable {a : JSBigInt limbBits.width}

/-- The result on a `BigInt` and a double that is not NaN -/
theorem ofVal_float64 (op : CompareOp) (normal : Normalized a.tab) {val : Int} {r : Bool}
    {p : Prop} (right : op.ofVal val = true ↔ p)
    (value : val = exactCmp a.value b ∨ val = -exactCmp a.value b)
    (result : ∀ sign : Int, jsBigintFloat64Cmp a b = sign * exactCmp a.value b →
      sign = 1 ∨ sign = -1 → r = op.ofVal (sign * val)) :
    ((r = true ↔ p) ↔ op = .eq ∨ ¬ Misordered a.value b) := by
  classical
  have cmp := jsBigintFloat64Cmp_eq normal b
  by_cases misordered : Misordered a.value b
  · have nonzero : val ≠ 0 := by
      have := misordered_ne misordered
      omega
    rw [if_pos misordered, ← neg_one_mul] at cmp
    rw [result (-1) cmp (.inr rfl), neg_one_mul, ← right, ← Bool.eq_iff_iff,
      ofVal_neg_iff op nonzero]
    simp [misordered]
  · rw [if_neg misordered, ← one_mul (exactCmp _ _)] at cmp
    rw [result 1 cmp (.inl rfl), one_mul]
    simp [misordered, right]

theorem notMisordered_of_nan (number : toExtended b = none) : ¬ Misordered x b := by
  intro misordered
  have normal : exponent b ≠ 2047 := by simpa [isFinite] using misordered.2.2.1
  simp [toExtended, isNaN, isInfinite, normal] at number

theorem float64Cmp_nan (normal : Normalized a.tab) (number : toExtended b = none) :
    jsBigintFloat64Cmp a b = 2 := by
  classical
  rw [jsBigintFloat64Cmp_eq normal, if_neg (notMisordered_of_nan number), exactCmp_none _ number]

theorem float64Cmp_ne_two (normal : Normalized a.tab) {y : Extended}
    (number : toExtended b = some y) : jsBigintFloat64Cmp a b ≠ 2 := by
  classical
  have bounds := (exactCmp_some a.value number).1
  rw [jsBigintFloat64Cmp_eq normal]
  split_ifs <;> omega

/-- The first operand is an integer. -/
theorem jsCompareBigint_right (op : CompareOp) {op1 : Operand limbBits.width}
    (normal : op1.Normal) (integer : op1.integer = some x) (b : BitVec 64) :
    ∃ r, jsCompareBigint op op1 (.float64 b) = some r
      ∧ ((r = true ↔ HoldsExactly op op1 (.float64 b)) ↔ op = .eq ∨ ¬ Misordered x b) := by
  obtain ⟨p1, run1, normal1, rfl⟩ := jsToBigIntBuf_spec normal integer
  have run : jsCompareBigint op op1 (.float64 b) = some
      (if jsBigintFloat64Cmp p1 b = 2 then false else op.ofVal (jsBigintFloat64Cmp p1 b)) := by
    cases op1 with
    | float64 b => cases integer
    | int v =>
        simp only [jsCompareBigint, run1, Option.bind_eq_bind, Option.bind_some]
        split_ifs <;> rfl
    | bigInt a =>
        simp only [jsCompareBigint, run1, Option.bind_eq_bind, Option.bind_some]
        split_ifs <;> rfl
  refine ⟨_, run, ?_⟩
  rw [HoldsExactly, number_of_integer integer]
  cases number : toExtended b with
  | none =>
      rw [if_pos (float64Cmp_nan normal1 number)]
      simp [Operand.number, number, notMisordered_of_nan number]
  | some y =>
      obtain ⟨-, less, more⟩ := exactCmp_some p1.value number
      rw [if_neg (float64Cmp_ne_two normal1 number)]
      apply ofVal_float64 op normal1 _ (.inl (rfl : exactCmp p1.value b = _))
      · intro sign cmp _
        rw [cmp]
      · rw [ofVal_iff op less more]
        simp [Operand.number, number]

/-- The second operand is an integer: the result of the comparison is negated. -/
theorem jsCompareBigint_left (op : CompareOp) {op2 : Operand limbBits.width} (normal : op2.Normal)
    (integer : op2.integer = some x) (b : BitVec 64) :
    ∃ r, jsCompareBigint op (.float64 b) op2 = some r
      ∧ ((r = true ↔ HoldsExactly op (.float64 b) op2) ↔ op = .eq ∨ ¬ Misordered x b) := by
  obtain ⟨p2, run2, normal2, rfl⟩ := jsToBigIntBuf_spec normal integer
  have run : jsCompareBigint op (.float64 b) op2 = some
      (if jsBigintFloat64Cmp p2 b = 2 then false else op.ofVal (-jsBigintFloat64Cmp p2 b)) := by
    simp only [jsCompareBigint, run2, Option.bind_eq_bind, Option.bind_some]
    split_ifs <;> rfl
  refine ⟨_, run, ?_⟩
  rw [HoldsExactly, number_of_integer integer]
  cases number : toExtended b with
  | none =>
      rw [if_pos (float64Cmp_nan normal2 number)]
      simp [Operand.number, number, notMisordered_of_nan number]
  | some y =>
      obtain ⟨-, less, more⟩ := exactCmp_some p2.value number
      rw [if_neg (float64Cmp_ne_two normal2 number)]
      apply ofVal_float64 op normal2 _ (.inr (rfl : -exactCmp p2.value b = _))
      · intro sign cmp _
        rw [cmp, mul_neg]
      · rw [ofVal_iff op (neg_neg_iff_pos.trans more) (neg_pos.trans less)]
        simp [Operand.number, number]

theorem float64_of_integer {op : Operand w} (integer : op.integer = none) :
    ∃ b, op = .float64 b := by
  cases op with
  | float64 b => exact ⟨b, rfl⟩
  | int v => cases integer
  | bigInt a => cases integer

theorem misorderedOperands_right {op1 : Operand w} (integer : op1.integer = some x) :
    MisorderedOperands op1 (.float64 b) ↔ Misordered x b := by
  constructor
  · rintro ⟨x', b', misordered, ⟨same, double⟩ | ⟨-, none_⟩⟩
    · cases integer.symm.trans same
      cases double
      exact misordered
    · cases none_
  · intro misordered
    exact ⟨x, b, misordered, .inl ⟨integer, rfl⟩⟩

theorem misorderedOperands_left {op2 : Operand w} (integer : op2.integer = some x) :
    MisorderedOperands (.float64 b) op2 ↔ Misordered x b := by
  constructor
  · rintro ⟨x', b', misordered, ⟨none_, -⟩ | ⟨double, same⟩⟩
    · cases none_
    · cases integer.symm.trans same
      cases double
      exact misordered
  · intro misordered
    exact ⟨x, b, misordered, .inr ⟨rfl, integer⟩⟩

end Operands

section Exactness

/-- What the comparisons do: they are exact unless the operands are misordered. -/
structure ComparesExactly (limbBits : LimbBits) : Prop where
  float64Cmp (a : NormalBigInt limbBits.width) (b : BitVec 64) :
    jsBigintFloat64Cmp a.toJSBigInt b = exactCmp a.value b ↔ ¬ Misordered a.value b
  compare (op : CompareOp) (op1 op2 : Operand limbBits.width) : op1.Normal → op2.Normal →
    (op1.integer ≠ none ∨ op2.integer ≠ none) →
    ∃ r, jsCompareBigint op op1 op2 = some r
      ∧ ((r = true ↔ HoldsExactly op op1 op2) ↔ op = .eq ∨ ¬ MisorderedOperands op1 op2)

theorem compare_exact_iff (limbBits : LimbBits) : ComparesExactly limbBits where
  float64Cmp a b := by
    classical
    rw [jsBigintFloat64Cmp_eq a.normal b]
    by_cases misordered : Misordered a.value b
    · have nonzero := misordered_ne misordered
      simp only [misordered, if_true, not_true_eq_false, iff_false]
      omega
    · simp [misordered]
  compare op op1 op2 normal1 normal2 some_ := by
    cases integer1 : op1.integer with
    | some x =>
        cases integer2 : op2.integer with
        | some y =>
            obtain ⟨r, run, right⟩ :=
              jsCompareBigint_integers op normal1 normal2 integer1 integer2
            refine ⟨r, run, iff_of_true right (.inr ?_)⟩
            rintro ⟨x, b, -, ⟨-, rfl⟩ | ⟨rfl, -⟩⟩
            · cases integer2
            · cases integer1
        | none =>
            obtain ⟨b, rfl⟩ := float64_of_integer integer2
            obtain ⟨r, run, right⟩ := jsCompareBigint_right op normal1 integer1 b
            exact ⟨r, run, by rw [right, misorderedOperands_right integer1]⟩
    | none =>
        obtain ⟨b, rfl⟩ := float64_of_integer integer1
        obtain ⟨y, integer2⟩ := Option.ne_none_iff_exists'.mp (some_.resolve_left (· integer1))
        obtain ⟨r, run, right⟩ := jsCompareBigint_left op normal2 integer2 b
        exact ⟨r, run, by rw [right, misorderedOperands_left integer2]⟩

/-- `-2n < -1.0` is false. -/
theorem negatives_misordered : ¬ ∀ (a : NormalBigInt 64) (b : BitVec 64),
    @jsBigintFloat64Cmp .bits64 a.toJSBigInt b = exactCmp a.value b := by
  intro exact_
  have same := exact_ ⟨⟨[-2#64]⟩, normalized_singleton _⟩ 0xBFF0000000000000#64
  have value : JSBigInt.value (⟨[-2#64]⟩ : JSBigInt 64) = -2 := signed_singleton _
  have units_eq : units 0xBFF0000000000000#64 = -one := by
    rw [units, if_pos (by decide), show (0xBFF0000000000000#64).toNat % 2^63 = 1023 * 2^52 by decide,
      magnitude_one]
  have pos : (0 : Int) < one := by exact_mod_cast one_pos
  rw [value, exactCmp_finite _ (by decide), units_eq, if_pos (by omega)] at same
  exact absurd same (by decide)

end Exactness

end PrimJs.BigInt
