import PrimJs.Numeric.BigIntAdd
import PrimJs.Numeric.BigIntPow

/-! Comparison, and the arithmetic as a whole. -/

namespace PrimJs.BigInt

open Limbs Allocating

variable {w : Nat}

section Comparison

def comparePair (x y : BitVec w) : Int := if x ≠ y then (if x < y then -1 else 1) else 0

theorem compareLimbs_append (front : List (BitVec w × BitVec w)) (x y : BitVec w) :
    compareLimbs (front ++ [(x, y)])
      = if compareLimbs front ≠ 0 then compareLimbs front else comparePair x y := by
  induction front with
  | nil => simp [compareLimbs, comparePair]
  | cons pair front ih =>
      obtain ⟨u, v⟩ := pair
      rw [List.cons_append, compareLimbs, compareLimbs, ih]
      by_cases differs : u ≠ v
      · by_cases less : u < v <;> simp [differs, less]
      · simp [differs]

theorem comparePair_eq (x y : BitVec w) : comparePair x y = Int.sign (x.toNat - y.toNat) := by
  rw [comparePair]
  by_cases differs : x ≠ y
  · rw [if_pos differs]
    have numbers : x.toNat ≠ y.toNat := fun same => differs (BitVec.eq_of_toNat_eq same)
    by_cases less : x < y
    · have below : x.toNat < y.toNat := BitVec.lt_def.mp less
      rw [if_pos less, Int.sign_eq_neg_one_of_neg (by omega)]
    · have above : y.toNat < x.toNat := by
        rw [BitVec.lt_def] at less
        omega
      rw [if_neg less, Int.sign_eq_one_of_pos (by omega)]
  · rw [if_neg differs, Decidable.not_not.mp differs]
    simp

theorem compareLimbs_reverse (pairs : List (BitVec w × BitVec w)) :
    compareLimbs pairs.reverse
      = Int.sign (unsigned (pairs.map Prod.fst) - unsigned (pairs.map Prod.snd)) := by
  induction pairs with
  | nil => simp [compareLimbs]
  | cons pair rest ih =>
      obtain ⟨x, y⟩ := pair
      rw [List.reverse_cons, compareLimbs_append, ih, List.map_cons, List.map_cons, unsigned_cons,
        unsigned_cons, comparePair_eq]
      have xBound : (x.toNat : Int) < 2^w := by exact_mod_cast x.isLt
      have yBound : (y.toNat : Int) < 2^w := by exact_mod_cast y.isLt
      have xPos : (0 : Int) ≤ x.toNat := Int.natCast_nonneg _
      have yPos : (0 : Int) ≤ y.toNat := Int.natCast_nonneg _
      push_cast
      generalize (unsigned (rest.map Prod.fst) : Int) = high at *
      generalize (unsigned (rest.map Prod.snd) : Int) = high' at *
      rcases Int.lt_trichotomy high high' with below | same | above
      · have sign : Int.sign (high - high') = -1 := Int.sign_eq_neg_one_of_neg (by omega)
        rw [sign, if_pos (by norm_num), Int.sign_eq_neg_one_of_neg]
        nlinarith
      · rw [same, sub_self, Int.sign_zero, if_neg (by simp)]
        congr 1
        ring
      · have sign : Int.sign (high - high') = 1 := Int.sign_eq_one_of_pos (by omega)
        rw [sign, if_pos (by norm_num), Int.sign_eq_one_of_pos]
        nlinarith

variable (positive : 0 < w)
include positive

section

variable {a b : JSBigInt w} (aNormal : Normalized a.tab) (bNormal : Normalized b.tab)

include aNormal bNormal

theorem shorter_below (shorter : a.len < b.len) :
    (b.value < 0 → b.value < a.value) ∧ (0 ≤ b.value → a.value < b.value) := by
  have pos : 0 < a.tab.length := List.length_pos_iff.mpr aNormal.nonempty
  have notFits := bNormal.not_fits positive shorter pos
  obtain ⟨low, high⟩ := fits_signed positive aNormal.nonempty
  rw [Fits, not_and_or, not_le, not_lt] at notFits
  have width : (0 : Int) < 2^(w * a.tab.length - 1) := by positivity
  have aValue : a.value = signed a.tab := rfl
  have bValue : b.value = signed b.tab := rfl
  have len : a.len = a.tab.length := rfl
  rw [len] at notFits
  rw [aValue, bValue]
  constructor
  · intro negative_
    rcases notFits with below | above
    · linarith
    · linarith
  · intro nonneg
    rcases notFits with below | above
    · linarith
    · linarith

theorem compare_same_sign (same : negative a.tab = negative b.tab) :
    (if a.len ≠ b.len then
        if a.len < b.len then 2 * (if negative a.tab then 1 else 0) - 1
        else 1 - 2 * (if negative a.tab then 1 else 0)
      else compareLimbs (a.tab.zip b.tab).reverse) = Int.sign (a.value - b.value) := by
  have aSign : negative a.tab = true ↔ a.value < 0 := negative_iff a.tab
  have bSign : negative a.tab = true ↔ b.value < 0 := same ▸ negative_iff b.tab
  rcases Nat.lt_trichotomy a.len b.len with shorter | lengths | longer
  · obtain ⟨whenNegative, whenNonneg⟩ := shorter_below positive aNormal bNormal shorter
    rw [if_pos (Nat.ne_of_lt shorter), if_pos shorter]
    by_cases sign : negative a.tab = true
    · have above := whenNegative (bSign.mp sign)
      rw [if_pos sign, Int.sign_eq_one_of_pos (by omega)]
      rfl
    · have below := whenNonneg (not_lt.mp (mt bSign.mpr sign))
      rw [if_neg sign, Int.sign_eq_neg_one_of_neg (by omega)]
      rfl
  · have sameLength : a.tab.length = b.tab.length := lengths
    rw [if_neg (not_not.mpr lengths), compareLimbs_reverse, List.map_fst_zip (le_of_eq sameLength),
      List.map_snd_zip (ge_of_eq sameLength), JSBigInt.value, JSBigInt.value, signed, signed,
      signWeight, signWeight, same, sameLength]
    congr 1
    ring
  · obtain ⟨whenNegative, whenNonneg⟩ := shorter_below positive bNormal aNormal longer
    rw [if_pos (Nat.ne_of_gt longer), if_neg (Nat.lt_asymm longer)]
    by_cases sign : negative a.tab = true
    · have below := whenNegative (aSign.mp sign)
      rw [if_pos sign, Int.sign_eq_neg_one_of_neg (by omega)]
      rfl
    · have above := whenNonneg (not_lt.mp (mt aSign.mpr sign))
      rw [if_neg sign, Int.sign_eq_one_of_pos (by omega)]
      rfl

theorem jsBigintCmp_eq : jsBigintCmp a b = Int.sign (a.value - b.value) := by
  have one : (1#w).toNat = 1 := BitVec.toNat_one positive
  have aSign : negative a.tab = true ↔ a.value < 0 := negative_iff a.tab
  have bSign : negative b.tab = true ↔ b.value < 0 := negative_iff b.tab
  have signs (c : JSBigInt w) : ((jsBigintSign c).toNat : Int) = if negative c.tab then 1 else 0 := by
    rw [jsBigintSign_eq positive]
    by_cases sign : negative c.tab = true <;> simp [sign, one]
  rw [jsBigintCmp]
  simp only [signs]
  by_cases same : negative a.tab = negative b.tab
  · rw [← compare_same_sign positive aNormal bNormal same, same]
    rw [if_neg (not_not.mpr rfl)]
  · by_cases aNeg : negative a.tab = true
    · have bNeg : ¬ negative b.tab = true := fun bNeg => same (aNeg.trans bNeg.symm)
      have aBelow := aSign.mp aNeg
      have bAbove := mt bSign.mpr bNeg
      simp only [aNeg, bNeg, if_true]
      rw [Int.sign_eq_neg_one_of_neg (by omega)]
      simp
    · have bNeg : negative b.tab = true := by
        by_contra bNeg
        exact same ((Bool.eq_false_iff.mpr aNeg).trans (Bool.eq_false_iff.mpr bNeg).symm)
      have aAbove := mt aSign.mpr aNeg
      have bBelow := bSign.mp bNeg
      simp only [aNeg, bNeg, if_true]
      rw [Int.sign_eq_one_of_pos (by omega)]
      simp

end

end Comparison

section Exactness

/-- On normal operands each operation gives the exact integer in normal form, or fails for lack
of memory, or because of the size limit; a power also fails when its exponent is negative. -/
structure BigIntExact (w : Nat) : Prop where
  add (a b : NormalBigInt w) (bNeg : Bool) :
    Outcome (jsBigintAdd a.toJSBigInt b.toJSBigInt bNeg)
      (Denotes (if bNeg then a.value - b.value else a.value + b.value))
      (SizeRefused w (max a.len b.len))
  neg (a : NormalBigInt w) :
    Outcome (jsBigintNeg a.toJSBigInt) (Denotes (-a.value)) (SizeRefused w a.len)
  mul (a b : NormalBigInt w) :
    Outcome (jsBigintMul a.toJSBigInt b.toJSBigInt) (Denotes (a.value * b.value))
      (SizeRefused w (a.len + b.len))
  logic (a b : NormalBigInt w) (op : LogicOp) :
    Outcome (jsBigintLogic a.toJSBigInt b.toJSBigInt op) (Denotes (op.onInts a.value b.value))
      (SizeRefused w (max a.len b.len))
  not (a : NormalBigInt w) :
    Outcome (jsBigintNot a.toJSBigInt) (Denotes (Int.lnot a.value)) (SizeRefused w a.len)
  shl (a : NormalBigInt w) (shift1 : BitVec 32) :
    Outcome (jsBigintShl a.toJSBigInt shift1) (Denotes (a.value * 2^shift1.toNat))
      (SizeRefused w (a.len + shift1.toNat / w))
  shr (a : NormalBigInt w) (shift1 : BitVec 32) :
    Outcome (jsBigintShr a.toJSBigInt shift1) (Denotes (a.value / 2^shift1.toNat))
      (SizeRefused w a.len)
  pow (a b : NormalBigInt w) : 0 ≤ b.value →
    Outcome (jsBigintPow a.toJSBigInt b.toJSBigInt) (Denotes (a.value^b.value.toNat))
      (PowRefused w (a.value^b.value.toNat))
  powNegative (a b : NormalBigInt w) (answers : List Bool) : b.value < 0 →
    jsBigintPow a.toJSBigInt b.toJSBigInt answers = .error (.thrown .negativeExponent) answers
  /-- Both ways to add give one result, and the short one stays in its array. -/
  addPaths (a b : NormalBigInt w) (bNeg : Bool) (answers answers' rest rest' : List Bool)
    (r r' : JSBigInt w) : addOnStack a.toJSBigInt b.toJSBigInt bNeg answers = .ok r rest →
      addOnHeap a.toJSBigInt b.toJSBigInt bNeg answers' = .ok r' rest' → r = r'
  addFits (a b : NormalBigInt w) (bNeg : Bool) :
    jsBigintAddOnStack a.toJSBigInt b.toJSBigInt = true →
      (jsBigintAddTab a.toJSBigInt b.toJSBigInt bNeg).1.length + 1 ≤ stackLimbs
  mulPaths (a b : NormalBigInt w) (answers answers' rest rest' : List Bool) (r r' : JSBigInt w) :
    mulOnStack a.toJSBigInt b.toJSBigInt answers = .ok r rest →
      mulOnHeap a.toJSBigInt b.toJSBigInt answers' = .ok r' rest' → r = r'
  mulFits (a b : NormalBigInt w) : jsBigintMulOnStack a.toJSBigInt b.toJSBigInt = true →
    (jsBigintMulTab a.toJSBigInt b.toJSBigInt).length ≤ stackLimbs
  cmp (a b : NormalBigInt w) :
    jsBigintCmp a.toJSBigInt b.toJSBigInt = Int.sign (a.value - b.value)

/-- `BigInt` arithmetic is exact for limbs of 32 and of 64 bits. -/
theorem bigInt_exact (limbBits : LimbBits) : BigIntExact limbBits.width := by
  have wide : 32 ≤ limbBits.width := by cases limbBits <;> decide
  have sized : stackLimbs ≤ maxSize limbBits.width := by cases limbBits <;> decide
  have positive : 0 < limbBits.width := by omega
  have nonempty (a : NormalBigInt limbBits.width) := a.normal.nonempty
  constructor
  case add =>
    intro a b bNeg
    exact jsBigintAdd_denotes positive sized (nonempty a) (nonempty b) bNeg
  case neg =>
    intro a
    exact jsBigintNeg_denotes positive sized (nonempty a)
  case mul =>
    intro a b
    exact jsBigintMul_denotes positive sized (nonempty a) (nonempty b)
  case logic =>
    intro a b op
    exact jsBigintLogic_denotes positive (nonempty a) (nonempty b) op
  case not =>
    intro a
    have outcome := jsBigintNot_denotes positive a.normal
    have same : Int.lnot a.value = -1 - a.value := by
      cases a.value with
      | ofNat n => simp [Int.lnot, Int.negSucc_eq]; ring
      | negSucc n => simp [Int.lnot, Int.negSucc_eq]
    rw [same]
    exact outcome
  case shl =>
    intro a shift1
    exact jsBigintShl_denotes positive a.normal shift1
  case shr =>
    intro a shift1
    exact jsBigintShr_denotes positive a.normal shift1
  case pow =>
    intro a b nonneg
    exact jsBigintPow_denotes wide sized a.normal b.normal (not_lt.mpr nonneg)
  case powNegative =>
    intro a b answers below
    have sign : jsBigintSign b.toJSBigInt ≠ 0#(limbBits.width) :=
      (jsBigintSign_ne_zero positive _).mpr ((negative_iff _).mpr below)
    rw [jsBigintPow, if_pos sign]
    rfl
  case addPaths =>
    intro a b bNeg answers answers' rest rest' r r' onStack onHeap
    have left := (addOnStack_denotes positive (nonempty a) (nonempty b) bNeg).result onStack
    have right := (addOnHeap_denotes positive (nonempty a) (nonempty b) bNeg).result onHeap
    exact left.unique positive right
  case addFits =>
    intro a b bNeg onStack
    rw [(addTab_value positive (nonempty a) (nonempty b) bNeg).2]
    have bound : max a.len b.len < stackLimbs := by simpa [jsBigintAddOnStack] using onStack
    omega
  case mulPaths =>
    intro a b answers answers' rest rest' r r' onStack onHeap
    have left := (mulOnStack_denotes positive (nonempty a) (nonempty b)).result onStack
    have right := (mulOnHeap_denotes positive (nonempty a) (nonempty b)).result onHeap
    exact left.unique positive right
  case mulFits =>
    intro a b onStack
    rw [(mulTab_modEq positive a.toJSBigInt (nonempty b)).2]
    simpa [jsBigintMulOnStack] using onStack
  case cmp =>
    intro a b
    exact jsBigintCmp_eq positive a.normal b.normal

/-- A negative exponent is refused, whatever the power would be. -/
theorem jsBigintPow_negative_exponent :
    ¬ ∀ (a b : NormalBigInt 64) (answers rest : List Bool) (error : RangeError),
      jsBigintPow a.toJSBigInt b.toJSBigInt answers = .error (.thrown error) rest →
        error = .tooLargeToAllocate ∨ error = .tooLarge := by
  intro onlySize
  have failed := onlySize ⟨⟨[1#64]⟩, normalized_singleton _⟩
    ⟨⟨[BitVec.allOnes 64]⟩, normalized_singleton _⟩ [] [] .negativeExponent rfl
  exact absurd failed (by decide)

end Exactness

end PrimJs.BigInt
