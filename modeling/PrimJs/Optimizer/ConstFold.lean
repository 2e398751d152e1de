import Mathlib.Data.Int.Log
import PrimJs.Foundation.Binary64

/-! Constant folding, and the operators of the interpreter on the values it folds. -/

namespace PrimJs.ConstFold

inductive BinaryOp
  | add | sub | mul | div | mod | and | or | xor | shl | sar | shr
deriving DecidableEq

inductive Comparison
  | lt | lte | gt | gte | eq | neq | strictEq | strictNeq
deriving DecidableEq

/-- The folder refuses `inc` and `dec`. -/
inductive UnaryOp
  | neg | not | inc | dec
deriving DecidableEq

/-! The folder -/

/-- `r == (int32_t)r` -/
def fitsInt32 (r : Int) : Bool := r = (BitVec.ofInt 32 r).toInt

def int32Min : BitVec 32 := BitVec.intMin 32

def int32ArithmeticShiftRight (val shift : BitVec 32) : BitVec 32 :=
  let shift := (shift &&& 31).toNat
  if shift = 0 then val
  else
    let shifted := val >>> shift
    if val.toInt < 0 then shifted ||| ~~~(BitVec.allOnes 32 >>> shift) else shifted

def optConstFoldTryBinary (op : BinaryOp) (left right : BitVec 32) : Option (BitVec 32) :=
  match op with
  | .add =>
      let r := left.toInt + right.toInt
      if fitsInt32 r then some (BitVec.ofInt 32 r) else none
  | .sub =>
      let r := left.toInt - right.toInt
      if fitsInt32 r then some (BitVec.ofInt 32 r) else none
  | .mul =>
      let r := left.toInt * right.toInt
      if !fitsInt32 r then none
      else if r = 0 ∧ (left.toInt < 0 ∨ right.toInt < 0) then none
      else some (BitVec.ofInt 32 r)
  | .div =>
      if right = 0 then none
      else if left = int32Min ∧ right = -1 then none
      else if left.toInt.tmod right.toInt ≠ 0 then none
      else if left = 0 ∧ right.toInt < 0 then none
      else some (BitVec.ofInt 32 (left.toInt.tdiv right.toInt))
  | .mod =>
      if right = 0 then none
      else if left = int32Min ∧ right = -1 then none
      else
        let r := left.toInt.tmod right.toInt
        if r = 0 ∧ left.toInt < 0 then none else some (BitVec.ofInt 32 r)
  | .and => some (left &&& right)
  | .or => some (left ||| right)
  | .xor => some (left ^^^ right)
  | .shl => some (left <<< (right &&& 31).toNat)
  | .sar => some (int32ArithmeticShiftRight left right)
  | .shr =>
      let r := left >>> (right &&& 31).toNat
      if r.toNat > 2 ^ 31 - 1 then none else some r

def optConstFoldTryCompare (op : Comparison) (left right : BitVec 32) (isBool1 isBool2 : Bool) :
    Option Bool :=
  if (op = .strictEq ∨ op = .strictNeq) ∧ (isBool1 ∨ isBool2) then none
  else some <| match op with
    | .lt => left.toInt < right.toInt
    | .lte => left.toInt ≤ right.toInt
    | .gt => left.toInt > right.toInt
    | .gte => left.toInt ≥ right.toInt
    | .eq | .strictEq => left = right
    | .neq | .strictNeq => left ≠ right

def optConstFoldTryUnary (op : UnaryOp) (val : BitVec 32) : Option (BitVec 32) :=
  match op with
  | .neg => if val = int32Min ∨ val = 0 then none else some (-val)
  | .not => some (~~~val)
  | .inc | .dec => none

/-! The interpreter -/

/-- A number of the language; `real` is a finite one that is not `-0`. -/
inductive JSNumber
  | nan
  | infinity (negative : Bool)
  | negZero
  | real (value : ℚ)
deriving DecidableEq

inductive Constant
  | int (v : BitVec 32)
  | bool (b : Bool)
deriving DecidableEq

/-- `JS_ToNumericFree` of a constant -/
def Constant.toInt32 : Constant → BitVec 32
  | int v => v
  | bool b => if b then 1 else 0

def Constant.isBool : Constant → Bool
  | int _ => false
  | bool _ => true

/-- The power of two by which a quotient of `int32` values is scaled to have 53 bits -/
def quotientScale (n d : Nat) : Nat :=
  let k := 52 + d.log2 - n.log2
  if n * 2 ^ k < 2 ^ 52 * d then k + 1 else k

/-- The double next to `n / d`, which is always a normal one -/
def doubleQuotient (n d : Nat) : ℚ :=
  Binary64.divEven (n * 2 ^ quotientScale n d) d / (2 ^ quotientScale n d : ℕ)

/-- `(double)v1 / (double)v2` -/
def divide (v1 v2 : Int) : JSNumber :=
  if v2 = 0 then if v1 = 0 then .nan else .infinity (v1 < 0)
  else if v1 = 0 then if v2 < 0 then .negZero else .real 0
  else
    let q := doubleQuotient v1.natAbs v2.natAbs
    .real (if (v1 < 0) = (v2 < 0) then q else -q)

/-- `fmod(v1, v2)` -/
def remainder (v1 v2 : Int) : JSNumber :=
  if v2 = 0 then .nan
  else if v1.tmod v2 = 0 ∧ v1 < 0 then .negZero
  else .real (v1.tmod v2)

/-- `(double)v1 * (double)v2`; the product of two `int32` values is rounded when it has more than 53
bits. -/
def multiply (v1 v2 : Int) : JSNumber :=
  if v1 * v2 = 0 ∧ (v1 < 0 ∨ v2 < 0) then .negZero
  else .real (if fitsInt32 (v1 * v2) then v1 * v2 else Binary64.toRat (Binary64.ofInt (v1 * v2)))

/-- What a binary operator yields on two operands that are converted to `int32` without loss -/
def binaryValue (op : BinaryOp) (a b : BitVec 32) : JSNumber :=
  let shift := (b &&& 0x1f).toNat
  match op with
  | .add => .real (a.toInt + b.toInt)
  | .sub => .real (a.toInt - b.toInt)
  | .mul => multiply a.toInt b.toInt
  | .div => divide a.toInt b.toInt
  | .mod => remainder a.toInt b.toInt
  | .and => .real (a &&& b).toInt
  | .or => .real (a ||| b).toInt
  | .xor => .real (a ^^^ b).toInt
  | .shl => .real (a <<< shift).toInt
  | .sar => .real (a.sshiftRight shift).toInt
  | .shr => .real (a >>> shift).toNat

/-- `js_strict_eq2` -/
def strictEq : Constant → Constant → Bool
  | .int a, .int b => a = b
  | .bool a, .bool b => a = b
  | _, _ => false

def compareValue (op : Comparison) (a b : Constant) : Bool :=
  match op with
  | .lt => a.toInt32.toInt < b.toInt32.toInt
  | .lte => a.toInt32.toInt ≤ b.toInt32.toInt
  | .gt => b.toInt32.toInt < a.toInt32.toInt
  | .gte => b.toInt32.toInt ≤ a.toInt32.toInt
  | .eq => a.toInt32 = b.toInt32
  | .neq => a.toInt32 ≠ b.toInt32
  | .strictEq => strictEq a b
  | .strictNeq => !strictEq a b

def unaryValue (op : UnaryOp) (a : BitVec 32) : JSNumber :=
  match op with
  | .neg => if a = 0 then .negZero else .real (-a.toInt)
  | .not => .real (~~~a).toInt
  | .inc => .real (a.toInt + 1)
  | .dec => .real (a.toInt - 1)

def lnotValue (a : Constant) : Bool := a.toInt32 = 0

/-! What is folded is what the operator yields. -/

variable {a b r : BitVec 32} {left right : Constant}

theorem toInt_ofInt {x : Int} (fits : fitsInt32 x = true) : (BitVec.ofInt 32 x).toInt = x :=
  (of_decide_eq_true fits).symm

theorem toInt_range (a : BitVec 32) : -2 ^ 31 ≤ a.toInt ∧ a.toInt < 2 ^ 31 :=
  ⟨BitVec.le_toInt a, BitVec.toInt_lt⟩

theorem toInt_ofInt_of_range {x : Int} (low : -2 ^ 31 ≤ x) (high : x < 2 ^ 31) :
    (BitVec.ofInt 32 x).toInt = x := by
  rw [BitVec.toInt_ofInt]
  exact Int.bmod_eq_of_le (by omega) (by omega)

theorem toInt_eq_zero : a.toInt = 0 ↔ a = 0 := by
  rw [← BitVec.toInt_inj]
  rfl

theorem toInt_int32Min : int32Min.toInt = -2 ^ 31 := by decide

/-- The quotient of two `int32` values is one, but for the one pair that the folder looks for. -/
theorem tdiv_range (nonzero : b ≠ 0) (inside : ¬ (a = int32Min ∧ b = -1)) :
    -2 ^ 31 ≤ a.toInt.tdiv b.toInt ∧ a.toInt.tdiv b.toInt < 2 ^ 31 := by
  have range := toInt_range a
  have divisor : b.toInt ≠ 0 := fun same => nonzero (toInt_eq_zero.mp same)
  have abs : (a.toInt.tdiv b.toInt).natAbs = a.toInt.natAbs / b.toInt.natAbs := Int.natAbs_tdiv ..
  by_cases one : b.toInt.natAbs = 1
  · rcases Int.natAbs_eq_iff.mp one with same | same
    · rw [same, Nat.cast_one, Int.tdiv_one]
      exact range
    · have unit : b = -1 := BitVec.toInt_inj.mp (by rw [same]; decide)
      have other : a.toInt ≠ -2 ^ 31 := fun least =>
        inside ⟨BitVec.toInt_inj.mp (by rw [least, toInt_int32Min]), unit⟩
      rw [same, Nat.cast_one, Int.tdiv_neg, Int.tdiv_one]
      omega
  · have half : a.toInt.natAbs / b.toInt.natAbs ≤ a.toInt.natAbs / 2 :=
      Nat.div_le_div_left (by omega) (by omega)
    omega

theorem tmod_range (nonzero : b ≠ 0) :
    -2 ^ 31 ≤ a.toInt.tmod b.toInt ∧ a.toInt.tmod b.toInt < 2 ^ 31 := by
  have range := toInt_range b
  have divisor : b.toInt ≠ 0 := fun same => nonzero (toInt_eq_zero.mp same)
  have abs : (a.toInt.tmod b.toInt).natAbs = a.toInt.natAbs % b.toInt.natAbs := Int.natAbs_tmod ..
  have small : a.toInt.natAbs % b.toInt.natAbs < b.toInt.natAbs := Nat.mod_lt _ (by omega)
  omega

theorem shift_eq (a b : BitVec 32) :
    int32ArithmeticShiftRight a b = a.sshiftRight (b &&& 0x1f).toNat := by
  unfold int32ArithmeticShiftRight
  generalize (b &&& 31).toNat = n
  by_cases none_ : n = 0
  · rw [if_pos none_, none_, BitVec.sshiftRight_zero]
  · rw [if_neg none_]
    have negative : a.msb = decide (a.toInt < 0) := BitVec.msb_eq_toInt
    ext i small
    rw [BitVec.getElem_sshiftRight]
    have ones : (4294967295#32).getLsbD (n + i) = decide (n + i < 32) := BitVec.getLsbD_allOnes
    by_cases low : a.toInt < 0 <;> by_cases inside : n + i < 32
    · rw [BitVec.getLsbD_eq_getElem inside] at ones
      simp [low, inside, ones]
    · simp [low, negative, inside, ones]
    · simp [low, inside]
    · simp [low, negative, inside, BitVec.getLsbD_of_ge a (n + i) (by omega)]

theorem doubleQuotient_exact {n d : Nat} (positive : 0 < d) (exact_ : d ∣ n) :
    doubleQuotient n d = (n / d : ℕ) := by
  obtain ⟨q, rfl⟩ := exact_
  have scaled : d * q * 2 ^ quotientScale (d * q) d = d * (q * 2 ^ quotientScale (d * q) d) :=
    Nat.mul_assoc ..
  have whole : Binary64.divEven (d * q * 2 ^ quotientScale (d * q) d) d =
      q * 2 ^ quotientScale (d * q) d := by
    rw [scaled, Binary64.divEven, Nat.mul_mod_right, Nat.mul_div_cancel_left _ positive,
      if_pos (by omega)]
  have nonzero : ((2 ^ quotientScale (d * q) d : ℕ) : ℚ) ≠ 0 :=
    Nat.cast_ne_zero.mpr (Nat.two_pow_pos _).ne'
  rw [doubleQuotient, whole, Nat.cast_mul, mul_div_cancel_right₀ _ nonzero,
    Nat.mul_div_cancel_left _ positive]

theorem divide_exact {v1 v2 : Int} (nonzero : v2 ≠ 0) (exact_ : v1.tmod v2 = 0)
    (sign : ¬ (v1 = 0 ∧ v2 < 0)) : divide v1 v2 = .real (v1.tdiv v2) := by
  have dvd : v2 ∣ v1 := Int.dvd_of_tmod_eq_zero exact_
  obtain ⟨q, rfl⟩ := dvd
  rw [divide, if_neg nonzero, Int.mul_tdiv_cancel_left _ nonzero]
  by_cases zero : v2 * q = 0
  · have q_ : q = 0 := (Int.mul_eq_zero.mp zero).resolve_left nonzero
    rw [if_pos zero, if_neg fun low => sign ⟨zero, low⟩, q_]
    rfl
  · have parts := doubleQuotient_exact (Int.natAbs_pos.mpr nonzero)
      (Int.natAbs_dvd_natAbs.mpr (Dvd.intro q rfl))
    rw [Int.natAbs_mul, Nat.mul_div_cancel_left _ (Int.natAbs_pos.mpr nonzero)] at parts
    rw [if_neg zero, Int.natAbs_mul, parts]
    have q_ : q ≠ 0 := fun same => zero (by rw [same, Int.mul_zero])
    have sign_iff : ((v2 * q < 0) = (v2 < 0)) ↔ 0 < q := by
      rw [eq_iff_iff, mul_neg_iff]
      omega
    have abs : ((q.natAbs : ℕ) : ℚ) = (q.natAbs : ℤ) := rfl
    by_cases up : 0 < q
    · simp only [sign_iff.mpr up, if_true]
      rw [abs, Int.natAbs_of_nonneg up.le]
    · simp only [mt sign_iff.mp up, if_false]
      rw [abs, Int.ofNat_natAbs_of_nonpos (by omega), Int.cast_neg, neg_neg]

theorem tryBinary_sound {op : BinaryOp} (folded : optConstFoldTryBinary op a b = some r) :
    binaryValue op a b = .real r.toInt := by
  cases op with
  | add =>
      obtain ⟨fits, same⟩ := Option.ite_none_right_eq_some.mp folded
      rw [← Option.some.inj same, toInt_ofInt fits, binaryValue, Int.cast_add]
  | sub =>
      obtain ⟨fits, same⟩ := Option.ite_none_right_eq_some.mp folded
      rw [← Option.some.inj same, toInt_ofInt fits, binaryValue, Int.cast_sub]
  | mul =>
      obtain ⟨fits, rest⟩ := Option.ite_none_left_eq_some.mp folded
      obtain ⟨positive, same⟩ := Option.ite_none_left_eq_some.mp rest
      have fits : fitsInt32 (a.toInt * b.toInt) = true := by simpa using fits
      rw [← Option.some.inj same, toInt_ofInt fits, binaryValue, multiply, if_neg positive, if_pos fits,
        Int.cast_mul]
  | div =>
      obtain ⟨nonzero, rest⟩ := Option.ite_none_left_eq_some.mp folded
      obtain ⟨inside, rest⟩ := Option.ite_none_left_eq_some.mp rest
      obtain ⟨exact_, rest⟩ := Option.ite_none_left_eq_some.mp rest
      obtain ⟨sign, same⟩ := Option.ite_none_left_eq_some.mp rest
      have ⟨low, high⟩ := tdiv_range nonzero inside
      have divisor : b.toInt ≠ 0 := fun same => nonzero (toInt_eq_zero.mp same)
      rw [← Option.some.inj same, toInt_ofInt_of_range low high]
      exact divide_exact divisor (not_not.mp exact_) fun both => sign ⟨toInt_eq_zero.mp both.1, both.2⟩
  | mod =>
      obtain ⟨nonzero, rest⟩ := Option.ite_none_left_eq_some.mp folded
      obtain ⟨inside, rest⟩ := Option.ite_none_left_eq_some.mp rest
      obtain ⟨sign, same⟩ := Option.ite_none_left_eq_some.mp rest
      have ⟨low, high⟩ := tmod_range (a := a) nonzero
      have divisor : b.toInt ≠ 0 := fun same => nonzero (toInt_eq_zero.mp same)
      rw [← Option.some.inj same, toInt_ofInt_of_range low high, binaryValue, remainder, if_neg divisor,
        if_neg sign]
  | and => rw [← Option.some.inj folded]; rfl
  | or => rw [← Option.some.inj folded]; rfl
  | xor => rw [← Option.some.inj folded]; rfl
  | shl => rw [← Option.some.inj folded]; rfl
  | sar =>
      rw [← Option.some.inj folded, shift_eq]
      rfl
  | shr =>
      obtain ⟨small, same⟩ := Option.ite_none_left_eq_some.mp folded
      have whole := BitVec.toInt_eq_toNat_of_lt (x := a >>> (b &&& 31).toNat) (by omega)
      rw [← Option.some.inj same, whole]
      rfl

theorem tryCompare_sound {op : Comparison} {result : Bool}
    (folded : optConstFoldTryCompare op left.toInt32 right.toInt32 left.isBool right.isBool =
      some result) : compareValue op left right = result := by
  obtain ⟨loose, same⟩ := Option.ite_none_left_eq_some.mp folded
  rw [← Option.some.inj same]
  cases op with
  | strictEq =>
      cases left with
      | bool _ => exact absurd ⟨.inl rfl, .inl rfl⟩ loose
      | int v =>
          cases right with
          | bool _ => exact absurd ⟨.inl rfl, .inr rfl⟩ loose
          | int w => rfl
  | strictNeq =>
      cases left with
      | bool _ => exact absurd ⟨.inr rfl, .inl rfl⟩ loose
      | int v =>
          cases right with
          | bool _ => exact absurd ⟨.inr rfl, .inr rfl⟩ loose
          | int w => exact (decide_not (p := v = w)).symm
  | _ => rfl

theorem tryUnary_sound {op : UnaryOp} (folded : optConstFoldTryUnary op a = some r) :
    unaryValue op a = .real r.toInt := by
  cases op with
  | neg =>
      obtain ⟨special, same⟩ := Option.ite_none_left_eq_some.mp folded
      have ⟨low, high⟩ := toInt_range a
      have least : a.toInt ≠ -2 ^ 31 := fun same =>
        special (.inl (BitVec.toInt_inj.mp (same.trans toInt_int32Min.symm)))
      have negated : (-a).toInt = -a.toInt := by
        rw [BitVec.toInt_neg]
        exact Int.bmod_eq_of_le (by omega) (by omega)
      rw [← Option.some.inj same, unaryValue, if_neg fun zero => special (.inr zero), negated,
        Int.cast_neg]
  | not => rw [← Option.some.inj folded, unaryValue]
  | inc => cases folded
  | dec => cases folded

end PrimJs.ConstFold
