import PrimJs.Foundation.Binary64
import PrimJs.Numeric.BigInt

/-! `BigInt` and 64-bit floating point: conversions and comparisons on bit patterns. -/

namespace PrimJs.BigInt

variable {w : Nat} {limbBits : LimbBits}

section Mantissa

/-- The limbs of `abs(a)`: `(a->tab[i] ^ (-sgn)) + carry` -/
def absLoop (sgn : BitVec w) : List (BitVec w) → BitVec w → List (BitVec w)
  | [], _ => []
  | x :: tab, carry =>
      let v := (x ^^^ -sgn) + carry
      v :: absLoop sgn tab (limbOf (v < carry))

/-- `n2`, the number of high limbs in the mantissa -/
def mantissaLimbs (w : Nat) : Nat := 4 - w / 32

/-- `a1` and `a0` of the limbs `t` -/
def mantissaWords : (limbBits : LimbBits) → List (BitVec limbBits.width) → BitVec 64 × BitVec 64
  | .bits32, t => ((t.getD 2 0#32).setWidth 64 <<< 32 ||| (t.getD 1 0#32).setWidth 64,
      (t.getD 0 0#32).setWidth 64 <<< 32)
  | .bits64, t => (t.getD 1 0#64, t.getD 0 0#64)

/-- `a1` with the bits below that fit, what is left of `a0`, and the shift -/
def normalizeMantissa (a1 a0 : BitVec 64) : BitVec 64 × BitVec 64 × Nat :=
  if a1 = 0#64 then (a0, 0#64, 64)
  else
    let shift := a1.clz.toNat
    if shift ≠ 0 then (a1 <<< shift ||| a0 >>> (64 - shift), a0 <<< shift, shift)
    else (a1, a0, shift)

/-- The mantissa and the exponent. Where `a` has fewer limbs than the mantissa, the low limbs of
`t` are 0. -/
def jsBigintGetMantExp (a : JSBigInt limbBits.width) : BitVec 64 × Int :=
  let n2 := mantissaLimbs limbBits.width
  let sgn := jsBigintSign a
  let tab := absLoop sgn a.tab sgn
  let lowBits := (tab.take (a.len - n2)).foldl (· ||| ·) 0#(limbBits.width)
  let t := List.replicate (n2 - a.len) 0#(limbBits.width) ++ tab.drop (a.len - n2)
  let (a1, a0) := mantissaWords limbBits t
  let a0 := a0 ||| limbOf (lowBits ≠ 0#(limbBits.width))
  let (a1, a0, shift) := normalizeMantissa a1 a0
  (a1 ||| limbOf (a0 ≠ 0#64), a.len * limbBits.width - shift - 1)

def shrRndn (a : BitVec 64) (n : Nat) : BitVec 64 :=
  let addend := (a >>> n &&& 1#64) + (1#64 <<< (n - 1) - 1#64)
  (a + addend) >>> n

end Mantissa

section Conversion

/-- The rounded mantissa without its leading bit, and the exponent -/
def roundMantissa (mant : BitVec 64) (e : Int) : BitVec 64 × Int :=
  if 1023 < e then (0#64, 1024)
  else
    let mant := mant >>> 1 ||| mant &&& 1#64
    let mant := shrRndn mant 10
    let (mant, e) := if 1#64 <<< 53 ≤ mant then (mant >>> 1, e + 1) else (mant, e)
    (mant &&& (1#64 <<< 52 - 1#64), e)

/-- One limb is converted by the hardware, which rounds to the nearest double. -/
def jsBigintToFloat64 (a : JSBigInt limbBits.width) : BitVec 64 :=
  if a.len = 1 then Binary64.ofInt (a.limb 0).toInt
  else
    let sgn := jsBigintSign a
    let (mant, e) := jsBigintGetMantExp a
    let (mant, e) := roundMantissa mant e
    sgn.setWidth 64 <<< 63 ||| BitVec.ofInt 64 (e + 1023) <<< 52 ||| mant

def jsBigintSetSi64 : (limbBits : LimbBits) → BitVec 64 → JSBigInt limbBits.width
  | .bits64, a => ⟨[a]⟩
  | .bits32, a =>
      if -(2^31) ≤ a.toInt ∧ a.toInt ≤ 2^31 - 1 then ⟨[a.setWidth 32]⟩
      else ⟨[a.setWidth 32, (a.sshiftRight 32).setWidth 32]⟩

/-- The values of `*pres`: 0 with the integer, 1 and 2 -/
inductive FromFloat64 (w : Nat) where
  | integer (r : JSBigInt w)
  | notInteger
  | notFinite
  deriving DecidableEq, Repr

def exponentBits (b : BitVec 64) : Nat := (b >>> 52 &&& (1#64 <<< 11 - 1#64)).toNat

def mantissaBits (b : BitVec 64) : BitVec 64 := b &&& (1#64 <<< 52 - 1#64)

def jsBigintFromFloat64 (limbBits : LimbBits) (a : BitVec 64) :
    Allocating RangeError (FromFloat64 limbBits.width) :=
  let sgn := a >>> 63
  let e := exponentBits a
  let mant := mantissaBits a
  if e = 2047 then pure .notFinite
  else if e = 0 ∧ mant = 0#64 then .integer <$> jsBigintNewSi 0#(limbBits.width)
  else if e < 1023 then pure .notInteger
  else
    let e := e - 1023
    let mant := mant ||| 1#64 <<< 52
    let shift := 52 - e
    if e < 52 ∧ mant &&& (1#64 <<< shift - 1#64) ≠ 0#64 then pure .notInteger
    else
      let (mant, e) := if e < 52 then (mant >>> shift, 0) else (mant, e - 52)
      let mant := if sgn ≠ 0#64 then -mant else mant
      .integer <$> jsBigintShl (jsBigintSetSi64 limbBits mant) (BitVec.ofNat 32 e)

end Conversion

section Comparison

/-- -1, 0, 1 or, for unordered operands, 2 -/
def jsBigintFloat64Cmp (a : JSBigInt limbBits.width) (b : BitVec 64) : Int :=
  let bSign : Int := (b >>> 63).toNat
  let e := exponentBits b
  let mant := mantissaBits b
  let aSign : Int := (jsBigintSign a).toNat
  if e = 2047 then
    if mant ≠ 0#64 then 2 else 2 * bSign - 1
  else if e = 0 ∧ mant = 0#64 then
    if a.len = 1 ∧ a.limb 0 = 0#(limbBits.width) then 0 else 1 - 2 * aSign
  else if a.len = 1 ∧ a.limb 0 = 0#(limbBits.width) then 2 * bSign - 1
  else if aSign ≠ bSign then 1 - 2 * aSign
  else
    let e : Int := e - 1023
    let (aMant, f) := jsBigintGetMantExp a
    if f ≠ e then (if f < e then -1 else 1)
    else
      let mant := (mant ||| 1#64 <<< 52) <<< 11
      if aMant < mant then 2 * aSign - 1
      else if mant < aMant then 1 - 2 * aSign
      else 0

inductive Operand (w : Nat) where
  | int (x : BitVec 32)
  | bigInt (a : JSBigInt w)
  | float64 (b : BitVec 64)
  deriving DecidableEq, Repr

inductive CompareOp where
  | lt
  | lte
  | gt
  | gte
  | eq
  deriving DecidableEq, Repr

def CompareOp.ofVal : CompareOp → Int → Bool
  | lt, val => val < 0
  | lte, val => val ≤ 0
  | gt, val => val > 0
  | gte, val => val ≥ 0
  | eq, val => val = 0

/-- Aborts on a number of another type. -/
def jsToBigIntBuf : Operand limbBits.width → Option (JSBigInt limbBits.width)
  | .int x => some ⟨[x.signExtend limbBits.width]⟩
  | .bigInt a => some a
  | .float64 _ => none

def jsCompareBigint (op : CompareOp) (op1 op2 : Operand limbBits.width) : Option Bool :=
  match op1, op2 with
  | .int v1, .int v2 =>
      let val : Int := (v2.slt v1).toInt - (v1.slt v2).toInt
      some (op.ofVal val)
  | .float64 b, op2 => do
      let p2 ← jsToBigIntBuf op2
      let val := jsBigintFloat64Cmp p2 b
      if val = 2 then pure false else pure (op.ofVal (-val))
  | op1, .float64 b => do
      let p1 ← jsToBigIntBuf op1
      let val := jsBigintFloat64Cmp p1 b
      if val = 2 then pure false else pure (op.ofVal val)
  | op1, op2 => do
      let p1 ← jsToBigIntBuf op1
      let p2 ← jsToBigIntBuf op2
      pure (op.ofVal (jsBigintCmp p1 p2))

end Comparison

end PrimJs.BigInt
