import PrimJs.Foundation.Allocating
import Mathlib.Algebra.Ring.Defs

/-! `BigInt` arithmetic on limbs in two's complement. -/

namespace PrimJs.BigInt

inductive LimbBits where
  | bits32
  | bits64
  deriving DecidableEq, Repr

/-- `JS_LIMB_BITS` -/
def LimbBits.width : LimbBits → Nat
  | bits32 => 32
  | bits64 => 64

/-- `JS_BIGINT_MAX_SIZE`, in limbs -/
def maxSize (w : Nat) : Nat := 1024 * 1024 / w

def stackLimbs : Nat := 16

def int32Max : Nat := 2^31 - 1

inductive RangeError where
  | tooLargeToAllocate
  | tooLarge
  | negativeExponent
  deriving DecidableEq, Repr

def RangeError.message : RangeError → String
  | tooLargeToAllocate => "BigInt is too large to allocate"
  | tooLarge => "BigInt is too large"
  | negativeExponent => "BigInt negative exponent"

structure JSBigInt (w : Nat) where
  tab : List (BitVec w)
  deriving DecidableEq, Repr

variable {w : Nat}

def JSBigInt.len (a : JSBigInt w) : Nat := a.tab.length

def JSBigInt.limb (a : JSBigInt w) (i : Nat) : BitVec w := a.tab.getD i 0#w

def limbOf (flag : Bool) : BitVec w := if flag then 1#w else 0#w

section Limbs

/-- `ADDC`: the limb and the carry out -/
def addc (op1 op2 carry : BitVec w) : BitVec w × BitVec w :=
  let a := op1 + op2
  let k1 := limbOf (a < op1)
  let a' := a + carry
  (a', limbOf (a' < carry) ||| k1)

def addcLoop (carry : BitVec w) : List (BitVec w × BitVec w) → List (BitVec w) × BitVec w
  | [] => ([], carry)
  | (op1, op2) :: rest =>
      let (limb, carry) := addc op1 op2 carry
      let (tab, carry) := addcLoop carry rest
      (limb :: tab, carry)

def mpSub : List (BitVec w) → List (BitVec w) → BitVec w → List (BitVec w) × BitVec w
  | v :: op1, y :: op2, k =>
      let a := v - y
      let k1 := limbOf (v < a)
      let v' := a - k
      let (res, k) := mpSub op1 op2 (limbOf (a < v') ||| k1)
      (v' :: res, k)
  | _, _, k => ([], k)

/-- The low limb and the high limb of a `js_dlimb_t` -/
def splitDouble (t : BitVec (2 * w)) : BitVec w × BitVec w :=
  (t.setWidth w, (t >>> w).setWidth w)

def double (x : BitVec w) : BitVec (2 * w) := x.setWidth (2 * w)

/-- `taba[] * b + l` -/
def mpMul1 (b : BitVec w) : List (BitVec w) → BitVec w → List (BitVec w) × BitVec w
  | [], l => ([], l)
  | x :: taba, l =>
      let (limb, l) := splitDouble (double x * double b + double l)
      let (tabr, l) := mpMul1 b taba l
      (limb :: tabr, l)

/-- `tabr[] += taba[] * b` -/
def mpAddMul1 (b : BitVec w) :
    List (BitVec w) → List (BitVec w) → BitVec w → List (BitVec w) × BitVec w
  | y :: tabr, x :: taba, l =>
      let (limb, l) := splitDouble (double x * double b + double l + double y)
      let (tabr, l) := mpAddMul1 b tabr taba l
      (limb :: tabr, l)
  | _, _, l => ([], l)

/-- The rows after the first. `result` starts at the limb below the row's. -/
def mulRows (op1 : List (BitVec w)) : List (BitVec w) → List (BitVec w) → List (BitVec w)
  | low :: result, y :: op2 =>
      let (row, r) := mpAddMul1 y result op1 0#w
      low :: mulRows op1 (row ++ [r]) op2
  | result, _ => result

def mpMulBasecase (op1 op2 : List (BitVec w)) : List (BitVec w) :=
  match op2 with
  | [] => []
  | y :: op2 =>
      let (row, r) := mpMul1 y op1 0#w
      mulRows op1 (row ++ [r]) op2

def mpShl (shift : Nat) : List (BitVec w) → BitVec w → List (BitVec w) × BitVec w
  | [], l => ([], l)
  | v :: taba, l =>
      let limb := v <<< shift ||| l
      let (tabr, l) := mpShl shift taba (v >>> (w - shift))
      (limb :: tabr, l)

/-- The loop runs down from the high limb. The second component is the limb it read last. -/
def mpShrLoop (shift : Nat) (high : BitVec w) : List (BitVec w) → List (BitVec w) × BitVec w
  | [] => ([], high)
  | a :: tab =>
      let (tabR, l) := mpShrLoop shift high tab
      ((a >>> shift ||| l <<< (w - shift)) :: tabR, a)

def mpShr (tab : List (BitVec w)) (shift : Nat) (high : BitVec w) : List (BitVec w) × BitVec w :=
  let (tabR, l) := mpShrLoop shift high tab
  (tabR, l &&& ((1#w <<< shift) - 1#w))

end Limbs

section Allocation

def jsBigintNew (w len : Nat) : Allocating RangeError Unit :=
  if maxSize w < len then throw (.thrown .tooLargeToAllocate) else Allocating.allocate

def jsBigintNewSi (a : BitVec w) : Allocating RangeError (JSBigInt w) := do
  jsBigintNew w 1
  pure ⟨[a]⟩

def jsBigintNewDi (a : BitVec (2 * w)) : Allocating RangeError (JSBigInt w) :=
  if a = (a.setWidth w).signExtend (2 * w) then do
    jsBigintNew w 1
    pure ⟨[a.setWidth w]⟩
  else do
    jsBigintNew w 2
    pure ⟨[a.setWidth w, (a.sshiftRight w).setWidth w]⟩

/-- The high limb `v` is needed: it does not only repeat the sign of the limb below. -/
def keepsLimb (v below : BitVec w) : Bool :=
  (v ≠ 0#w && v ≠ BitVec.allOnes w) || (v &&& 1#w) ≠ below >>> (w - 1)

def trimmedLen (tab : List (BitVec w)) : Nat → Nat
  | l + 2 => if keepsLimb (tab.getD (l + 1) 0#w) (tab.getD l 0#w) then l + 2 else trimmedLen tab (l + 1)
  | l => l

/-- Reallocation to the smaller size may fail, and the old block is then kept. -/
def jsBigintNormalize1 (a : JSBigInt w) (l : Nat) : Allocating RangeError (JSBigInt w) :=
  let l := trimmedLen a.tab l
  if l ≠ a.len then do
    let _ ← Allocating.tryAllocate
    pure ⟨a.tab.take l⟩
  else pure a

def jsBigintNormalize (a : JSBigInt w) : Allocating RangeError (JSBigInt w) :=
  jsBigintNormalize1 a a.len

def jsBigintSign (a : JSBigInt w) : BitVec w := a.limb (a.len - 1) >>> (w - 1)

def jsBigintExtend (r : JSBigInt w) (op1 : BitVec w) : Allocating RangeError (JSBigInt w) :=
  if keepsLimb op1 (r.limb (r.len - 1)) then do
    Allocating.allocate
    pure ⟨r.tab ++ [op1]⟩
  else jsBigintNormalize r

def jsBigintNewFromTab (tab : List (BitVec w)) : Allocating RangeError (JSBigInt w) := do
  let len := trimmedLen tab tab.length
  jsBigintNew w len
  pure ⟨tab.take len⟩

end Allocation

section Arithmetic

/-- The limbs of `b` under `^ (-b_neg)` -/
def negMask (bNeg : Bool) : BitVec w := if bNeg then BitVec.allOnes w else 0#w

/-- The low limbs of `a + b` or `a - b`, and the next limb -/
def jsBigintAddTab (a b : JSBigInt w) (bNeg : Bool) : List (BitVec w) × BitVec w :=
  let n1 := min a.len b.len
  let op2 := b.tab.map (· ^^^ negMask bNeg)
  let (common, carry) := addcLoop (limbOf bNeg) (a.tab.zip op2)
  let aSign := -jsBigintSign a
  let bSign := (-jsBigintSign b) ^^^ negMask bNeg
  let (extension, carry) :=
    if b.len < a.len then addcLoop carry ((a.tab.drop n1).map fun op1 => (op1, bSign))
    else if a.len < b.len then addcLoop carry ((op2.drop n1).map fun op2 => (aSign, op2))
    else ([], carry)
  (common ++ extension, aSign + bSign + carry)

def jsBigintAddOnStack (a b : JSBigInt w) : Bool := max a.len b.len < stackLimbs

def addOnStack (a b : JSBigInt w) (bNeg : Bool) : Allocating RangeError (JSBigInt w) :=
  let (tab, high) := jsBigintAddTab a b bNeg
  jsBigintNewFromTab (tab ++ [high])

def addOnHeap (a b : JSBigInt w) (bNeg : Bool) : Allocating RangeError (JSBigInt w) := do
  jsBigintNew w (max a.len b.len)
  let (tab, high) := jsBigintAddTab a b bNeg
  jsBigintExtend ⟨tab⟩ high

def slimbs (x : BitVec w) : BitVec (2 * w) := x.signExtend (2 * w)

def jsBigintAdd (a b : JSBigInt w) (bNeg : Bool) : Allocating RangeError (JSBigInt w) :=
  if a.len = 1 ∧ b.len = 1 then
    jsBigintNewDi (if bNeg then slimbs (a.limb 0) - slimbs (b.limb 0)
      else slimbs (a.limb 0) + slimbs (b.limb 0))
  else if jsBigintAddOnStack a b then addOnStack a b bNeg
  else addOnHeap a b bNeg

def jsBigintNeg (a : JSBigInt w) : Allocating RangeError (JSBigInt w) :=
  jsBigintAdd ⟨[0#w]⟩ a true

def jsBigintMulTab (a b : JSBigInt w) : List (BitVec w) :=
  let tab := mpMulBasecase a.tab b.tab
  let tab := if jsBigintSign a ≠ 0#w
    then tab.take a.len ++ (mpSub (tab.drop a.len) b.tab 0#w).1 else tab
  if jsBigintSign b ≠ 0#w
    then tab.take b.len ++ (mpSub (tab.drop b.len) a.tab 0#w).1 else tab

def jsBigintMulOnStack (a b : JSBigInt w) : Bool := a.len + b.len ≤ stackLimbs

def mulOnStack (a b : JSBigInt w) : Allocating RangeError (JSBigInt w) :=
  jsBigintNewFromTab (jsBigintMulTab a b)

def mulOnHeap (a b : JSBigInt w) : Allocating RangeError (JSBigInt w) := do
  jsBigintNew w (a.len + b.len)
  jsBigintNormalize ⟨jsBigintMulTab a b⟩

def jsBigintMul (a b : JSBigInt w) : Allocating RangeError (JSBigInt w) :=
  if a.len = 1 ∧ b.len = 1 then jsBigintNewDi (slimbs (a.limb 0) * slimbs (b.limb 0))
  else if jsBigintMulOnStack a b then mulOnStack a b
  else mulOnHeap a b

end Arithmetic

section Bits

inductive LogicOp where
  | or
  | and
  | xor
  deriving DecidableEq, Repr

def LogicOp.apply : LogicOp → BitVec w → BitVec w → BitVec w
  | .or, x, y => x ||| y
  | .and, x, y => x &&& y
  | .xor, x, y => x ^^^ y

/-- `a` is the longer operand. -/
def logicTab (op : LogicOp) (a b : JSBigInt w) : List (BitVec w) :=
  List.zipWith op.apply a.tab b.tab ++ (a.tab.drop b.len).map (op.apply · (-jsBigintSign b))

def jsBigintLogic (a b : JSBigInt w) (op : LogicOp) : Allocating RangeError (JSBigInt w) := do
  let (a, b) := if a.len < b.len then (b, a) else (a, b)
  jsBigintNew w a.len
  jsBigintNormalize ⟨logicTab op a b⟩

def jsBigintNot (a : JSBigInt w) : Allocating RangeError (JSBigInt w) := do
  jsBigintNew w a.len
  pure ⟨a.tab.map (~~~ ·)⟩

def jsBigintShl (a : JSBigInt w) (shift1 : BitVec 32) : Allocating RangeError (JSBigInt w) :=
  if a.len = 1 ∧ a.limb 0 = 0#w then jsBigintNewSi 0#w
  else do
    let d := shift1.toNat / w
    let shift := shift1.toNat % w
    jsBigintNew w (a.len + d)
    if shift = 0 then pure ⟨List.replicate d 0#w ++ a.tab⟩
    else
      let (tab, l) := mpShl shift a.tab 0#w
      let l := if jsBigintSign a ≠ 0#w then l ||| BitVec.allOnes w <<< shift else l
      jsBigintExtend ⟨List.replicate d 0#w ++ tab⟩ l

def jsBigintShr (a : JSBigInt w) (shift1 : BitVec 32) : Allocating RangeError (JSBigInt w) :=
  let d := shift1.toNat / w
  let shift := shift1.toNat % w
  if a.len ≤ d then jsBigintNewSi (-jsBigintSign a)
  else do
    jsBigintNew w (a.len - d)
    if shift = 0 then pure ⟨a.tab.drop d⟩
    else jsBigintNormalize ⟨(mpShr (a.tab.drop d) shift (-jsBigintSign a)).1⟩

end Bits

section Power

/-- `v` is the power of two `2^n`, the absolute value of the base. -/
def powOfTwo (v : BitVec w) (isNeg : Bool) (b : JSBigInt w) : Allocating RangeError (JSBigInt w) :=
  let n := w - 1 - v.clz.toNat
  let e := (b.limb 0).toNat * n
  if 1 < b.len then throw (.thrown .tooLarge)
  else if int32Max < (b.limb 0).toNat then throw (.thrown .tooLarge)
  else if maxSize w * w < e then throw (.thrown .tooLarge)
  else do
    let isNeg := isNeg && b.limb 0 &&& 1#w ≠ 0#w
    let len := (e + w + 1 - isNeg.toNat) / w
    jsBigintNew w len
    let top := if isNeg then BitVec.allOnes w else 1#w
    pure ⟨(List.replicate len 0#w).set (e / w) (top <<< (e % w))⟩

def powLoop (a : JSBigInt w) (e : Nat) : Nat → JSBigInt w → Allocating RangeError (JSBigInt w)
  | 0, r => pure r
  | i + 1, r => do
      let square ← jsBigintMul r r
      let r ← if e.testBit i then jsBigintMul square a else pure square
      powLoop a e i r

def powBySquaring (a b : JSBigInt w) : Allocating RangeError (JSBigInt w) :=
  if 1 < b.len then throw (.thrown .tooLarge)
  else if int32Max < (b.limb 0).toNat then throw (.thrown .tooLarge)
  else do
    let e := (b.limb 0).toNat
    let nBits := 32 - (BitVec.ofNat 32 e).clz.toNat
    jsBigintNew w a.len
    powLoop a e (nBits - 1) a

def jsBigintPow (a b : JSBigInt w) : Allocating RangeError (JSBigInt w) :=
  if jsBigintSign b ≠ 0#w then throw (.thrown .negativeExponent)
  else if b.len = 1 ∧ b.limb 0 = 0#w then jsBigintNewSi 1#w
  else if a.len = 1 then
    let v := a.limb 0
    if v ≤ 1#w then jsBigintNewSi v
    else if v = BitVec.allOnes w then jsBigintNewSi (1#w - 2#w * (b.limb 0 &&& 1#w))
    else
      let isNeg := v.msb
      let v := if isNeg then -v else v
      if v &&& (v - 1#w) = 0#w then powOfTwo v isNeg b else powBySquaring a b
  else powBySquaring a b

end Power

def compareLimbs : List (BitVec w × BitVec w) → Int
  | [] => 0
  | (x, y) :: rest => if x ≠ y then (if x < y then -1 else 1) else compareLimbs rest

def jsBigintCmp (a b : JSBigInt w) : Int :=
  let aSign : Int := (jsBigintSign a).toNat
  let bSign : Int := (jsBigintSign b).toNat
  if aSign ≠ bSign then 1 - 2 * aSign
  else if a.len ≠ b.len then
    if a.len < b.len then 2 * aSign - 1 else 1 - 2 * aSign
  else compareLimbs (a.tab.zip b.tab).reverse

end PrimJs.BigInt
