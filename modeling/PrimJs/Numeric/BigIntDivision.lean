import PrimJs.Numeric.BigInt

/-! Division of `BigInt` limbs. -/

namespace PrimJs.BigInt

variable {w : Nat}

section Reciprocal

/-- `a1 * 2^JS_LIMB_BITS + a0` as a `js_dlimb_t` -/
def joinLimbs (a1 a0 : BitVec w) : BitVec (2 * w) := double a1 <<< w ||| double a0

/-- `d` has its high bit set. -/
def udiv1normInit (d : BitVec w) : BitVec w :=
  let a1 := -d - 1#w
  let a0 := -1#w
  (joinLimbs a1 a0 / double d).setWidth w

/-- Quotient and remainder of `a1 * 2^JS_LIMB_BITS + a0` by `d`, for `a1 < d` -/
def udiv1norm (a1 a0 d dInv : BitVec w) : BitVec w × BitVec w :=
  let n1m := a0.sshiftRight (w - 1)
  let nAdj := a0 + (n1m &&& d)
  let a := double dInv * double (a1 - n1m) + double nAdj
  let q := (a >>> w).setWidth w + a1
  let a := joinLimbs a1 a0 - double q * double d - double d
  let ah := (a >>> w).setWidth w
  (q + (1#w + ah), a.setWidth w + (ah &&& d))

/-- The double-limb division that `udiv1norm` replaces -/
def divDouble (a1 a0 b : BitVec w) : BitVec w × BitVec w :=
  let a := joinLimbs a1 a0
  ((a / double b).setWidth w, (a % double b).setWidth w)

def udiv1normThreshold : Nat := 3

end Reciprocal

section Loops

def mpNeg : List (BitVec w) → BitVec w → List (BitVec w) × BitVec w
  | [], carry => ([], carry)
  | x :: op2, carry =>
      let v := ~~~x + carry
      let (res, carry) := mpNeg op2 (limbOf (v < carry))
      (v :: res, carry)

/-- `tabr[] -= taba[] * b` -/
def mpSubMul1 (b : BitVec w) :
    List (BitVec w) → List (BitVec w) → BitVec w → List (BitVec w) × BitVec w
  | y :: tabr, x :: taba, l =>
      let t := double y - double x * double b - double l
      let (tabr, l) := mpSubMul1 b tabr taba (-(t >>> w).setWidth w)
      (t.setWidth w :: tabr, l)
  | _, _, l => ([], l)

def div1Loop (divide : BitVec w → BitVec w → BitVec w × BitVec w) (r : BitVec w) :
    List (BitVec w) → List (BitVec w) × BitVec w
  | [] => ([], r)
  | a :: taba =>
      let (tabr, r) := div1Loop divide r taba
      let (q, r) := divide r a
      (q :: tabr, r)

def mpDiv1 (taba : List (BitVec w)) (b r : BitVec w) : List (BitVec w) × BitVec w :=
  div1Loop (divDouble · · b) r taba

def mpDiv1norm (taba : List (BitVec w)) (b r : BitVec w) : List (BitVec w) × BitVec w :=
  if udiv1normThreshold ≤ taba.length then
    let bInv := udiv1normInit b
    div1Loop (udiv1norm · · b bInv) r taba
  else div1Loop (divDouble · · b) r taba

def addBack (tabb : List (BitVec w)) :
    Nat → BitVec w → List (BitVec w) → BitVec w → Option (BitVec w × List (BitVec w))
  | 0, _, _, _ => none
  | fuel + 1, q, taba, high =>
      let q := q - 1#w
      let (taba, c) := addcLoop 0#w (taba.zip tabb)
      if c ≠ 0#w then
        let high := high + 1#w
        if high = 0#w then some (q, taba) else addBack tabb fuel q taba high
      else addBack tabb fuel q taba high

/-- One quotient limb. The window holds `taba[i]` to `taba[i + nb]`, of which the low `nb` limbs
are used again. -/
def divnormStep (fuel : Nat) (tabb : List (BitVec w)) (b1 b1Inv : BitVec w)
    (window : List (BitVec w)) : Option (BitVec w × List (BitVec w)) :=
  let nb := tabb.length
  let v := window.getD nb 0#w
  let below := window.getD (nb - 1) 0#w
  let q :=
    if b1 ≤ v then BitVec.allOnes w
    else if b1Inv ≠ 0#w then (udiv1norm v below b1 b1Inv).1
    else (divDouble v below b1).1
  let (taba, r) := mpSubMul1 q (window.take nb) tabb 0#w
  let a := v - r
  if v < a then addBack tabb fuel q taba a else some (q, taba)

/-- The loop runs down from the high limbs; `taba` are the limbs under the window. -/
def divnormLoop (step : List (BitVec w) → Option (BitVec w × List (BitVec w)))
    (window : List (BitVec w)) : List (BitVec w) → Option (List (BitVec w) × List (BitVec w))
  | [] => some ([], window)
  | a :: taba =>
      match divnormLoop step window taba with
      | none => none
      | some (tabq, window) =>
          match step (a :: window) with
          | none => none
          | some (q, window) => some (q :: tabq, window)

/-- The first iteration: the quotient limb is 0 or 1. -/
def divnormFirst (taba tabb : List (BitVec w)) : BitVec w × List (BitVec w) :=
  if compareLimbs (taba.zip tabb).reverse = -1 then (0#w, taba)
  else (1#w, (mpSub taba tabb 0#w).1)

/-- The division by at least two limbs, every estimate made with `b1Inv` unless that is 0 -/
def divnormWith (fuel : Nat) (b1Inv : BitVec w) (taba tabb : List (BitVec w)) :
    Option (List (BitVec w) × List (BitVec w)) :=
  let n := taba.length - tabb.length
  let b1 := tabb.getD (tabb.length - 1) 0#w
  let (q, high) := divnormFirst (taba.drop n) tabb
  (divnormLoop (divnormStep fuel tabb b1 b1Inv) high (taba.take n)).map
    fun (tabq, r) => (tabq ++ [q], r)

/-- The quotient, of `na - nb + 1` limbs, and the `nb` limbs of the remainder -/
def mpDivnorm (fuel : Nat) (taba tabb : List (BitVec w)) :
    Option (List (BitVec w) × List (BitVec w)) :=
  let nb := tabb.length
  let b1 := tabb.getD (nb - 1) 0#w
  if nb = 1 then
    let (tabq, r) := mpDiv1norm taba b1 0#w
    some (tabq, [r])
  else
    divnormWith fuel (if udiv1normThreshold ≤ taba.length - nb then udiv1normInit b1 else 0#w)
      taba tabb

/-- `mp_divnorm` without its reciprocals -/
def plainDivnorm (fuel : Nat) (taba tabb : List (BitVec w)) :
    Option (List (BitVec w) × List (BitVec w)) :=
  let nb := tabb.length
  let b1 := tabb.getD (nb - 1) 0#w
  if nb = 1 then
    let (tabq, r) := mpDiv1 taba b1 0#w
    some (tabq, [r])
  else divnormWith fuel 0#w taba tabb

end Loops

section Division

inductive DivisionError where
  | size (error : RangeError)
  | byZero
  | outOfFuel
  deriving DecidableEq, Repr

/-- The message of the `RangeError`. Running out of fuel is not an error of the engine. -/
def DivisionError.message : DivisionError → Option String
  | size error => some error.message
  | byZero => some "BigInt division by zero"
  | outOfFuel => none

/-- The limbs in use: `while (n > 1 && tab[n - 1] == 0) n--` -/
def usedLen (tab : List (BitVec w)) : Nat → Nat
  | n + 2 => if tab.getD (n + 1) 0#w = 0#w then usedLen tab (n + 1) else n + 2
  | n => n

def absLimbs (a : JSBigInt w) : List (BitVec w) :=
  let tab := if jsBigintSign a ≠ 0#w then (mpNeg a.tab 1#w).1 else a.tab
  tab.take (usedLen tab tab.length)

/-- The operands are shifted until the high bit of the divisor is set. -/
def shiftDivisor (taba tabb : List (BitVec w)) (shift : Nat) :
    List (BitVec w) × List (BitVec w) :=
  if shift ≠ 0 then
    let (tabr, h) := mpShl shift taba 0#w
    (if h ≠ 0#w then tabr ++ [h] else tabr, (mpShl shift tabb 0#w).1)
  else (taba, tabb)

/-- The remainder in a block of `len` limbs. Nothing reads the limbs above its own. -/
def remainderOf (len shift : Nat) (negate : Bool) (r : List (BitVec w)) :
    Allocating DivisionError (JSBigInt w) :=
  let r := if shift ≠ 0 then (mpShr r shift 0#w).1 else r
  let r := r ++ [0#w]
  let tab := if negate then (mpNeg r 1#w).1 else r
  Allocating.mapError .size
    (jsBigintNormalize1 ⟨tab ++ List.replicate (len - tab.length) 0#w⟩ tab.length)

def quotientOf (negate : Bool) (q : List (BitVec w)) : Allocating DivisionError (JSBigInt w) :=
  let q := q ++ [0#w]
  let tab := if negate then (mpNeg q 1#w).1 else q
  Allocating.mapError .size (jsBigintNormalize ⟨tab⟩)

def jsBigintDivrem (fuel : Nat) (a b : JSBigInt w) (isRem : Bool) :
    Allocating DivisionError (JSBigInt w) :=
  if b.len = 1 ∧ b.limb 0 = 0#w then throw (.thrown .byZero)
  else do
    let aSign := decide (jsBigintSign a ≠ 0#w)
    let bSign := decide (jsBigintSign b ≠ 0#w)
    Allocating.mapError .size (jsBigintNew w (a.len + 2))
    let taba := absLimbs a
    Allocating.allocate
    let tabb := absLimbs b
    if taba.length < tabb.length then
      if isRem then do
        Allocating.mapError .size (jsBigintNew w a.len)
        pure ⟨a.tab⟩
      else Allocating.mapError .size (jsBigintNewSi 0#w)
    else do
      let shift := (tabb.getD (tabb.length - 1) 0#w).clz.toNat
      let (taba, tabb) := shiftDivisor taba tabb shift
      Allocating.mapError .size (jsBigintNew w (taba.length - tabb.length + 2))
      match mpDivnorm fuel taba tabb with
      | none => throw (.thrown .outOfFuel)
      | some (q, r) =>
          if isRem then remainderOf (a.len + 2) shift aSign r
          else quotientOf (aSign ^^ bSign) q

end Division

end PrimJs.BigInt
