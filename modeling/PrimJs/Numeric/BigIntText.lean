import PrimJs.Numeric.BigIntDivision

/-! `BigInt` to text and back. -/

namespace PrimJs.BigInt

variable {w : Nat} {limbBits : LimbBits}

section Tables

def limbDigits : LimbBits → Nat
  | .bits32 => 9
  | .bits64 => 19

def jsPowDec (limbBits : LimbBits) : List Nat :=
  List.take (limbDigits limbBits + 1)
    [1, 10, 100, 1000, 10000, 100000, 1000000, 10000000, 100000000, 1000000000, 10000000000,
      100000000000, 1000000000000, 10000000000000, 100000000000000, 1000000000000000,
      10000000000000000, 100000000000000000, 1000000000000000000, 10000000000000000000]

def digits : List Char :=
  ['0', '1', '2', '3', '4', '5', '6', '7', '8', '9', 'a', 'b', 'c', 'd', 'e', 'f', 'g', 'h', 'i',
    'j', 'k', 'l', 'm', 'n', 'o', 'p', 'q', 'r', 's', 't', 'u', 'v', 'w', 'x', 'y', 'z']

def digitsPerLimbTable : LimbBits → List Nat
  | .bits32 =>
      [32, 20, 16, 13, 12, 11, 10, 10, 9, 9, 8, 8, 8, 8, 8, 7, 7, 7,
        7, 7, 7, 7, 6, 6, 6, 6, 6, 6, 6, 6, 6, 6, 6, 6, 6]
  | .bits64 =>
      [64, 40, 32, 27, 24, 22, 21, 20, 19, 18, 17, 17, 16, 16, 16, 15, 15, 15,
        14, 14, 14, 14, 13, 13, 13, 13, 13, 13, 13, 12, 12, 12, 12, 12, 12]

def radixBaseTable : LimbBits → List Nat
  | .bits32 =>
      [0x00000000, 0xcfd41b91, 0x00000000, 0x48c27395, 0x81bf1000, 0x75db9c97,
        0x40000000, 0xcfd41b91, 0x3b9aca00, 0x8c8b6d2b, 0x19a10000, 0x309f1021,
        0x57f6c100, 0x98c29b81, 0x00000000, 0x18754571, 0x247dbc80, 0x3547667b,
        0x4c4b4000, 0x6b5a6e1d, 0x94ace180, 0xcaf18367, 0x0b640000, 0x0e8d4a51,
        0x1269ae40, 0x17179149, 0x1cb91000, 0x23744899, 0x2b73a840, 0x34e63b41,
        0x40000000, 0x4cfa3cc1, 0x5c13d840, 0x6d91b519, 0x81bf1000]
  | .bits64 =>
      [0x0000000000000000, 0xa8b8b452291fe821, 0x0000000000000000,
        0x6765c793fa10079d, 0x41c21cb8e1000000, 0x3642798750226111,
        0x8000000000000000, 0xa8b8b452291fe821, 0x8ac7230489e80000,
        0x4d28cb56c33fa539, 0x1eca170c00000000, 0x780c7372621bd74d,
        0x1e39a5057d810000, 0x5b27ac993df97701, 0x0000000000000000,
        0x27b95e997e21d9f1, 0x5da0e1e53c5c8000, 0xd2ae3299c1c4aedb,
        0x16bcc41e90000000, 0x2d04b7fdd9c0ef49, 0x5658597bcaa24000,
        0xa0e2073737609371, 0x0c29e98000000000, 0x14adf4b7320334b9,
        0x226ed36478bfa000, 0x383d9170b85ff80b, 0x5a3c23e39c000000,
        0x8e65137388122bcd, 0xdd41bb36d259e000, 0x0aee5720ee830681,
        0x1000000000000000, 0x172588ad4f5f0981, 0x211e44f7d02c1000,
        0x2ee56725f06e5c71, 0x41c21cb8e1000000]

def toDigit (c : Char) : Nat :=
  if '0' ≤ c ∧ c ≤ '9' then c.toNat - '0'.toNat
  else if 'A' ≤ c ∧ c ≤ 'Z' then c.toNat - 'A'.toNat + 10
  else if 'a' ≤ c ∧ c ≤ 'z' then c.toNat - 'a'.toNat + 10
  else 36

def clz32 (a : Nat) : Nat := (BitVec.ofNat 32 a).clz.toNat

end Tables

section FromString

/-- A group of at most `n` digits: how many there are, `v` followed by them, and the rest of the
text. The NUL after the text is no digit. -/
def readGroup : Nat → BitVec w → List Char → Nat × BitVec w × List Char
  | 0, v, p => (0, v, p)
  | _ + 1, v, [] => (0, v, [])
  | n + 1, v, ch :: p =>
      if 10 ≤ toDigit ch then (0, v, ch :: p)
      else
        let (i, v, p) := readGroup n (v * 10#w + BitVec.ofNat w (toDigit ch)) p
        (i + 1, v, p)

/-- `r->tab[len++] = h`, or nothing past the last of `nLimbs` limbs -/
def appendLimb (nLimbs : Nat) (tab : List (BitVec w)) (h : BitVec w) :
    Option (List (BitVec w)) :=
  if tab.length < nLimbs then some (tab ++ [h]) else none

def decimalLoop (limbBits : LimbBits) (nLimbs : Nat) :
    Nat → List (BitVec limbBits.width) → List Char → Option (List (BitVec limbBits.width))
  | 0, _, _ => none
  | fuel + 1, tab, p =>
      let (i, v, p) := readGroup (limbDigits limbBits) 0#(limbBits.width) p
      if i = 0 then some tab
      else if tab = [0#(limbBits.width)] then decimalLoop limbBits nLimbs fuel [v] p
      else
        let (tab, h) := mpMul1 (BitVec.ofNat limbBits.width ((jsPowDec limbBits).getD i 0)) tab v
        if h ≠ 0#(limbBits.width) then (appendLimb nLimbs tab h).bind (decimalLoop limbBits nLimbs fuel · p)
        else decimalLoop limbBits nLimbs fuel tab p

def decimalTab (limbBits : LimbBits) (nLimbs : Nat) (p : List Char) :
    Option (List (BitVec limbBits.width)) :=
  (decimalLoop limbBits nLimbs (p.length + 1) [0#(limbBits.width)] p).bind fun tab =>
    -- one extra limb to have the correct sign
    if tab.getD (tab.length - 1) 0#(limbBits.width) >>> (limbBits.width - 1) ≠ 0#(limbBits.width) then
      appendLimb nLimbs tab 0#(limbBits.width)
    else some tab

/-- `r->tab[pos] |= x`, or nothing past the last limb -/
def orLimb (tab : List (BitVec w)) (pos : Nat) (x : BitVec w) : Option (List (BitVec w)) :=
  if pos < tab.length then some (tab.set pos (tab.getD pos 0#w ||| x)) else none

/-- The digit `c` is the `i`-th from the end. A failed assertion gives nothing. -/
def binaryStep (radix log2Radix : Nat) (tab : List (BitVec w)) (digit : Char × Nat) :
    Option (List (BitVec w)) :=
  let c := toDigit digit.1
  let bitPos := digit.2 * log2Radix
  let shift := bitPos &&& (w - 1)
  let pos := bitPos / w
  if radix ≤ c then none
  else
    (orLimb tab pos (BitVec.ofNat w c <<< shift)).bind fun tab =>
      if w < shift + log2Radix then orLimb tab (pos + 1) (BitVec.ofNat w c >>> (w - shift))
      else some tab

def binaryTab (w radix log2Radix nLimbs : Nat) (p : List Char) : Option (List (BitVec w)) :=
  p.reverse.zipIdx.foldlM (binaryStep radix log2Radix) (List.replicate nLimbs 0#w)

/-- `n_limbs`: the bits of the digits and one extra bit for the sign -/
def limbEstimate (w radix nDigits : Nat) : Nat :=
  let nBits :=
    if radix = 10 then (nDigits * 27 + 7) / 8 else nDigits * (32 - clz32 (radix - 1))
  max 1 (nBits / w + 1)

def fromStringTab (limbBits : LimbBits) (radix nLimbs : Nat) (p : List Char) :
    Option (List (BitVec limbBits.width)) :=
  if radix = 10 then decimalTab limbBits nLimbs p
  else binaryTab limbBits.width radix (32 - clz32 (radix - 1)) nLimbs p

/-- Nothing is returned where a limb is written past the allocated ones. -/
def jsBigintFromString (limbBits : LimbBits) (str : List Char) (radix : Nat) :
    Allocating RangeError (Option (JSBigInt limbBits.width)) :=
  let isNeg := str.head? = some '-'
  let p := (if isNeg then str.tail else str).dropWhile (· = '0')
  if maxSize limbBits.width * limbBits.width < p.length then throw (.thrown .tooLargeToAllocate)
  else do
    let nLimbs := limbEstimate limbBits.width radix p.length
    jsBigintNew limbBits.width nLimbs
    match fromStringTab limbBits radix nLimbs p with
    | none => pure none
    | some tab => do
        let r ← jsBigintNormalize ⟨tab⟩
        if isNeg then some <$> jsBigintNeg r else pure (some r)

end FromString

section ToString

/-- The text before the NUL, which is written backwards, and the free bytes before it -/
structure CharBuffer where
  room : Nat
  text : List Char
  deriving DecidableEq, Repr

/-- `*--q = c`, or nothing before the start of the buffer -/
def CharBuffer.put (q : CharBuffer) (c : Char) : Option CharBuffer :=
  match q.room with
  | 0 => none
  | room + 1 => some ⟨room, c :: q.text⟩

def digitChar (digit : Nat) : Char := digits.getD digit '0'

def jsU64toa (base : Nat) : Nat → CharBuffer → Nat → Option CharBuffer
  | 0, _, _ => none
  | fuel + 1, q, n =>
      (q.put (digitChar (n % base))).bind fun q =>
        if n / base ≠ 0 then jsU64toa base fuel q (n / base) else some q

def limbToA (radix : Nat) : Nat → CharBuffer → Nat → Option CharBuffer
  | 0, q, _ => some q
  | len + 1, q, n => (q.put (digitChar (n % radix))).bind fun q => limbToA radix len q (n / radix)

def groupsLoop (limbBits : LimbBits) (radix : Nat) :
    Nat → List (BitVec limbBits.width) → CharBuffer → Option CharBuffer
  | 0, _, _ => none
  | fuel + 1, tab, q =>
      let radixBase := (radixBaseTable limbBits).getD (radix - 2) 0
      let tab := tab.take (usedLen tab tab.length)
      if tab.length = 1 ∧ (tab.getD 0 0#(limbBits.width)).toNat < radixBase then
        let v := (tab.getD 0 0#(limbBits.width)).toNat
        if v ≠ 0 then jsU64toa radix limbBits.width q v else some q
      else
        let (tab, v) := mpDiv1 tab (BitVec.ofNat limbBits.width radixBase) 0#(limbBits.width)
        (limbToA radix ((digitsPerLimbTable limbBits).getD (radix - 2) 0) q v.toNat).bind
          (groupsLoop limbBits radix fuel tab ·)

/-- The digit `i` of a radix that is a power of two. `c` is an `unsigned int`. -/
def binaryDigit (tab : List (BitVec w)) (radix log2Radix i : Nat) : Nat :=
  let bitPos := i * log2Radix
  let pos := bitPos / w
  let shift := bitPos % w
  let c := (tab.getD pos 0#w >>> shift).setWidth 32
  let c :=
    if w < shift + log2Radix ∧ pos + 1 < tab.length then
      c ||| (tab.getD (pos + 1) 0#w <<< (w - shift)).setWidth 32
    else c
  (c &&& BitVec.ofNat 32 (radix - 1)).toNat

def binaryLoop (tab : List (BitVec w)) (radix log2Radix nDigits : Nat) (q : CharBuffer) :
    Option CharBuffer :=
  (List.range nDigits).foldlM
    (fun q i => q.put (digitChar (binaryDigit tab radix log2Radix i))) q

def isBinaryRadix (radix : Nat) : Bool := radix &&& (radix - 1) = 0

/-- `n_digits`, exact only if the radix is a power of two -/
def digitEstimate (tab : List (BitVec w)) (radix : Nat) : Nat :=
  let log2Radix := 31 - clz32 radix
  let nBits := tab.length * w - (tab.getD (tab.length - 1) 0#w).clz.toNat
  (nBits + log2Radix - 1) / log2Radix

/-- The limbs `tab` are those of the absolute value. -/
def toStringText (limbBits : LimbBits) (tab : List (BitVec limbBits.width)) (radix : Nat)
    (isNeg : Bool) : Option (List Char) :=
  let nDigits := digitEstimate tab radix
  let q : CharBuffer := ⟨nDigits + isNeg.toNat, []⟩
  let q :=
    if isBinaryRadix radix then binaryLoop tab radix (31 - clz32 radix) nDigits q
    else groupsLoop limbBits radix (limbBits.width * tab.length + 1) tab q
  let q := if isNeg then q.bind (·.put '-') else q
  q.map (·.text)

/-- The operand: the negated value, or a copy that the divisions can modify -/
def toStringOperand (r : JSBigInt w) (radix : Nat) : Allocating RangeError (JSBigInt w) :=
  if jsBigintSign r ≠ 0#w then jsBigintNeg r
  else if ¬ isBinaryRadix radix then do
    jsBigintNew w r.len
    pure r
  else pure r

/-- Nothing is returned where a character is written before the start of the buffer. -/
def jsBigintToString1 (limbBits : LimbBits) (r : JSBigInt limbBits.width) (radix : Nat) :
    Allocating RangeError (Option (List Char)) :=
  if r.len = 1 ∧ r.limb 0 = 0#(limbBits.width) then do
    Allocating.allocate
    pure (some ['0'])
  else do
    let isNeg := jsBigintSign r ≠ 0#(limbBits.width)
    let r ← toStringOperand r radix
    Allocating.allocate
    match toStringText limbBits r.tab radix isNeg with
    | none => pure none
    | some text => do
        Allocating.allocate
        pure (some text)

end ToString

end PrimJs.BigInt
