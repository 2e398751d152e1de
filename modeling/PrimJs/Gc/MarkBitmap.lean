import PrimJs.Foundation.PackedBits
import PrimJs.Gc.Space

/-! `Bitmap`: the mark bits of the objects of a page group, one for each 16 bytes from its header on.
Marking is one atomic step; loads and exchanges of a word are not told apart. -/

namespace PrimJs

def kLogObjAlignment : Nat := 4

def kLogBitsPerWord : Nat := 5

def kBitsPerWord : Nat := 32

def kBitMapIndexedSize : Nat := kRosDefaultPageGroupSize / 8 / 16

def kBitMapSize : Nat := allocUtilRndUp kBitMapIndexedSize allocUtilPageSize

def allocUtilRndDown (x n : Nat) : Nat := x &&& sub64 0 n

/-- `lines` is the memory from `bitmapBegin` on, by words. -/
structure Bitmap where
  spaceStart : Nat
  spaceEnd : Nat
  curEnd : Nat
  bitmapSize : Nat
  bitmapBegin : Nat
  lines : Nat → BitVec 32

namespace Bitmap

/-- `Initialize`, on new memory. -/
def initializeBitmap (maxHeapBytes start spaceCapacity : Nat) (isForHuge : Bool) : Bitmap where
  spaceStart := start
  spaceEnd := add64 start maxHeapBytes
  curEnd := add64 start spaceCapacity
  bitmapSize := if isForHuge then allocUtilPageSize else kBitMapSize
  bitmapBegin := add64 (add64 start spaceCapacity) allocUtilPageSize
  lines := fun _ => 0#32

def addrInRange (b : Bitmap) (addr : Nat) : Bool := addr ≥ b.spaceStart && addr ≤ b.spaceEnd

def locate (offset : Nat) : Nat × BitVec 32 :=
  let offset := offset % 2 ^ 32
  let lineIndex := (offset >>> kLogBitsPerWord) >>> kLogObjAlignment
  let bitIndex := kBitsPerWord - 1 - ((offset >>> kLogObjAlignment) &&& (kBitsPerWord - 1))
  (lineIndex, 1#32 <<< bitIndex)

/-! `none` is an assertion that fails. -/

def getLocation (b : Bitmap) (addr header : Nat) : Option (Nat × BitVec 32) :=
  if b.addrInRange addr then some (locate (sub64 addr header)) else none

def writeLocation (b : Bitmap) (addr : Nat) : Option (Nat × BitVec 32) := do
  let (lineIndex, bitMask) ← b.getLocation addr (allocUtilRndDown addr kRosDefaultPageGroupSize)
  if lineIndex < kBitMapIndexedSize / 4 then some (lineIndex, bitMask) else none

def markObject (b : Bitmap) (addr : Nat) : Option (Bool × Bitmap) := do
  let (lineIndex, bitMask) ← b.writeLocation addr
  let old := b.lines lineIndex
  if old &&& bitMask ≠ 0#32 then some (true, b)
  else some (false, { b with lines := Function.update b.lines lineIndex (old ||| bitMask) })

def unMarkObject (b : Bitmap) (addr : Nat) : Option Bitmap := do
  let (lineIndex, bitMask) ← b.writeLocation addr
  let old := b.lines lineIndex
  if old &&& bitMask = 0#32 then some b
  else some { b with lines := Function.update b.lines lineIndex (old &&& ~~~bitMask) }

def isObjectMarked (b : Bitmap) (addr : Nat) : Option Bool := do
  let (lineIndex, bitMask) ← b.getLocation addr (allocUtilRndDown addr kRosDefaultPageGroupSize)
  some (b.lines lineIndex &&& bitMask ≠ 0#32)

def isObjectMarkedNoAtomic (b : Bitmap) (addr : Nat) : Bool :=
  let (lineIndex, bitMask) := locate (sub64 addr b.spaceStart)
  let word := b.lines lineIndex
  if word = 0#32 then false else word &&& bitMask ≠ 0#32

def resetBitmap (b : Bitmap) : Bitmap :=
  { b with lines := fun i => if i < kBitMapIndexedSize / 4 then 0#32 else b.lines i }

end Bitmap

/-- The bitmaps that the headers of the groups point to, by the address of the header. -/
structure MarkBitmaps where
  ofHeader : Nat → Option Bitmap

namespace MarkBitmaps

def getBitMapFromAddr (s : MarkBitmaps) (addr : Nat) : Option Bitmap :=
  s.ofHeader (allocUtilRndDown addr kRosDefaultPageGroupSize)

def put (s : MarkBitmaps) (addr : Nat) (b : Bitmap) : MarkBitmaps :=
  ⟨Function.update s.ofHeader (allocUtilRndDown addr kRosDefaultPageGroupSize) (some b)⟩

def markObject (s : MarkBitmaps) (addr : Nat) : Option (Bool × MarkBitmaps) :=
  match s.getBitMapFromAddr addr with
  | none => some (false, s)
  | some b => (b.markObject addr).map fun (was, b) => (was, s.put addr b)

def unMarkObject (s : MarkBitmaps) (addr : Nat) : Option MarkBitmaps := do
  let b ← s.getBitMapFromAddr addr
  let b ← b.unMarkObject addr
  some (s.put addr b)

def isObjectMarked (s : MarkBitmaps) (addr : Nat) : Option Bool :=
  (s.getBitMapFromAddr addr).bind fun b => b.isObjectMarked addr

def isObjectMarkedNoAtomic (s : MarkBitmaps) (addr : Nat) : Option Bool :=
  (s.getBitMapFromAddr addr).map fun b => b.isObjectMarkedNoAtomic addr

/-- `ResetBitmap` of the group with the header. -/
def resetBitmap (s : MarkBitmaps) (header : Nat) : MarkBitmaps :=
  ⟨Function.update s.ofHeader header ((s.ofHeader header).map Bitmap.resetBitmap)⟩

inductive Op where
  | markObject (addr : Nat)
  | unMarkObject (addr : Nat)
  | resetBitmap (header : Nat)

def apply (s : MarkBitmaps) : Op → Option MarkBitmaps
  | .markObject addr => (s.markObject addr).map fun (_, s) => s
  | .unMarkObject addr => s.unMarkObject addr
  | .resetBitmap header => some (s.resetBitmap header)

def run : MarkBitmaps → List Op → Option MarkBitmaps
  | s, [] => some s
  | s, op :: rest => (s.apply op).bind fun s => run s rest

end MarkBitmaps

end PrimJs
