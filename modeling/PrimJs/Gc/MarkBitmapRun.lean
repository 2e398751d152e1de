import Mathlib.Data.List.Nodup
import PrimJs.Gc.MarkBitmap
import PrimJs.Gc.MemorySlots

/-! The mark bits of the objects of a space, over any history of marking. -/

namespace PrimJs

def minSlotSize : Nat := 16

structure SpaceGroup where
  header : Nat
  capacity : Nat
  isHuge : Bool
  deriving DecidableEq

namespace SpaceGroup

def beg (g : SpaceGroup) : Nat := g.header + allocUtilPageSize

def mappedSize (g : SpaceGroup) : Nat := g.capacity + kPageGroupOverHead * allocUtilPageSize

def bitmap (g : SpaceGroup) : Bitmap := .initializeBitmap g.capacity g.beg g.capacity g.isHuge

end SpaceGroup

/-- An object of the group with the header. -/
structure SpaceObject where
  header : Nat
  addr : Nat
  size : Nat
  deriving DecidableEq

/-- Page groups in the address space, and the objects that live in them. -/
structure SpaceLayout where
  groups : List SpaceGroup
  objects : List SpaceObject
  aligned : ∀ g ∈ groups, kRosDefaultPageGroupSize ∣ g.header
  mapped : ∀ g ∈ groups, 0 < g.header ∧ g.header + g.mappedSize < 2 ^ 64
  normal : ∀ g ∈ groups, g.isHuge = false → g.capacity = kRosDefaultPageGroupValidSize
  distinct : (groups.map fun g => g.header).Nodup
  home : ∀ o ∈ objects, ∃ g ∈ groups, g.header = o.header ∧ g.beg ≤ o.addr ∧
    o.addr + o.size ≤ g.beg + g.capacity ∧ (g.isHuge = true → o.addr = g.beg)
  size : ∀ o ∈ objects, minSlotSize ≤ o.size
  align : ∀ o ∈ objects, kAllocAlign ∣ o.addr
  apart : objects.Pairwise fun o p => o.addr + o.size ≤ p.addr ∨ p.addr + p.size ≤ o.addr

namespace SpaceLayout

variable {l : SpaceLayout} {o p : SpaceObject} {g : SpaceGroup} {n : Nat}

def bitmaps (l : SpaceLayout) : MarkBitmaps where
  ofHeader header := (l.groups.find? fun g => g.header == header).map SpaceGroup.bitmap

def Legal (l : SpaceLayout) : MarkBitmaps.Op → Prop
  | .markObject addr | .unMarkObject addr => ∃ o ∈ l.objects, o.addr = addr
  | .resetBitmap _ => True

/-- Which objects were marked since the last clear, after one more operation. -/
def record (marked : SpaceObject → Bool) (op : MarkBitmaps.Op) (o : SpaceObject) : Bool :=
  match op with
  | .markObject addr => o.addr == addr || marked o
  | .unMarkObject addr => o.addr != addr && marked o
  | .resetBitmap header => o.header != header && marked o

def markedSince (ops : List MarkBitmaps.Op) : SpaceObject → Bool :=
  ops.foldl record fun _ => false

/-- The bitmap and the place of the bit that `MarkObject` sets for the object. -/
def location (o : SpaceObject) : Nat × Nat × BitVec 32 :=
  let header := allocUtilRndDown o.addr kRosDefaultPageGroupSize
  (header, Bitmap.locate (sub64 o.addr header))

/-- The objects are told apart by their bits, and `IsObjectMarked` tells what was marked. -/
structure Tells (l : SpaceLayout) (ops : List MarkBitmaps.Op) (s : MarkBitmaps) : Prop where
  distinct : ∀ o ∈ l.objects, ∀ p ∈ l.objects, o ≠ p → location o ≠ location p
  inside : ∀ o ∈ l.objects, ∃ b, s.getBitMapFromAddr o.addr = some b ∧
    4 * (location o).2.1 + 4 ≤ kBitMapIndexedSize ∧ kBitMapIndexedSize ≤ b.bitmapSize
  marked : ∀ o ∈ l.objects, s.isObjectMarked o.addr = some (markedSince ops o)

structure Separates (l : SpaceLayout) (ops : List MarkBitmaps.Op) (s : MarkBitmaps) : Prop
    extends l.Tells ops s where
  agree : ∀ o ∈ l.objects, s.isObjectMarkedNoAtomic o.addr = s.isObjectMarked o.addr

/-! Places of objects. -/

theorem rndDown_eq {x : Nat} (small : x < 2 ^ 64) :
    allocUtilRndDown x kRosDefaultPageGroupSize = x / 2 ^ 19 * 2 ^ 19 := by
  have mask : sub64 0 kRosDefaultPageGroupSize = (2 ^ 45 - 1) * 2 ^ 19 := by decide
  have high : (x &&& (2 ^ 45 - 1) * 2 ^ 19) / 2 ^ 19 = x / 2 ^ 19 := by
    rw [Nat.and_div_two_pow, Nat.mul_div_cancel _ (by decide), Nat.and_two_pow_sub_one_eq_mod]
    omega
  have low : (x &&& (2 ^ 45 - 1) * 2 ^ 19) % 2 ^ 19 = 0 := by
    rw [Nat.and_mod_two_pow, Nat.mul_mod_left, Nat.and_zero]
  rw [allocUtilRndDown, mask]
  omega

/-- Which granule of its group the object begins in. -/
def granule (o : SpaceObject) : Nat := (o.addr - o.header) / 16

theorem locate_eq {offset : Nat} (small : offset < 2 ^ 19) :
    Bitmap.locate offset = (offset / 16 / 32, PackedBits.mask 32 (offset / 16)) := by
  have whole : offset % 2 ^ 32 = offset := by omega
  have low : offset / 16 &&& 31 = offset / 16 % 32 := Nat.and_two_pow_sub_one_eq_mod _ 5
  simp only [Bitmap.locate, kLogBitsPerWord, kLogObjAlignment, kBitsPerWord, Nat.shiftRight_eq_div_pow,
    Nat.reducePow, Nat.reduceSub, PackedBits.mask, PackedBits.bitIndex]
  simp only [Nat.reducePow] at whole
  rw [whole, low]
  congr 1
  omega

/-- Where an object lies in its group. -/
structure Lies (l : SpaceLayout) (o : SpaceObject) (g : SpaceGroup) : Prop where
  group : g ∈ l.groups
  header : g.header = o.header
  above : o.header + allocUtilPageSize ≤ o.addr
  below : o.addr < o.header + 2 ^ 19
  ends : o.addr + o.size ≤ g.beg + g.capacity
  small : g.header + g.mappedSize < 2 ^ 64
  down : allocUtilRndDown o.addr kRosDefaultPageGroupSize = o.header

theorem lies (member : o ∈ l.objects) : ∃ g, l.Lies o g := by
  have ⟨g, group, header, above, ends, huge⟩ := l.home o member
  have small := l.mapped g group
  have ⟨k, aligned⟩ := l.aligned g group
  have some_ := l.size o member
  simp only [SpaceGroup.beg, SpaceGroup.mappedSize, kPageGroupOverHead, allocUtilPageSize,
    kRosDefaultPageGroupSize, minSlotSize] at above ends huge small aligned some_
  have below : o.addr < o.header + 2 ^ 19 := by
    cases kind : g.isHuge with
    | true =>
        have same := huge kind
        omega
    | false =>
        have capacity := l.normal g group kind
        simp only [kRosDefaultPageGroupValidSize, kPageGroupOverHead, allocUtilPageSize,
          kRosDefaultPageGroupSize] at capacity
        omega
  have above' : o.header + allocUtilPageSize ≤ o.addr := by
    rw [← header]
    exact above
  refine ⟨g, group, header, above', below, ends, small.2, ?_⟩
  simp only [allocUtilPageSize] at above'
  rw [rndDown_eq (by omega)]
  omega

variable {l : SpaceLayout} {o p : SpaceObject} {g : SpaceGroup}

theorem Lies.location_eq (lies : l.Lies o g) :
    location o = (o.header, granule o / 32, PackedBits.mask 32 (granule o)) := by
  have above := lies.above
  have below := lies.below
  have small := lies.small
  rw [lies.header] at small
  simp only [SpaceGroup.mappedSize, kPageGroupOverHead, allocUtilPageSize] at above small
  have offset : sub64 o.addr o.header = o.addr - o.header := by
    unfold sub64
    omega
  rw [location, lies.down, offset, locate_eq (by omega), granule]

theorem Lies.granule_bounds (lies : l.Lies o g) : 1024 ≤ granule o ∧ granule o < 2 ^ 15 := by
  have above := lies.above
  have below := lies.below
  simp only [allocUtilPageSize] at above
  unfold granule
  omega

/-- Objects have at least the size of a granule. -/
theorem granule_inj (inL : o ∈ l.objects) (inL' : p ∈ l.objects) (header : o.header = p.header)
    (same : granule o = granule p) : o = p := by
  by_contra other
  have symm : Std.Symm fun o p : SpaceObject => o.addr + o.size ≤ p.addr ∨ p.addr + p.size ≤ o.addr :=
    ⟨fun _ _ => Or.symm⟩
  have apart := l.apart.forall inL inL' other
  have size := l.size o inL
  have size' := l.size p inL'
  have ⟨_, lies⟩ := lies inL
  have ⟨_, lies'⟩ := SpaceLayout.lies inL'
  have above := lies.above
  have above' := lies'.above
  simp only [minSlotSize, allocUtilPageSize, granule] at *
  omega

theorem addr_inj (inL : o ∈ l.objects) (inL' : p ∈ l.objects) (same : o.addr = p.addr) : o = p := by
  have ⟨_, lies⟩ := lies inL
  have ⟨_, lies'⟩ := SpaceLayout.lies inL'
  have header : o.header = p.header := by rw [← lies.down, same, lies'.down]
  exact granule_inj inL inL' header (by rw [granule, granule, same, header])

/-! What a bitmap holds. -/

/-- The bitmap of the group has the bits of the granules in which marked objects begin. -/
structure Holds (l : SpaceLayout) (marked : SpaceObject → Bool) (g : SpaceGroup) (b : Bitmap) :
    Prop where
  spaceStart : b.spaceStart = g.beg
  spaceEnd : b.spaceEnd = g.beg + g.capacity
  size : kBitMapIndexedSize ≤ b.bitmapSize
  bits : ∀ n < 2 ^ 15, PackedBits.bit b.lines n = true ↔
    ∃ o ∈ l.objects, o.header = g.header ∧ granule o = n ∧ marked o = true

variable {b : Bitmap} {marked marked' : SpaceObject → Bool} {s : MarkBitmaps}
  {ops : List MarkBitmaps.Op}

theorem Lies.getLocation_eq (lies : l.Lies o g) (holds : l.Holds marked g b) :
    b.getLocation o.addr (allocUtilRndDown o.addr kRosDefaultPageGroupSize) =
      some (granule o / 32, PackedBits.mask 32 (granule o)) := by
  have place := lies.location_eq
  have above := lies.above
  have ends := lies.ends
  have inRange : b.addrInRange o.addr = true := by
    rw [Bitmap.addrInRange, holds.spaceStart, holds.spaceEnd, Bool.and_eq_true, decide_eq_true_iff,
      decide_eq_true_iff, SpaceGroup.beg, lies.header]
    rw [SpaceGroup.beg, lies.header] at ends
    omega
  rw [location, Prod.mk.injEq] at place
  rw [Bitmap.getLocation, if_pos inRange, place.2]

theorem Lies.writeLocation_eq (lies : l.Lies o g) (holds : l.Holds marked g b) :
    b.writeLocation o.addr = some (granule o / 32, PackedBits.mask 32 (granule o)) := by
  have below := lies.granule_bounds.2
  have inside : granule o / 32 < kBitMapIndexedSize / 4 := by
    simp only [kBitMapIndexedSize, kRosDefaultPageGroupSize]
    omega
  rw [Bitmap.writeLocation, lies.getLocation_eq holds]
  simp only [Option.bind_eq_bind, Option.bind_some, if_pos inside]

theorem Lies.isObjectMarked_eq (lies : l.Lies o g) (holds : l.Holds marked g b) :
    b.isObjectMarked o.addr = some (PackedBits.bit b.lines (granule o)) := by
  rw [Bitmap.isObjectMarked, lies.getLocation_eq holds]
  exact congrArg some (PackedBits.test_eq (by decide) b.lines (granule o))

theorem Holds.marked_eq (holds : l.Holds marked g b) (lies : l.Lies o g) (inL : o ∈ l.objects) :
    PackedBits.bit b.lines (granule o) = marked o := by
  rw [Bool.eq_iff_iff, holds.bits _ lies.granule_bounds.2]
  constructor
  · intro ⟨p, inL', header, same, here⟩
    rw [granule_inj inL inL' (lies.header.symm.trans header.symm) same.symm]
    exact here
  · exact fun here => ⟨o, inL, lies.header.symm, rfl, here⟩

/-- The other query counts from the start of the space, which is a page behind the header. -/
theorem Lies.noAtomic_eq (lies : l.Lies o g) (holds : l.Holds marked g b) :
    b.isObjectMarkedNoAtomic o.addr = PackedBits.bit b.lines (granule o - 1024) := by
  have above := lies.above
  have below := lies.below
  have small := lies.small
  rw [lies.header] at small
  simp only [SpaceGroup.mappedSize, kPageGroupOverHead, allocUtilPageSize] at above small
  have offset : sub64 o.addr b.spaceStart = o.addr - (o.header + 16384) := by
    rw [holds.spaceStart, SpaceGroup.beg, lies.header, allocUtilPageSize]
    unfold sub64
    omega
  have lower : (o.addr - (o.header + 16384)) / 16 = granule o - 1024 := by
    unfold granule
    omega
  rw [Bitmap.isObjectMarkedNoAtomic, offset, locate_eq (by omega), lower]
  have test := PackedBits.test_eq (by decide) b.lines (granule o - 1024)
  dsimp only
  by_cases zero : b.lines ((granule o - 1024) / 32) = 0#32
  · rw [if_pos zero, ← test, zero]
    simp
  · rw [if_neg zero, ← test]

/-! One operation. -/

theorem Holds.congr (holds : l.Holds marked g b)
    (same : ∀ o ∈ l.objects, o.header = g.header → marked' o = marked o) : l.Holds marked' g b where
  spaceStart := holds.spaceStart
  spaceEnd := holds.spaceEnd
  size := holds.size
  bits n below := by
    rw [holds.bits n below]
    refine exists_congr fun o => and_congr_right fun inL => and_congr_right fun header => ?_
    rw [same o inL header]

theorem Holds.lines {lines : Nat → BitVec 32} (holds : l.Holds marked g b)
    (bits : ∀ n < 2 ^ 15, PackedBits.bit lines n = true ↔
      ∃ o ∈ l.objects, o.header = g.header ∧ granule o = n ∧ marked' o = true) :
    l.Holds marked' g { b with lines := lines } :=
  ⟨holds.spaceStart, holds.spaceEnd, holds.size, bits⟩

theorem Holds.added {lines : Nat → BitVec 32} (holds : l.Holds marked g b) (lies : l.Lies o g)
    (inL : o ∈ l.objects) (bits : ∀ n, PackedBits.bit lines n =
      (decide (granule o = n) || PackedBits.bit b.lines n)) :
    l.Holds (record marked (.markObject o.addr)) g { b with lines := lines } := by
  refine holds.lines fun n below => ?_
  rw [bits, Bool.or_eq_true, decide_eq_true_iff, holds.bits n below]
  constructor
  · rintro (here | ⟨p, inL', header, here, was⟩)
    · exact ⟨o, inL, lies.header.symm, here, by simp [record]⟩
    · exact ⟨p, inL', header, here, by simp [record, was]⟩
  · intro ⟨p, inL', header, here, now⟩
    rw [record, Bool.or_eq_true, beq_iff_eq] at now
    rcases now with same | was
    · rw [addr_inj inL inL' same.symm]
      exact .inl here
    · exact .inr ⟨p, inL', header, here, was⟩

theorem Holds.removed {lines : Nat → BitVec 32} (holds : l.Holds marked g b) (lies : l.Lies o g)
    (inL : o ∈ l.objects) (bits : ∀ n, PackedBits.bit lines n =
      (decide (granule o ≠ n) && PackedBits.bit b.lines n)) :
    l.Holds (record marked (.unMarkObject o.addr)) g { b with lines := lines } := by
  refine holds.lines fun n below => ?_
  rw [bits, Bool.and_eq_true, decide_eq_true_iff, holds.bits n below]
  constructor
  · intro ⟨other, p, inL', header, here, was⟩
    have apart : p.addr ≠ o.addr := fun same => other (by rw [addr_inj inL inL' same.symm, here])
    exact ⟨p, inL', header, here, by simp [record, was, apart]⟩
  · intro ⟨p, inL', header, here, now⟩
    rw [record, Bool.and_eq_true, bne_iff_ne] at now
    refine ⟨fun same => now.1 ?_, p, inL', header, here, now.2⟩
    rw [granule_inj inL inL' (lies.header.symm.trans header.symm) (same.trans here.symm)]

theorem markObject_spec (lies : l.Lies o g) (holds : l.Holds marked g b) (inL : o ∈ l.objects) :
    ∃ b', b.markObject o.addr = some (marked o, b') ∧
      l.Holds (record marked (.markObject o.addr)) g b' := by
  have test := (PackedBits.test_eq (by decide) b.lines (granule o)).trans (holds.marked_eq lies inL)
  rw [Bitmap.markObject, lies.writeLocation_eq holds]
  simp only [Option.bind_eq_bind, Option.bind_some]
  cases was : marked o with
  | true =>
      rw [was, decide_eq_true_iff] at test
      rw [if_pos test]
      refine ⟨b, rfl, holds.added lies inL fun n => ?_⟩
      by_cases same : granule o = n
      · rw [← same, holds.marked_eq lies inL, was, Bool.or_true]
      · rw [decide_eq_false same, Bool.false_or]
  | false =>
      rw [was, decide_eq_false_iff_not] at test
      rw [if_neg test]
      exact ⟨_, rfl, holds.added lies inL (PackedBits.bit_setBit (by decide) b.lines (granule o))⟩

theorem unMarkObject_spec (lies : l.Lies o g) (holds : l.Holds marked g b) (inL : o ∈ l.objects) :
    ∃ b', b.unMarkObject o.addr = some b' ∧ l.Holds (record marked (.unMarkObject o.addr)) g b' := by
  have zero := PackedBits.and_mask_eq_zero (w := 32) (n := granule o) (by decide) b.lines
  rw [Bitmap.unMarkObject, lies.writeLocation_eq holds]
  simp only [Option.bind_eq_bind, Option.bind_some]
  by_cases was : b.lines (granule o / 32) &&& PackedBits.mask 32 (granule o) = 0#32
  · rw [if_pos was]
    refine ⟨b, rfl, holds.removed lies inL fun n => ?_⟩
    by_cases same : granule o = n
    · rw [← same, zero.mp was, Bool.and_false]
    · rw [decide_eq_true same, Bool.true_and]
  · rw [if_neg was]
    exact ⟨_, rfl, holds.removed lies inL (PackedBits.bit_clearBit (by decide) b.lines (granule o))⟩

theorem resetBitmap_holds (holds : l.Holds marked g b) :
    l.Holds (record marked (.resetBitmap g.header)) g b.resetBitmap := by
  refine holds.lines fun n below => ?_
  have inside : n / 32 < kBitMapIndexedSize / 4 := by
    simp only [kBitMapIndexedSize, kRosDefaultPageGroupSize]
    omega
  rw [PackedBits.bit, if_pos inside]
  refine iff_of_false (by simp) ?_
  rintro ⟨o, _, header, _, now⟩
  simp [record, header] at now

/-! Runs. -/

def Inv (l : SpaceLayout) (marked : SpaceObject → Bool) (s : MarkBitmaps) : Prop :=
  ∀ g ∈ l.groups, ∃ b, s.ofHeader g.header = some b ∧ l.Holds marked g b

theorem header_inj {g' : SpaceGroup} (inL : g ∈ l.groups) (inL' : g' ∈ l.groups)
    (same : g.header = g'.header) : g = g' :=
  List.inj_on_of_nodup_map l.distinct inL inL' same

theorem bitmaps_inv (l : SpaceLayout) : l.Inv (markedSince []) l.bitmaps := by
  intro g inL
  cases found : l.groups.find? fun g' => g'.header == g.header with
  | none =>
      have none_ := List.find?_eq_none.mp found g inL
      simp at none_
  | some g' =>
      have same := header_inj (List.mem_of_find?_eq_some found) inL (by
        simpa using List.find?_some found)
      have small := (l.mapped g inL).2
      simp only [SpaceGroup.mappedSize, kPageGroupOverHead, allocUtilPageSize] at small
      rw [same] at found
      refine ⟨g.bitmap, by simp [bitmaps, found], rfl, ?_, ?_, fun n _ => ?_⟩
      · simp only [SpaceGroup.bitmap, Bitmap.initializeBitmap, add64, SpaceGroup.beg, allocUtilPageSize]
        omega
      · rw [SpaceGroup.bitmap, Bitmap.initializeBitmap]
        dsimp only
        cases g.isHuge <;> decide
      · simp [PackedBits.bit, SpaceGroup.bitmap, Bitmap.initializeBitmap, markedSince]

/-- The bitmap of one object's group is replaced. -/
theorem Inv.put {b' : Bitmap} (inv : l.Inv marked s) (lies : l.Lies o g) (holds : l.Holds marked' g b')
    (same : ∀ p ∈ l.objects, p.header ≠ o.header → marked' p = marked p) :
    l.Inv marked' (s.put o.addr b') := by
  intro g' inL
  rw [MarkBitmaps.put, lies.down]
  dsimp only
  by_cases here : g'.header = o.header
  · have group := header_inj inL lies.group (here.trans lies.header.symm)
    rw [here, Function.update_self, group]
    exact ⟨b', rfl, holds⟩
  · have ⟨b, found, holds'⟩ := inv g' inL
    rw [Function.update_of_ne here, found]
    refine ⟨b, rfl, holds'.congr fun p inL' header => same p inL' ?_⟩
    rwa [header]

theorem Inv.bitmap (inv : l.Inv marked s) (lies : l.Lies o g) :
    ∃ b, s.getBitMapFromAddr o.addr = some b ∧ l.Holds marked g b := by
  rw [MarkBitmaps.getBitMapFromAddr, lies.down, ← lies.header]
  exact inv g lies.group

theorem apply_inv (inv : l.Inv marked s) (op : MarkBitmaps.Op) (legal : l.Legal op) :
    ∃ s', s.apply op = some s' ∧ l.Inv (record marked op) s' := by
  cases op with
  | markObject addr =>
      obtain ⟨o, inL, same⟩ := legal
      subst same
      obtain ⟨g, lies⟩ := SpaceLayout.lies inL
      obtain ⟨b, found, holds⟩ := inv.bitmap lies
      obtain ⟨b', done, holds'⟩ := markObject_spec lies holds inL
      refine ⟨s.put o.addr b', ?_, inv.put lies holds' fun p inL' other => ?_⟩
      · simp only [MarkBitmaps.apply, MarkBitmaps.markObject, found, done, Option.map_some]
      · have apart : p.addr ≠ o.addr := fun same => other (by rw [addr_inj inL inL' same.symm])
        simp [record, apart]
  | unMarkObject addr =>
      obtain ⟨o, inL, same⟩ := legal
      subst same
      obtain ⟨g, lies⟩ := SpaceLayout.lies inL
      obtain ⟨b, found, holds⟩ := inv.bitmap lies
      obtain ⟨b', done, holds'⟩ := unMarkObject_spec lies holds inL
      refine ⟨s.put o.addr b', ?_, inv.put lies holds' fun p inL' other => ?_⟩
      · simp only [MarkBitmaps.apply, MarkBitmaps.unMarkObject, found, done, Option.bind_eq_bind,
          Option.bind_some]
      · have apart : p.addr ≠ o.addr := fun same => other (by rw [addr_inj inL inL' same.symm])
        simp [record, apart]
  | resetBitmap header =>
      refine ⟨s.resetBitmap header, rfl, fun g inL => ?_⟩
      obtain ⟨b, found, holds⟩ := inv g inL
      rw [MarkBitmaps.resetBitmap]
      dsimp only
      by_cases here : g.header = header
      · rw [← here, Function.update_self, found]
        exact ⟨b.resetBitmap, rfl, resetBitmap_holds holds⟩
      · rw [Function.update_of_ne here]
        refine ⟨b, found, holds.congr fun p _ header' => ?_⟩
        simp [record, header', here]

theorem run_inv (ops : List MarkBitmaps.Op) : ∀ (marked : SpaceObject → Bool) (s : MarkBitmaps),
    l.Inv marked s → (∀ op ∈ ops, l.Legal op) →
    ∃ s', s.run ops = some s' ∧ l.Inv (ops.foldl record marked) s' := by
  induction ops with
  | nil => exact fun marked s inv _ => ⟨s, rfl, inv⟩
  | cons op rest ih =>
      intro marked s inv legal
      have ⟨s1, done, inv1⟩ := apply_inv inv op (legal op List.mem_cons_self)
      have ⟨s', run, inv'⟩ := ih _ s1 inv1 fun op member => legal op (List.mem_cons_of_mem _ member)
      refine ⟨s', ?_, inv'⟩
      rw [MarkBitmaps.run, done, Option.bind_some, run]

/-! What the queries tell. -/

theorem Inv.isObjectMarked_eq (inv : l.Inv marked s) (inL : o ∈ l.objects) :
    s.isObjectMarked o.addr = some (marked o) := by
  have ⟨g, lies⟩ := lies inL
  have ⟨b, found, holds⟩ := inv.bitmap lies
  rw [MarkBitmaps.isObjectMarked, found, Option.bind_some, lies.isObjectMarked_eq holds,
    holds.marked_eq lies inL]

/-- An object that is marked needs one a page below it that is, for the queries to agree. -/
theorem Inv.agree_iff (inv : l.Inv marked s) :
    (∀ o ∈ l.objects, s.isObjectMarkedNoAtomic o.addr = s.isObjectMarked o.addr) ↔
      ∀ o ∈ l.objects, marked o = false := by
  have query : ∀ o ∈ l.objects, (s.isObjectMarkedNoAtomic o.addr = s.isObjectMarked o.addr ↔
      ((∃ p ∈ l.objects, p.header = o.header ∧ granule p = granule o - 1024 ∧ marked p = true) ↔
        marked o = true)) := by
    intro o inL
    have ⟨g, lies⟩ := lies inL
    have ⟨b, found, holds⟩ := inv.bitmap lies
    have below := lies.granule_bounds.2
    have bits := holds.bits (granule o - 1024) (by omega)
    rw [lies.header] at bits
    rw [inv.isObjectMarked_eq inL, MarkBitmaps.isObjectMarkedNoAtomic, found, Option.map_some,
      Option.some.injEq, lies.noAtomic_eq holds, Bool.eq_iff_iff, bits]
  constructor
  · intro agree
    have none_ : ∀ n o, o ∈ l.objects → granule o = n → marked o ≠ true := by
      intro n
      induction n using Nat.strongRecOn with
      | ind n ih =>
          intro o inL here now
          have ⟨p, inL', _, lower, before⟩ := ((query o inL).mp (agree o inL)).mpr now
          have ⟨g, lies⟩ := lies inL
          have above := lies.granule_bounds.1
          exact ih (granule p) (by omega) p inL' rfl before
    exact fun o inL => Bool.eq_false_iff.mpr (none_ _ o inL rfl)
  · intro none_ o inL
    refine (query o inL).mpr (iff_of_false ?_ ?_)
    · intro ⟨p, inL', _, _, now⟩
      rw [none_ p inL'] at now
      cases now
    · rw [none_ o inL]
      exact Bool.false_ne_true

theorem Inv.tells (inv : l.Inv (markedSince ops) s) : l.Tells ops s where
  distinct o inL p inL' other same := by
    have ⟨_, lies⟩ := lies inL
    have ⟨_, lies'⟩ := SpaceLayout.lies inL'
    rw [lies.location_eq, lies'.location_eq, Prod.mk.injEq, Prod.mk.injEq] at same
    have ⟨header, line, mask⟩ := same
    have index := PackedBits.mask_inj (by decide) mask
    exact other (granule_inj inL inL' header (PackedBits.eq_of_place (by decide) line index))
  inside o inL := by
    have ⟨g, lies⟩ := lies inL
    have ⟨b, found, holds⟩ := inv.bitmap lies
    have below := lies.granule_bounds.2
    refine ⟨b, found, ?_, holds.size⟩
    rw [lies.location_eq]
    simp only [kBitMapIndexedSize, kRosDefaultPageGroupSize]
    omega
  marked _ inL := inv.isObjectMarked_eq inL

theorem Inv.separates_iff (inv : l.Inv (markedSince ops) s) :
    l.Separates ops s ↔ ∀ o ∈ l.objects, markedSince ops o = false := by
  rw [← inv.agree_iff]
  exact ⟨Separates.agree, fun agree => { inv.tells with agree := agree }⟩

def loneObject : SpaceLayout where
  groups := [⟨0x80000, kRosDefaultPageGroupValidSize, false⟩]
  objects := [⟨0x80000, 0x84000, 16⟩]
  aligned := by decide
  mapped := by decide
  normal := by decide
  distinct := by decide
  home := by decide
  size := by decide
  align := by decide
  apart := by decide

end SpaceLayout

end PrimJs
