import PrimJs.Gc.CartesianTreeInvariant

/-! The allocator's space: its page groups, the tree of their free pages and the counters. A `size_t`
is a natural number below `2 ^ 64`; the functions return `none` where the code aborts or an assertion
fails. -/

namespace PrimJs

def allocUtilPageSize : Nat := 0x4000

def kRosDefaultPageGroupSize : Nat := 0x80000

def kPageGroupOverHead : Nat := 3

def kRosDefaultPageGroupValidSize : Nat :=
  kRosDefaultPageGroupSize - kPageGroupOverHead * allocUtilPageSize

def kRosDefaultPageCountPerGroup : Nat := kRosDefaultPageGroupValidSize / allocUtilPageSize

def kRosDefaultPageGroupNums : Nat := 2 ^ 14

def kMaxHeap : Nat := kRosDefaultPageGroupNums * kRosDefaultPageGroupSize

def kROSAllocHugeSize : Nat := kRosDefaultPageGroupValidSize

def add64 (a b : Nat) : Nat := (a + b) % 2 ^ 64

def sub64 (a b : Nat) : Nat := (a + (2 ^ 64 - b)) % 2 ^ 64

def saturatingAdd (lhs rhs : Nat) : Nat :=
  if lhs > 2 ^ 64 - 1 - rhs then 2 ^ 64 - 1 else lhs + rhs

def allocUtilRndUp (x n : Nat) : Nat := sub64 (add64 x n) 1 &&& sub64 0 n

def pageByte2Cnt (x : Nat) : Nat := x / allocUtilPageSize

def pageCnt2Byte (x : Nat) : Nat := x * allocUtilPageSize % 2 ^ 64

def pageRndUp (x : Nat) : Nat := add64 x (allocUtilPageSize - 1) / allocUtilPageSize * allocUtilPageSize

/-- `ROSIMPL_GET_PAGE_IDX`. -/
def pageIdxOf (groupIdx idxInGroup : Nat) : Nat := groupIdx * 2 ^ 18 + idxInGroup

def groupIdxOf (pageIdx : Nat) : Nat := pageIdx / 2 ^ 18

def idxInGroup (pageIdx : Nat) : Nat := pageIdx % 2 ^ 18

inductive PageLabel where
  | released
  | free
  | run
  | runRem
  | largeObj
  | largeObjRem
  deriving DecidableEq, Repr

structure PageGroup where
  memMappedSize : Nat
  maxCapacity : Nat
  nextFreeIdx : Nat
  initialized : Bool
  isHuge : Bool
  deriving DecidableEq, Repr

/-- The constructed page groups, and the labels of all pages by their index. `wrapped` is set by the
first subtraction of the space's functions that goes below zero. -/
structure Space where
  heapSize : Nat
  heapGrowthLimit : Nat
  allocatedPageLimit : Nat
  newGroupNeeded : Bool
  allocatedPageSize : Nat
  nonReleasedPageSize : Nat
  usedMemSize : Nat
  usedHeapSize : Nat
  pageCTree : CartesianTree
  groups : List PageGroup
  currentIdx : Nat
  pageMap : Nat → PageLabel
  wrapped : Bool

namespace Space

def subtracts (s : Space) (a b : Nat) : Space := { s with wrapped := s.wrapped || decide (a < b) }

/-! Page labels. -/

def setLabels (pageMap : Nat → PageLabel) (start cnt : Nat) (label : PageLabel) (p : Nat) :
    PageLabel :=
  if start ≤ p ∧ p < start + cnt then label else pageMap p

def converted (pageMap : Nat → PageLabel) (label : PageLabel) (p : Nat) : Bool :=
  (label == .released) != (pageMap p == .released)

def setRangeAndCount (s : Space) (idx cnt : Nat) (label : PageLabel) : Option (Nat × Space) :=
  let pages := List.range' idx cnt
  if cnt = 0 ∨ idxInGroup idx + cnt > kRosDefaultPageCountPerGroup then none
  else if label = .released ∧ pages.any (fun p => s.pageMap p ≠ .released ∧ s.pageMap p ≠ .free) then
    none
  else
    some (pages.countP (converted s.pageMap label),
      { s with pageMap := setLabels s.pageMap idx cnt label })

/-- The common body of `SetAsRunPage` and `SetAsLargeObjPage`. -/
def setAsObjPage (head rem : PageLabel) (s : Space) (idx cnt : Nat) : Option (Nat × Space) :=
  if s.pageMap idx ≠ .free ∧ s.pageMap idx ≠ .released then none
  else
    let count := if s.pageMap idx = .released then 1 else 0
    let s := { s with pageMap := setLabels s.pageMap idx 1 head }
    if cnt > 1 then (s.setRangeAndCount (idx + 1) (cnt - 1) rem).map fun (c, s) => (count + c, s)
    else some (count, s)

def setAsRunPage : Space → Nat → Nat → Option (Nat × Space) := setAsObjPage .run .runRem

def setAsLargeObjPage : Space → Nat → Nat → Option (Nat × Space) :=
  setAsObjPage .largeObj .largeObjRem

/-- `ClearRunPage`, to free pages. -/
def clearRunPage (s : Space) (idx cnt : Nat) : Option Space :=
  if (List.range' idx cnt).all (fun p => s.pageMap p = .run ∨ s.pageMap p = .runRem) then
    some { s with pageMap := setLabels s.pageMap idx cnt .free }
  else none

/-- How many pages from `p` on belong to the large object before, up to the end of the group. -/
def largeObjRemCount (pageMap : Nat → PageLabel) : Nat → Nat → Nat
  | 0, _ => 0
  | left + 1, p => if pageMap p = .largeObjRem then largeObjRemCount pageMap left (p + 1) + 1 else 0

/-- `ClearLargeObjPageAndCount`, to free pages. -/
def clearLargeObjPageAndCount (s : Space) (idx : Nat) : Option (Nat × Space) :=
  if s.pageMap idx = .largeObj then
    let left := kRosDefaultPageCountPerGroup - (idxInGroup idx + 1)
    let cnt := largeObjRemCount s.pageMap left (idx + 1) + 1
    some (cnt, { s with pageMap := setLabels s.pageMap idx cnt .free })
  else none

/-! Page groups. -/

def ensureConstructed (s : Space) : Option (PageGroup × Space) :=
  if s.currentIdx > s.groups.length then none
  else if s.currentIdx = s.groups.length then
    let group : PageGroup := ⟨0, kRosDefaultPageGroupValidSize, s.currentIdx + 1, false, false⟩
    some (group, { s with groups := s.groups ++ [group] })
  else s.groups[s.currentIdx]?.map fun group => (group, s)

/-- `PageGroup::Init` for an ordinary group, whose page map is new. -/
def initNormalGroup (s : Space) (group : PageGroup) : Space :=
  { s with
    groups := s.groups.set s.currentIdx { group with
      memMappedSize := kRosDefaultPageGroupSize
      maxCapacity := kRosDefaultPageGroupValidSize
      initialized := true }
    pageMap := setLabels s.pageMap (pageIdxOf s.currentIdx 0) kRosDefaultPageCountPerGroup .released }

/-- `PageGroup::Init` for a huge group of the `int` size `reqSize`. -/
def initHugeGroup (s : Space) (group : PageGroup) (reqSize : Int) : Space :=
  { s with
    groups := s.groups.set s.currentIdx { group with
      memMappedSize := ((reqSize + (kPageGroupOverHead * allocUtilPageSize : Nat)) % 2 ^ 64).toNat
      maxCapacity := (reqSize % 2 ^ 64).toNat
      initialized := true
      isHuge := true } }

def addPages (s : Space) (firstPage pageCount : Nat) : Option Space :=
  match s.pageCTree.mergeInsert firstPage pageCount with
  | (true, tree) => some { s with pageCTree := tree }
  | (false, _) => none

def newPageGroup (s : Space) : Option Space := do
  if s.currentIdx ≥ kRosDefaultPageGroupNums then none
  else
    let (group, s) ← s.ensureConstructed
    let s := if group.initialized then s else s.initNormalGroup group
    let s ← s.addPages (pageIdxOf s.currentIdx 0) kRosDefaultPageCountPerGroup
    some { s with currentIdx := group.nextFreeIdx }

/-- `NewHugeMem`; the size is passed on as an `int`, and 0 asks for an ordinary group. -/
def newHugeMem (s : Space) (reqSize : Nat) : Option (Nat × Space) := do
  if s.currentIdx ≥ kRosDefaultPageGroupNums then none
  else
    let (group, s) ← s.ensureConstructed
    let size := Int.bmod reqSize (2 ^ 32)
    let s := if group.initialized then s
      else if size ≠ 0 then s.initHugeGroup group size else s.initNormalGroup group
    some (s.currentIdx, { s with currentIdx := group.nextFreeIdx })

/-- `ReleaseMem` and `ReleaseHugeMem` of the group. -/
def releaseMem (s : Space) (groupIdx : Nat) : Option Space := do
  let group ← s.groups[groupIdx]?
  if !group.initialized then none
  else
    some { s with
      groups := s.groups.set groupIdx { group with
        initialized := false
        isHuge := false
        nextFreeIdx := s.currentIdx }
      currentIdx := groupIdx }

/-! The page manager. -/

def calcChunkSize (regionSize : Nat) : Nat := pageByte2Cnt (pageRndUp regionSize) % 2 ^ 32

/-- The loop of `ReleaseAllFreePages` over the nodes of the tree; its order does not matter. -/
def releasePagesLoop : List Interval → Space → Nat → Option (Nat × Space)
  | [], s, total => some (total, s)
  | x :: rest, s, total => do
      let (c, s) ← s.setRangeAndCount x.start x.size .released
      releasePagesLoop rest s (add64 total (pageCnt2Byte c))

def releaseAllFreePages (s : Space) : Option Space := do
  let (total, s) ← releasePagesLoop s.pageCTree.intervals s 0
  let s := s.subtracts s.nonReleasedPageSize total
  some { s with nonReleasedPageSize := sub64 s.nonReleasedPageSize total }

/-- The loop of `ReleaseAllFreeGroups`. -/
def releaseGroupsLoop : Nat → Space → Nat → Option (Nat × Space)
  | fuel, s, cnt =>
      match s.pageCTree.find kRosDefaultPageCountPerGroup with
      | none => some (cnt, s)
      | some (idx, tree) =>
          match fuel with
          | 0 => none
          | fuel + 1 => do
              let s ← { s with pageCTree := tree }.releaseMem (groupIdxOf idx)
              releaseGroupsLoop fuel s (cnt + 1)

def releaseAllFreeGroups (s : Space) : Option (Nat × Space) :=
  releaseGroupsLoop s.groups.length s 0

/-! The space. -/

def getHeapHeadroom (s : Space) : Nat :=
  if s.heapSize > s.usedHeapSize then s.heapSize - s.usedHeapSize else 0

def exceedsAllocatedPageLimit (s : Space) (reqSize : Nat) : Bool :=
  saturatingAdd s.allocatedPageSize reqSize > s.allocatedPageLimit

def recordReleasedToNonReleased (s : Space) (pageCount : Nat) : Space :=
  { s with nonReleasedPageSize := add64 s.nonReleasedPageSize (pageCnt2Byte pageCount) }

def getChunk (s : Space) (reqSize : Nat) : Option Nat × Space :=
  match s.pageCTree.find (calcChunkSize reqSize) with
  | some (idx, tree) =>
      (some idx, { s with
        pageCTree := tree
        allocatedPageSize := add64 s.allocatedPageSize reqSize })
  | none => (none, s)

def extend (s : Space) : Option Space :=
  if s.getHeapHeadroom ≥ kRosDefaultPageGroupSize then do
    let s ← s.newPageGroup
    some { s with
      usedHeapSize := add64 s.usedHeapSize kRosDefaultPageGroupSize
      usedMemSize := add64 s.usedMemSize kRosDefaultPageGroupValidSize }
  else some { s with newGroupNeeded := true }

/-- `Alloc` with extension; `triggered` tells that the concurrent phases were started instead. -/
def alloc (s : Space) (reqSize : Nat) (triggered : Bool) : Option (Option Nat × Space) :=
  if s.exceedsAllocatedPageLimit reqSize then some (none, s)
  else
    let s := s.subtracts s.usedMemSize s.allocatedPageSize
    let (chunk, s) := if sub64 s.usedMemSize s.allocatedPageSize ≥ reqSize then s.getChunk reqSize
      else (none, s)
    if chunk.isSome then some (chunk, s)
    else if triggered then some (none, s)
    else do
      let s ← s.extend
      some (s.getChunk reqSize)

def newHugeGroup (s : Space) (reqSize : Nat) : Option (Option Nat × Space) :=
  if s.getHeapHeadroom < reqSize || s.exceedsAllocatedPageLimit reqSize then some (none, s)
  else do
    let (idx, s) ← s.newHugeMem reqSize
    let group ← s.groups[idx]?
    some (some idx, { s with
      usedHeapSize := add64 s.usedHeapSize group.memMappedSize
      allocatedPageSize := add64 s.allocatedPageSize group.maxCapacity
      usedMemSize := add64 s.usedMemSize group.maxCapacity })

def freeRegion (s : Space) (pgCnt pageIdx : Nat) : Option Space := do
  let s ← s.addPages pageIdx pgCnt
  let s := s.subtracts s.allocatedPageSize (pageCnt2Byte pgCnt)
  some { s with allocatedPageSize := sub64 s.allocatedPageSize (pageCnt2Byte pgCnt) }

/-- `kForceDecHeapSizeThreshold * kGCPolicyThreshold` is the `float` 644245120, and the heap size is
rounded to a `float`, which is above it from 644245153 on. -/
def forceDecHeapSize (heapSize : Nat) : Bool := heapSize > 644245152

def releaseFreeGroups (s : Space) : Option (Nat × Space) := do
  let (cnt, s) ← s.releaseAllFreeGroups
  let groupBytes := cnt * kRosDefaultPageGroupSize % 2 ^ 64
  let validBytes := cnt * kRosDefaultPageGroupValidSize % 2 ^ 64
  let s := (s.subtracts s.usedHeapSize groupBytes).subtracts s.usedMemSize validBytes
  let s := { s with
    usedHeapSize := sub64 s.usedHeapSize groupBytes
    usedMemSize := sub64 s.usedMemSize validBytes }
  if forceDecHeapSize s.heapSize && cnt > 0 then
    let s := s.subtracts s.heapSize groupBytes
    some (cnt, { s with heapSize := sub64 s.heapSize groupBytes })
  else some (cnt, s)

def releaseHugeMem (s : Space) (groupIdx : Nat) : Option Space := do
  let group ← s.groups[groupIdx]?
  let s := ((s.subtracts s.usedHeapSize group.memMappedSize).subtracts s.usedMemSize
    group.maxCapacity).subtracts s.allocatedPageSize group.maxCapacity
  { s with
    usedHeapSize := sub64 s.usedHeapSize group.memMappedSize
    usedMemSize := sub64 s.usedMemSize group.maxCapacity
    allocatedPageSize := sub64 s.allocatedPageSize group.maxCapacity }.releaseMem groupIdx

/-- `GetFreePageSize`, and that it was called. -/
def getFreePageSize (s : Space) : Nat × Space :=
  (sub64 s.nonReleasedPageSize s.allocatedPageSize,
    s.subtracts s.nonReleasedPageSize s.allocatedPageSize)

/-- Trimming is never allowed at the moment, so only an aggressive call releases pages. -/
def releaseFreePages (s : Space) (aggressive : Bool) : Option (Nat × Space) := do
  let (before, s) := s.getFreePageSize
  let s ← if aggressive then s.releaseAllFreePages else some s
  let (after, s) := s.getFreePageSize
  some (sub64 before after, s.subtracts before after)

def autoAdjustHeapSize (s : Space) (allocSize : Nat) : Space :=
  let allocationReserve := saturatingAdd allocSize (allocSize / 5)
  let s := if allocSize > 0 then
      { s with heapSize := saturatingAdd (max s.heapSize s.usedHeapSize) allocationReserve }
    else s
  let s := if s.newGroupNeeded then
      { s with
        heapSize := max s.heapSize (saturatingAdd s.usedHeapSize kRosDefaultPageGroupSize)
        newGroupNeeded := false }
    else s
  { s with heapSize := max (min s.heapGrowthLimit s.heapSize) kRosDefaultPageGroupSize }

def updateHeapSizeLimitForBusymode (s : Space) (allocSize : Nat) : Space :=
  let expandSize := if allocSize = 0 then kRosDefaultPageGroupSize
    else allocUtilRndUp allocSize kRosDefaultPageGroupSize
  { s with heapSize := add64 s.heapSize expandSize }.autoAdjustHeapSize allocSize

def updateHeapSizeLimit (s : Space) (allocSize newHeapSize : Nat) : Space :=
  { s with heapSize := newHeapSize }.autoAdjustHeapSize allocSize

def newPageGroups : Nat → Space → Option Space
  | 0, s => some s
  | n + 1, s => s.newPageGroup.bind (newPageGroups n)

/-- `RosAllocImpl::Init`; `SetHeapSize` gives `AllocUtilRndUp` its arguments the other way round. -/
def init (heapStartSize heapGrowthLimit : Nat) : Option Space :=
  let groupCnt := allocUtilRndUp heapStartSize kRosDefaultPageGroupSize / kRosDefaultPageGroupSize
  newPageGroups groupCnt
    { heapSize := allocUtilRndUp kRosDefaultPageGroupSize heapStartSize
      heapGrowthLimit := min heapGrowthLimit kMaxHeap
      allocatedPageLimit := 2 ^ 64 - 1
      newGroupNeeded := false
      allocatedPageSize := 0
      nonReleasedPageSize := 0
      usedMemSize := groupCnt * kRosDefaultPageGroupValidSize
      usedHeapSize := groupCnt * kRosDefaultPageGroupSize
      pageCTree := .null
      groups := []
      currentIdx := 0
      pageMap := fun _ => .released
      wrapped := false }

/-! The allocator on the space. -/

/-- `AllocPagesInternal`: the rounded size, and the index of the first page. -/
def allocPages (s : Space) (reqSize : Nat) (triggered : Bool) :
    Option (Nat × Option Nat × Space) :=
  let actualSize := pageRndUp reqSize
  (s.alloc actualSize triggered).map fun result => (actualSize, result)

/-- The common body of `AllocRun` and `AllocLargeObject`. -/
def allocObjPages (setAs : Space → Nat → Nat → Option (Nat × Space)) (s : Space) (size : Nat)
    (triggered : Bool) : Option (Option (Nat × Nat) × Space) := do
  let (actualSize, chunk, s) ← s.allocPages size triggered
  match chunk with
  | none => some (none, s)
  | some idx =>
      let pgCnt := pageByte2Cnt actualSize
      let (converted, s) ← setAs s idx pgCnt
      some (some (idx, pgCnt), s.recordReleasedToNonReleased converted)

def allocRun (s : Space) (pageCount : Nat) : Bool → Option (Option (Nat × Nat) × Space) :=
  s.allocObjPages setAsRunPage (pageCnt2Byte pageCount)

/-- `AllocLargeObject` of at most `kHugeObjSize`. -/
def allocLargeObject (s : Space) (allocSize : Nat) :
    Bool → Option (Option (Nat × Nat) × Space) :=
  s.allocObjPages setAsLargeObjPage allocSize

def allocHugeObject (s : Space) (allocSize : Nat) : Option (Option Nat × Space) :=
  s.newHugeGroup (pageRndUp allocSize)

def freeRun (s : Space) (pageIdx pgCnt : Nat) : Option Space := do
  let s ← s.clearRunPage pageIdx pgCnt
  s.freeRegion pgCnt pageIdx

/-- `FreeLargeObj`: the pages of the object, which its labels tell. -/
def freeLargeObj (s : Space) (pageIdx : Nat) : Option (Nat × Space) := do
  let (pageCnt, s) ← s.clearLargeObjPageAndCount pageIdx
  let s ← s.freeRegion pageCnt pageIdx
  some (pageCnt, s)

end Space

end PrimJs
