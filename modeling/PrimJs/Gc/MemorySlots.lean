import PrimJs.Gc.Space

/-! The allocator's accounting by memory slots. Where memory lies is left to the one who gives it: a
chunk of free pages, a run of the right size or a group that is not in use. The functions return `none`
where the code aborts or faults, or the memory that is given does not exist. -/

namespace PrimJs

def kHeaderSize : Nat := 8

def kAllocAlign : Nat := 8

def kROSAllocLargeSize : Nat := 8064

/-- The sizes of `RunConfig::kCfgs`; every run is one page. -/
def runSizes : List Nat :=
  [16, 24, 32, 40, 48, 56, 64, 72, 80, 88, 96, 104, 112, 120, 128, 136, 144, 152, 160, 168, 176, 184,
    192, 200, 208, 216, 224, 232, 240, 248, 256, 264, 272, 280, 288, 296, 304, 312, 320, 328, 336, 344,
    352, 360, 400, 448, 504, 576, 672, 800, 1008, 1344, 2016, 2688, 4032, 5376, 8064]

def getRunSize (idx : Nat) : Nat := runSizes.getD idx 0

/-- `size2idx` maps a size to the first configuration that holds it. -/
def getRunIdx (size : Nat) : Nat := runSizes.findIdx (size ≤ ·)

inductive ObjKind where
  | run (page : Nat)
  | large (page : Nat)
  | huge (groupIdx : Nat)
  deriving DecidableEq, Repr

/-- A live object. `size` and `memorySlot` are in its header; `internalSize` is how much memory was
given to it, which nothing stores. -/
structure RosObj where
  kind : ObjKind
  size : Nat
  memorySlot : Nat
  marked : Bool
  internalSize : Nat
  deriving DecidableEq, Repr

inductive GcPhase where
  | mutator
  | finalizing (concurrent : Bool)
  | concurrentSweep
  | parallelSweep
  deriving DecidableEq, Repr

/-- `batches` are the touched slots of the `MemorySlotReleaseBatch`es in flight with their released
bytes. `underflow` is set by the first release that subtracts more than is there. -/
structure RosAlloc where
  memorySizeSlots : Nat → Nat
  maxSlotIndex : Nat
  currentSlot : Nat
  pendingMemorySlot : Nat
  pendingMemorySlotBytes : Nat
  pageMap : Nat → PageLabel
  runs : Nat → Option Nat
  hugeSize : Nat → Option Nat
  objects : List RosObj
  batches : List (List (Nat × Nat))
  phase : GcPhase
  shouldMarkNewObj : Bool
  underflow : Bool

namespace RosAlloc

/-! The counters. -/

def flushPendingMemorySlotAllocations (s : RosAlloc) : RosAlloc :=
  if s.pendingMemorySlotBytes = 0 then s
  else
    { s with
      memorySizeSlots := Function.update s.memorySizeSlots s.pendingMemorySlot
        (add64 (s.memorySizeSlots s.pendingMemorySlot) s.pendingMemorySlotBytes)
      pendingMemorySlotBytes := 0 }

def accumulateMemorySlotAllocation (s : RosAlloc) (slot internalSize : Nat) : RosAlloc :=
  let s := if slot ≠ s.pendingMemorySlot then
      { s.flushPendingMemorySlotAllocations with pendingMemorySlot := slot }
    else s
  { s with pendingMemorySlotBytes := add64 s.pendingMemorySlotBytes internalSize }

def releaseMemorySlotBytes (s : RosAlloc) (slot internalSize : Nat) : RosAlloc :=
  { s with
    memorySizeSlots := Function.update s.memorySizeSlots slot
      (sub64 (s.memorySizeSlots slot) internalSize)
    underflow := s.underflow || decide (s.memorySizeSlots slot < internalSize) }

/-- `MemorySlotReleaseBatch::Add`. -/
def batchAdd (slot internalSize : Nat) : List (Nat × Nat) → List (Nat × Nat)
  | [] => [(slot, internalSize)]
  | (touched, bytes) :: rest =>
      if touched = slot then (touched, add64 bytes internalSize) :: rest
      else (touched, bytes) :: batchAdd slot internalSize rest

/-! Memory. -/

def chunkFree (pageMap : Nat → PageLabel) (page cnt : Nat) : Bool :=
  0 < cnt ∧ idxInGroup page + cnt ≤ kRosDefaultPageCountPerGroup ∧
    (List.range' page cnt).all fun p => pageMap p = .free ∨ pageMap p = .released

/-- The labels of `SetAsRunPage` and `SetAsLargeObjPage`. -/
def setAsPages (head rem : PageLabel) (pageMap : Nat → PageLabel) (page cnt : Nat) :
    Nat → PageLabel :=
  Space.setLabels (Space.setLabels pageMap page 1 head) (page + 1) (cnt - 1) rem

/-- `ClearLargeObjPageAndCount`, to free pages. -/
def clearLargeObjPageAndCount (pageMap : Nat → PageLabel) (page : Nat) :
    Option (Nat × (Nat → PageLabel)) :=
  if pageMap page = .largeObj then
    let left := kRosDefaultPageCountPerGroup - (idxInGroup page + 1)
    let cnt := Space.largeObjRemCount pageMap left (page + 1) + 1
    some (cnt, Space.setLabels pageMap page cnt .free)
  else none

def allocRun (s : RosAlloc) (idx page : Nat) : Option RosAlloc :=
  if chunkFree s.pageMap page 1 && decide (idx < runSizes.length) then
    some { s with
      pageMap := setAsPages .run .runRem s.pageMap page 1
      runs := Function.update s.runs page (some idx) }
  else none

def freeRun (s : RosAlloc) (page : Nat) : Option RosAlloc :=
  if s.objects.any (·.kind = .run page) then none
  else if (s.runs page).isSome then
    some { s with
      pageMap := Space.setLabels s.pageMap page 1 .free
      runs := Function.update s.runs page none }
  else none

/-- What an attempt to allocate leaves as the size, the object's memory, and the state. -/
structure Allocated where
  allocSize : Nat
  kind : ObjKind
  internalSize : Nat
  state : RosAlloc

def allocFromRun (s : RosAlloc) (internalSize page : Nat) : Option Allocated :=
  let idx := getRunIdx internalSize
  if s.runs page = some idx then some ⟨getRunSize idx, .run page, getRunSize idx, s⟩ else none

/-- The size is passed on as an `int`, with 0 for an ordinary group. A mapping of more than half the
address space fails, and the object must lie in what is mapped, which it is cleared in. -/
def allocHugeObject (s : RosAlloc) (size allocSize groupIdx : Nat) : Option Allocated :=
  let allocSize := pageRndUp allocSize
  let reqSize := Int.bmod allocSize (2 ^ 32)
  let mapped := if reqSize = 0 then kRosDefaultPageGroupSize
    else ((reqSize + (kPageGroupOverHead * allocUtilPageSize : Nat)) % 2 ^ 64).toNat
  let capacity := if reqSize = 0 then kRosDefaultPageGroupValidSize else (reqSize % 2 ^ 64).toNat
  if (s.hugeSize groupIdx).isSome then none
  else if mapped ≥ 2 ^ 63 then none
  else if mapped < size + kHeaderSize then none
  else some ⟨allocSize, .huge groupIdx, capacity,
    { s with hugeSize := Function.update s.hugeSize groupIdx (some capacity) }⟩

def allocLargeObject (s : RosAlloc) (size allocSize given : Nat) : Option Allocated :=
  if allocSize > kROSAllocHugeSize then s.allocHugeObject size allocSize given
  else
    let actualSize := pageRndUp allocSize
    let pgCnt := pageByte2Cnt actualSize
    if chunkFree s.pageMap given pgCnt then
      some ⟨actualSize, .large given, actualSize,
        { s with pageMap := setAsPages .largeObj .largeObjRem s.pageMap given pgCnt }⟩
    else none

/-- One attempt of `AllocInternal` that succeeds. -/
def allocAttempt (s : RosAlloc) (size allocSize given : Nat) : Option Allocated :=
  if allocSize ≤ kROSAllocLargeSize then s.allocFromRun allocSize given
  else s.allocLargeObject size allocSize given

def attemptedSize (allocSize : Nat) : Nat :=
  if allocSize ≤ kROSAllocLargeSize then getRunSize (getRunIdx allocSize)
  else if allocSize > kROSAllocHugeSize then pageRndUp allocSize
  else allocSize

/-! Objects. -/

def totalBytes (s : RosAlloc) : Nat :=
  (s.objects.map RosObj.internalSize).sum + (s.batches.flatten.map Prod.snd).sum

/-- What every new object goes through: it is charged, marked where new objects are, cleared and
given its header. All memory lies in an address space of less than `2 ^ 64` bytes. -/
def newObj (a : Allocated) (size slot : Nat) : Option RosAlloc :=
  let s := a.state
  if s.totalBytes + a.internalSize ≥ 2 ^ 64 then none
  else if a.internalSize < size + kHeaderSize then none
  else
    let obj : RosObj := ⟨a.kind, size % 2 ^ 31, slot, s.shouldMarkNewObj, a.internalSize⟩
    let s := s.accumulateMemorySlotAllocation slot a.allocSize
    some { s with objects := obj :: s.objects }

/-- The rest of `AllocateObjInternal` and `ReallocateObjInternal`, after so many attempts that failed;
`none` is given where all fail. -/
def newObjInternal (s : RosAlloc) (size slot fails : Nat) (given : Option Nat) : Option RosAlloc :=
  if slot > s.maxSlotIndex then none
  else
    let allocSize := attemptedSize^[fails] (allocUtilRndUp (add64 size kHeaderSize) kAllocAlign)
    match given with
    | none => some s
    | some given => (s.allocAttempt size allocSize given).bind fun a => newObj a size slot

def allocateObj (s : RosAlloc) (size fails : Nat) (given : Option Nat) : Option RosAlloc :=
  s.newObjInternal size s.currentSlot fails given

def tryAllocateObj (s : RosAlloc) (size : Nat) (given : Option Nat) : Option RosAlloc :=
  let allocSize := allocUtilRndUp (add64 size kHeaderSize) kAllocAlign
  if allocSize > kROSAllocLargeSize then some s
  else if s.currentSlot > s.maxSlotIndex then none
  else
    match given with
    | none => some s
    | some given => (s.allocFromRun allocSize given).bind fun a => newObj a size s.currentSlot

def reallocateObj (s : RosAlloc) (ptr : Option Nat) (size fails : Nat) (given : Option Nat) :
    Option RosAlloc :=
  if size = 0 then some s
  else
    match ptr with
    | none => s.newObjInternal size s.currentSlot fails given
    | some i => s.objects[i]?.bind fun obj =>
        if obj.memorySlot > s.maxSlotIndex then none
        else if obj.size ≥ size then
          some { s with objects := s.objects.set i { obj with size := size } }
        else s.newObjInternal size obj.memorySlot fails given

/-! Collections. -/

def sweeping (s : RosAlloc) : Bool := s.phase = .concurrentSweep || s.phase = .parallelSweep

/-- `SweepSlot` of an unmarked object, for the batch of a worker. -/
def sweepSlot (s : RosAlloc) (worker i : Nat) : Option RosAlloc :=
  s.objects[i]?.bind fun obj => s.batches[worker]?.bind fun batch =>
    match obj.kind with
    | .run page => (s.runs page).bind fun idx =>
        if s.sweeping && !obj.marked then
          some { s with
            objects := s.objects.eraseIdx i
            batches := s.batches.set worker (batchAdd obj.memorySlot (getRunSize idx) batch) }
        else none
    | _ => none

/-- One slot of `~MemorySlotReleaseBatch`. -/
def releaseBatch (s : RosAlloc) (worker : Nat) : Option RosAlloc :=
  match s.batches[worker]? with
  | some ((slot, bytes) :: rest) =>
      some { s.releaseMemorySlotBytes slot bytes with batches := s.batches.set worker rest }
  | _ => none

def freeLargeObj (s : RosAlloc) (i : Nat) : Option RosAlloc :=
  s.objects[i]?.bind fun obj =>
    match obj.kind with
    | .large page =>
        if s.sweeping && !obj.marked then
          (clearLargeObjPageAndCount s.pageMap page).map fun (pageCnt, pageMap) =>
            { s.releaseMemorySlotBytes obj.memorySlot (pageCnt2Byte pageCnt) with
              objects := s.objects.eraseIdx i
              pageMap := pageMap }
        else none
    | _ => none

def freeHugeObj (s : RosAlloc) (i : Nat) : Option RosAlloc :=
  s.objects[i]?.bind fun obj =>
    match obj.kind with
    | .huge groupIdx => (s.hugeSize groupIdx).bind fun totalObjSize =>
        if s.sweeping && !obj.marked then
          some { s.releaseMemorySlotBytes obj.memorySlot totalObjSize with
            objects := s.objects.eraseIdx i
            hugeSize := Function.update s.hugeSize groupIdx none }
        else none
    | _ => none

def getAllocatedObjectSize (s : RosAlloc) : ObjKind → Option Nat
  | .run page => (s.runs page).map getRunSize
  | .large page => (clearLargeObjPageAndCount s.pageMap page).map fun p => pageCnt2Byte p.1
  | .huge groupIdx => s.hugeSize groupIdx

def resetBitmap (objects : List RosObj) : List RosObj :=
  objects.map fun obj => { obj with marked := false }

end RosAlloc

inductive RosOp where
  | allocateMemorySlot
  | selectSlot (slot : Nat)
  | allocRun (idx page : Nat)
  | freeRun (page : Nat)
  | allocateObj (size fails : Nat) (given : Option Nat)
  | tryAllocateObj (size : Nat) (given : Option Nat)
  | reallocateObj (ptr : Option Nat) (size fails : Nat) (given : Option Nat)
  | getMemorySizeSlots
  | mark (i : Nat)
  | terminateConMark
  | finalizerPrologue (concurrent : Bool)
  | conSweepPrologue (workers : Nat)
  | parallelFreeAll (workers : Nat)
  | sweepSlot (worker i : Nat)
  | releaseBatch (worker : Nat)
  | freeLargeObj (i : Nat)
  | freeHugeObj (i : Nat)
  | finishSweep
  deriving DecidableEq, Repr

namespace RosAlloc

def mutating (s : RosAlloc) : Bool := s.phase ≠ .parallelSweep

/-- What a step of the mutator does, which is stopped in a parallel sweep. -/
def mutator (s : RosAlloc) (step : RosAlloc → Option RosAlloc) : Option RosAlloc :=
  if s.mutating then step s else none

def beginSweep (s : RosAlloc) (phase : GcPhase) (workers : Nat) : RosAlloc :=
  { s.flushPendingMemorySlotAllocations with
    phase := phase
    batches := List.replicate workers [] }

def apply (s : RosAlloc) : RosOp → Option RosAlloc
  | .allocateMemorySlot => s.mutator fun s =>
      some (if s.maxSlotIndex ≥ 255 then s else { s with maxSlotIndex := s.maxSlotIndex + 1 })
  | .selectSlot slot => s.mutator fun s => some { s with currentSlot := slot }
  | .allocRun idx page => s.mutator fun s => s.allocRun idx page
  | .freeRun page => s.freeRun page
  | .allocateObj size fails given => s.mutator fun s => s.allocateObj size fails given
  | .tryAllocateObj size given => s.mutator fun s => s.tryAllocateObj size given
  | .reallocateObj ptr size fails given => s.mutator fun s => s.reallocateObj ptr size fails given
  | .getMemorySizeSlots => s.mutator fun s => some s.flushPendingMemorySlotAllocations
  | .mark i => s.objects[i]?.bind fun obj =>
      if s.sweeping then none
      else some { s with objects := s.objects.set i { obj with marked := true } }
  | .terminateConMark =>
      if s.phase = .mutator then some { s with objects := resetBitmap s.objects } else none
  | .finalizerPrologue concurrent =>
      if s.phase = .mutator then
        some { s with
          phase := .finalizing concurrent
          shouldMarkNewObj := true }
      else none
  | .conSweepPrologue workers =>
      if s.phase = .finalizing true then some (s.beginSweep .concurrentSweep workers) else none
  | .parallelFreeAll workers =>
      if s.phase = .finalizing false then
        some { s.beginSweep .parallelSweep workers with shouldMarkNewObj := false }
      else none
  | .sweepSlot worker i => s.sweepSlot worker i
  | .releaseBatch worker => s.releaseBatch worker
  | .freeLargeObj i => s.freeLargeObj i
  | .freeHugeObj i => s.freeHugeObj i
  | .finishSweep =>
      if s.sweeping && s.batches.all (·.isEmpty) then
        some { s with
          objects := resetBitmap s.objects
          batches := []
          phase := .mutator
          shouldMarkNewObj := false }
      else none

/-- The allocator of a new runtime, which selects the slot of common memory. -/
def start : RosAlloc where
  memorySizeSlots := fun _ => 0
  maxSlotIndex := 2
  currentSlot := 1
  pendingMemorySlot := 1
  pendingMemorySlotBytes := 0
  pageMap := fun _ => .released
  runs := fun _ => none
  hugeSize := fun _ => none
  objects := []
  batches := []
  phase := .mutator
  shouldMarkNewObj := false
  underflow := false

def run (s : RosAlloc) (ops : List RosOp) : Option RosAlloc := ops.foldlM apply s

end RosAlloc

end PrimJs
