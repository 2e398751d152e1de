import PrimJs.Foundation.Binary64
import PrimJs.Gc.MemorySlots
import PrimJs.Gc.SlotFreeList
import PrimJs.Gc.ThreeTierList

/-! Runs of slots: allocation from the mutator's local runs, and sweeping. -/

namespace PrimJs

def maxSlots : List Nat :=
  [1021, 681, 510, 408, 340, 291, 255, 227, 204, 185, 170, 157, 145, 136, 127, 120, 113, 107, 102, 97,
    92, 88, 85, 81, 78, 75, 72, 70, 68, 65, 63, 61, 60, 58, 56, 55, 53, 52, 51, 49, 48, 47, 46, 45, 40,
    36, 32, 28, 24, 20, 16, 12, 8, 6, 4, 3, 2]

/-- The binary places that a `float` of the quotient has behind the point. -/
def floatPlaces (n d : Nat) : Nat :=
  if n * 2 ^ Nat.log2 d ≥ d * 2 ^ Nat.log2 n then 23 + Nat.log2 d - Nat.log2 n
  else 24 + Nat.log2 d - Nat.log2 n

/-- A quotient of at most 1, rounded to a `float`. -/
def toFloat (n d : Nat) : Rat :=
  (Binary64.divEven (n * 2 ^ floatPlaces n d) d : Rat) / 2 ^ floatPlaces n d

structure RunSlots where
  mIdx : Nat
  isLocal : Bool
  hasInit : Bool
  nFree : Nat
  freeList : FreeList
  deriving DecidableEq, Repr

namespace RunSlots

def getContentOffset : Nat := 40

def getRunSize (run : RunSlots) : Nat := runSizes.getD run.mIdx 0

def getMaxSlots (run : RunSlots) : Nat := maxSlots.getD run.mIdx 0

def isEmpty (run : RunSlots) : Bool := run.nFree = run.getMaxSlots

def isFull (run : RunSlots) : Bool := run.nFree = 0

def value (run : RunSlots) : Rat :=
  let free := toFloat run.nFree run.getMaxSlots
  toFloat (1 - free).num.toNat (1 - free).den

def slots (run : RunSlots) (runAddr : Nat) : List Nat :=
  FreeList.slotAddrs (runAddr + getContentOffset) run.getRunSize run.getMaxSlots

def freeSlot (run : RunSlots) (mem : SlotWords) (addr : Nat) : RunSlots × SlotWords :=
  let (freeList, mem) := run.freeList.insert mem addr
  ({ run with
    freeList := freeList
    nFree := run.nFree + 1 }, mem)

/-- The visitor is called on the slots that are allocated when their turn comes. -/
def freeIterator {σ : Type} (run : RunSlots) (runAddr : Nat) (mem : σ → SlotWords)
    (visitor : Nat → σ → σ) (s : σ) : σ :=
  if run.isEmpty then s
  else
    (run.slots runAddr).foldl (fun s objAddr =>
      if (mem s).isAllocatedByAllocator objAddr then visitor objAddr s else s) s

end RunSlots

/-- A run that is being swept, and the bytes of the slots that were released. -/
structure SweptRun where
  run : RunSlots
  mem : SlotWords
  releasedSize : Nat

namespace SweptRun

def sweepSlot (slotAddr : Nat) (s : SweptRun) : SweptRun :=
  let (run, mem) := s.run.freeSlot s.mem slotAddr
  ⟨run, mem, s.releasedSize + s.run.getRunSize⟩

def sweepUnmarked (isObjectMarked : Nat → Bool) (objAddr : Nat) (s : SweptRun) : SweptRun :=
  if isObjectMarked objAddr then s else s.sweepSlot objAddr

end SweptRun

def RunSlots.sweepSlots (run : RunSlots) (mem : SlotWords) (runAddr : Nat)
    (isObjectMarked : Nat → Bool) : SweptRun :=
  run.freeIterator runAddr SweptRun.mem (SweptRun.sweepUnmarked isObjectMarked) ⟨run, mem, 0⟩

/-- The runs by their addresses, the lists of those that are not full by their size, and what the
mutator has for each size. -/
structure RunAllocator where
  mem : SlotWords
  runs : Nat → Option RunSlots
  nonFullRuns : Nat → ThreeTierList Nat
  localRuns : Nat → Option Nat
  freeLists : Nat → FreeList
  freeListSizes : Nat → Nat
  concurrentSweepIsRunning : Bool

namespace RunAllocator

open Function (update)

/-! `none` is an assertion that fails or a null pointer that is followed. -/

def putRun (m : RunAllocator) (runAddr : Nat) (run : RunSlots) : RunAllocator :=
  { m with runs := update m.runs runAddr (some run) }

def putList (m : RunAllocator) (idx : Nat) (list : ThreeTierList Nat) : RunAllocator :=
  { m with nonFullRuns := update m.nonFullRuns idx list }

/-- `ROSAllocMutator::Alloc`. -/
def mutatorAlloc (m : RunAllocator) (idx : Nat) : Nat × RunAllocator :=
  let (addr, freeList) := (m.freeLists idx).fetch m.mem
  (addr, { m with
    freeLists := update m.freeLists idx freeList
    freeListSizes := if addr ≠ 0 then update m.freeListSizes idx (m.freeListSizes idx - 1)
      else m.freeListSizes })

def localise (m : RunAllocator) (runAddr : Nat) : Option RunAllocator := do
  let run ← m.runs runAddr
  let (freeList, mem) ← (m.freeLists run.mIdx).prepend run.freeList m.mem
  some ({ m with
    mem := mem
    freeLists := update m.freeLists run.mIdx freeList
    freeListSizes := update m.freeListSizes run.mIdx (m.freeListSizes run.mIdx + run.nFree)
    localRuns := update m.localRuns run.mIdx (some runAddr) }.putRun runAddr { run with
      isLocal := true
      nFree := 0
      freeList := .empty })

def globalise (m : RunAllocator) (runAddr : Nat) : Option RunAllocator := do
  let run ← m.runs runAddr
  let (run, m) ← if m.freeListSizes run.mIdx ≠ 0 then do
      let (freeList, mem) ← run.freeList.prepend (m.freeLists run.mIdx) m.mem
      some ({ run with
        freeList := freeList
        nFree := run.nFree + m.freeListSizes run.mIdx }, { m with
          mem := mem
          freeLists := update m.freeLists run.mIdx .empty
          freeListSizes := update m.freeListSizes run.mIdx 0 })
    else some (run, m)
  some ({ m with localRuns := update m.localRuns run.mIdx none }.putRun runAddr
    { run with isLocal := false })

/-- `RunSlots(idx)` and `Init`, on the page of the address. -/
def newRun (m : RunAllocator) (idx runAddr : Nat) : Option RunAllocator := do
  let run : RunSlots := ⟨idx, false, false, 0, .empty⟩
  let (freeList, mem) ← FreeList.init m.mem (runAddr + RunSlots.getContentOffset) run.getRunSize
    run.getMaxSlots
  let list := (((m.nonFullRuns idx).setNext runAddr none).setPrev runAddr none).setInList runAddr false
  some (({ m with mem := mem }.putList idx list).putRun runAddr { run with
    hasInit := true
    nFree := run.getMaxSlots
    freeList := freeList })

/-- The page is what `AllocRun` gives. -/
def fetchOrAllocRun (m : RunAllocator) (idx : Nat) (page : Option Nat) :
    Option (Option Nat × RunAllocator) := do
  let (run, m) ← if m.concurrentSweepIsRunning then some (none, m)
    else (m.nonFullRuns idx).fetch.map fun (run, list) => (run, m.putList idx list)
  match run with
  | some runAddr => some (some runAddr, m)
  | none =>
      match page with
      | none => some (none, m)
      | some runAddr => (m.newRun idx runAddr).map fun m => (some runAddr, m)

def allocAfterLocalise (m : RunAllocator) (idx runAddr : Nat) : Option (Nat × RunAllocator) := do
  let m ← m.localise runAddr
  let (addr, m) := m.mutatorAlloc idx
  if addr = 0 then none else some (addr, m)

def allocFromNextRun (m : RunAllocator) (idx : Nat) (page : Option Nat) : Option (Nat × RunAllocator) := do
  let (run, m) ← m.fetchOrAllocRun idx page
  match run with
  | none => some (0, m)
  | some runAddr => m.allocAfterLocalise idx runAddr

def allocFromLocalRun (m : RunAllocator) (idx : Nat) (page : Option Nat) : Option (Nat × RunAllocator) :=
  match m.localRuns idx with
  | none => m.allocFromNextRun idx page
  | some localAddress =>
      let (addr, m) := m.mutatorAlloc idx
      if addr ≠ 0 then some (addr, m)
      else do
        let run ← m.runs localAddress
        if run.isFull then do
          let m ← m.globalise localAddress
          m.allocFromNextRun idx page
        else m.allocAfterLocalise idx localAddress

def allocateObj (m : RunAllocator) (idx : Nat) (page : Option Nat) (header : BitVec 63) :
    Option (Nat × RunAllocator) :=
  (m.allocFromLocalRun idx page).map fun (addr, m) =>
    if addr = 0 then (0, m) else (addr, { m with mem := update m.mem addr (header.cons true) })

def isInList (m : RunAllocator) (runAddr : Nat) (run : RunSlots) : Bool :=
  (m.nonFullRuns run.mIdx).isInList runAddr

def freeRun (m : RunAllocator) (runAddr : Nat) : RunAllocator := { m with runs := update m.runs runAddr none }

/-- `nonFullRuns[idx].Erase`. -/
def eraseRun (m : RunAllocator) (runAddr : Nat) (run : RunSlots) : Option RunAllocator :=
  ((m.nonFullRuns run.mIdx).erase runAddr).map (m.putList run.mIdx)

def insertRun (m : RunAllocator) (runAddr : Nat) (run : RunSlots) : Option RunAllocator :=
  ((m.nonFullRuns run.mIdx).insert runAddr run.value).map (m.putList run.mIdx)

def updateGlobalsAfterFree (m : RunAllocator) (runAddr : Nat) (run : RunSlots) (wasFull : Bool) :
    Option (Bool × RunAllocator) :=
  if run.isLocal then some (false, m)
  else if run.isEmpty then
    if m.isInList runAddr run then (m.eraseRun runAddr run).map fun m => (true, m)
    else some (wasFull, m)
  else if wasFull && !run.isFull then
    if m.isInList runAddr run then none
    else (m.insertRun runAddr run).map fun m => (false, m)
  else some (false, m)

def settle (m : RunAllocator) (runAddr : Nat) (run : RunSlots) (wasFull : Bool) : Option RunAllocator :=
  (m.updateGlobalsAfterFree runAddr run wasFull).map fun (needRemove, m) =>
    if needRemove then m.freeRun runAddr else m

def sweepRun (m : RunAllocator) (runAddr : Nat) (isObjectMarked : Nat → Bool) :
    Option (Nat × RunAllocator) := do
  let run ← m.runs runAddr
  let wasFull := run.isFull
  let swept := run.sweepSlots m.mem runAddr isObjectMarked
  let m := { m with mem := swept.mem }.putRun runAddr swept.run
  let m ← m.settle runAddr swept.run wasFull
  some (swept.releasedSize, m)

def concurrentSweepRun (m : RunAllocator) (runAddr : Nat) (isObjectMarked : Nat → Bool) :
    Option (Nat × RunAllocator) := do
  let run ← m.runs runAddr
  let wasFull := run.isFull
  let locked := m.isInList runAddr run
  let swept := run.sweepSlots m.mem runAddr isObjectMarked
  let m := { m with mem := swept.mem }.putRun runAddr swept.run
  let m ← if locked then
      if swept.run.isEmpty then (m.eraseRun runAddr swept.run).map fun m => m.freeRun runAddr
      else some m
    else m.settle runAddr swept.run wasFull
  some (swept.releasedSize, m)

/-- `SweepRunForConSweepPrologue`, of a local run. -/
def sweepRunForConSweepPrologue (m : RunAllocator) (runAddr : Nat) (isObjectMarked : Nat → Bool) :
    Option (Nat × RunAllocator) := do
  let run ← m.runs runAddr
  let swept := run.sweepSlots m.mem runAddr isObjectMarked
  some (swept.releasedSize, { m with mem := swept.mem }.putRun runAddr swept.run)

def localRunIsEmpty (m : RunAllocator) (runAddr : Nat) (run : RunSlots) : Bool :=
  run.isEmpty || (run.slots runAddr).all fun slot => !m.mem.isAllocatedByAllocator slot

/-- The turn of one size in `ReleaseEmptyLocalruns`. -/
def releaseEmptyLocalrun (m : RunAllocator) (idx : Nat) : Option RunAllocator :=
  match m.localRuns idx with
  | none => some m
  | some runAddr => do
      let run ← m.runs runAddr
      if m.localRunIsEmpty runAddr run then
        some ({ m with
          localRuns := update m.localRuns idx none
          freeListSizes := update m.freeListSizes idx 0
          freeLists := update m.freeLists idx .empty }.freeRun runAddr)
      else some m

end RunAllocator

end PrimJs
