import PrimJs.Foundation.FreeChain
import PrimJs.Foundation.OperationRun
import PrimJs.Gc.Space

/-! `PageGroups`: the slots of the page groups. They are constructed in order on first use, and the
ones that went out of use are linked through `next_free_idx`. -/

namespace PrimJs

structure PageGroupSlot where
  beg : Nat
  end_ : Nat
  maxCapacity : Nat
  idx : Nat
  nextFreeIdx : Nat
  initialized : Bool
  isHuge : Bool
  deriving DecidableEq, Repr

namespace PageGroupSlot

/-- `PageGroup::Init`; the mapping is its base address, and the request of an ordinary group is 0.
Whether it returns: where there is no mapping, the null pointer is followed. -/
def init (g : PageGroupSlot) (reqSize : Int) (mapping : Option Nat) : PageGroupSlot × Bool :=
  if g.initialized then (g, true)
  else
    let g := if reqSize ≠ 0 then
        { g with
          isHuge := true
          maxCapacity := (reqSize % 2 ^ 64).toNat }
      else { g with maxCapacity := kRosDefaultPageGroupValidSize }
    match mapping with
    | none => (g, false)
    | some base =>
        let beg := base + allocUtilPageSize
        ({ g with
          beg := beg
          end_ := add64 beg g.maxCapacity
          initialized := true }, true)

def releaseMem (g : PageGroupSlot) : Option PageGroupSlot :=
  if g.initialized then
    some { g with
      beg := 0
      end_ := 0
      initialized := false
      isHuge := false }
  else none

def link (g : PageGroupSlot) : Option Nat := if g.initialized then none else some g.nextFreeIdx

end PageGroupSlot

/-- `groups` has the slots below `constructed_count_`. -/
structure PageGroups where
  groups : List PageGroupSlot
  currentIdx : Nat
  sortedGroups : Nat → Option Nat

namespace PageGroups

def empty : PageGroups := ⟨[], 0, fun _ => none⟩

/-! `none` is an assertion that fails. -/

def ensureConstructed (m : PageGroups) (idx : Nat) : Option PageGroups :=
  if idx > m.groups.length then none
  else if idx = m.groups.length then
    let group : PageGroupSlot := ⟨0, 0, kRosDefaultPageGroupValidSize, idx, idx + 1, false, false⟩
    some { m with groups := m.groups ++ [group] }
  else some m

/-- The common part of `NewPageGroup` and `NewHugeMem`: the index of the group, which there is not
when `Init` does not return. -/
def newGroup (m : PageGroups) (reqSize : Int) (mapping : Option Nat) :
    Option (Option Nat × PageGroups) :=
  if m.currentIdx ≥ kRosDefaultPageGroupNums then none
  else do
    let m ← m.ensureConstructed m.currentIdx
    let group ← m.groups[m.currentIdx]?
    let (group, returned) := group.init reqSize mapping
    let m := { m with groups := m.groups.set m.currentIdx group }
    if returned then
      some (some m.currentIdx, { m with
        sortedGroups := Function.update m.sortedGroups group.beg (some m.currentIdx)
        currentIdx := group.nextFreeIdx })
    else some (none, m)

def newPageGroup (m : PageGroups) (mapping : Option Nat) : Option (Option Nat × PageGroups) :=
  m.newGroup 0 mapping

/-- `Init` takes the size as an `int`. -/
def newHugeMem (m : PageGroups) (reqSize : Nat) (mapping : Option Nat) :
    Option (Option Nat × PageGroups) :=
  m.newGroup (Int.bmod reqSize (2 ^ 32)) mapping

def releaseGroup (m : PageGroups) (slot : Nat) : Option (Option Nat × PageGroups) := do
  let group ← m.groups[slot]?
  let released ← group.releaseMem
  some (none, { m with
    groups := m.groups.set slot { released with nextFreeIdx := m.currentIdx }
    currentIdx := released.idx
    sortedGroups := Function.update m.sortedGroups group.beg none })

def releaseMem (m : PageGroups) (pageIdx : Nat) : Option (Option Nat × PageGroups) :=
  m.releaseGroup (groupIdxOf pageIdx)

def releaseHugeMem (m : PageGroups) (slot : Nat) : Option (Option Nat × PageGroups) :=
  m.releaseGroup slot

inductive Op where
  | newPageGroup (mapping : Option Nat)
  | newHugeMem (reqSize : Nat) (mapping : Option Nat)
  | releaseMem (pageIdx : Nat)
  | releaseHugeMem (slot : Nat)

def apply (m : PageGroups) : Op → Option (Option Nat × PageGroups)
  | .newPageGroup mapping => m.newPageGroup mapping
  | .newHugeMem reqSize mapping => m.newHugeMem reqSize mapping
  | .releaseMem pageIdx => m.releaseMem pageIdx
  | .releaseHugeMem slot => m.releaseHugeMem slot

/-! What the slots stand for. -/

def Live (m : PageGroups) (i : Nat) : Prop := ∃ g, m.groups[i]? = some g ∧ g.initialized = true

def Free (m : PageGroups) (i : Nat) : Prop := ∃ g, m.groups[i]? = some g ∧ g.initialized = false

def nextFreeIdx (m : PageGroups) (i : Nat) : Option Nat := m.groups[i]?.map fun g => g.nextFreeIdx

instance (m : PageGroups) (i : Nat) : Decidable (m.Live i) :=
  decidable_of_iff (m.groups[i]?.any (fun g => g.initialized) = true) (Option.any_eq_true _ _)

/-- A group is released while it is in use, and created while not all are. -/
def Legal (m : PageGroups) : Op → Prop
  | .newPageGroup _ | .newHugeMem _ _ =>
      m.groups.countP (fun g => g.initialized) < kRosDefaultPageGroupNums
  | .releaseMem pageIdx => m.Live (groupIdxOf pageIdx)
  | .releaseHugeMem slot => m.Live slot

instance (m : PageGroups) (op : Op) : Decidable (m.Legal op) :=
  match op with
  | .newPageGroup _ | .newHugeMem _ _ => inferInstanceAs (Decidable (_ < _))
  | .releaseMem pageIdx => inferInstanceAs (Decidable (m.Live (groupIdxOf pageIdx)))
  | .releaseHugeMem slot => inferInstanceAs (Decidable (m.Live slot))

/-- The current index, the chain of free slots from it and the indices of the groups in use. -/
structure Allocates (m : PageGroups) : Prop where
  current : m.Free m.currentIdx ∨ m.currentIdx = m.groups.length
  chain : ∃ free, Chain m.groups.length m.nextFreeIdx m.currentIdx free ∧ free.Nodup ∧
    ∀ i, i ∈ free ↔ m.Free i
  apart : ∀ (i j : Nat) (g h : PageGroupSlot), m.groups[i]? = some g → m.groups[j]? = some h →
    g.initialized = true → h.initialized = true → g.idx = h.idx → i = j
  few : m.groups.length ≤ kRosDefaultPageGroupNums

/-- A creation gives a slot that was not in use, if any; a release takes its own. The other groups in
use stay as they are. -/
def Does (m : PageGroups) (op : Op) (result : Option Nat) (m' : PageGroups) : Prop :=
  match op with
  | .newPageGroup mapping | .newHugeMem _ mapping =>
      result.isSome = mapping.isSome ∧ (∀ i, m'.Live i ↔ m.Live i ∨ result = some i) ∧
        (∀ i, result = some i → ¬m.Live i) ∧
        ∀ i, m.Live i → m'.groups[i]? = m.groups[i]?
  | .releaseMem pageIdx => (∀ i, m'.Live i ↔ m.Live i ∧ i ≠ groupIdxOf pageIdx) ∧
      ∀ i, i ≠ groupIdxOf pageIdx → m'.groups[i]? = m.groups[i]?
  | .releaseHugeMem slot => (∀ i, m'.Live i ↔ m.Live i ∧ i ≠ slot) ∧
      ∀ i, i ≠ slot → m'.groups[i]? = m.groups[i]?

end PageGroups

end PrimJs
