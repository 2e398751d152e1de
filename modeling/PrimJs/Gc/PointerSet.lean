import Mathlib.Data.Finset.Dedup
import PrimJs.Foundation.OpenAddressing

/-! The set of non-null pointers: a table with open addressing whose capacity is a power of two, and
which is at most half full. -/

namespace PrimJs

/-- A pointer that is not null; as an option, `none` is the null pointer. -/
abbrev Pointer := { ptr : BitVec 64 // ptr ≠ 0 }

structure PointerSet where
  slots : Nat → Option Pointer
  capacity : Nat
  size : Nat

namespace PointerSet

open OpenAddressing (entries)

/-- Why an operation does not return: a loop without an end, or no memory for a table. -/
inductive Stop
  | endless
  | badAlloc (capacity : Nat)
deriving DecidableEq

def kInitialCapacity : Nat := 64

def sizeMax : Nat := 2 ^ 64 - 1

/-- `sizeof(void *)` -/
def pointerBytes : Nat := 8

/-- A difference of two values of `size_t` -/
def subSize (a b : Nat) : Nat := (a + 2 ^ 64 - b) % 2 ^ 64

def empty : PointerSet := ⟨fun _ => none, 0, 0⟩

def hash (ptr : Pointer) : Nat :=
  let h := ptr.val * 0x9E3779B97F4A7C15#64
  (h ^^^ (h >>> 32)).toNat

def home (capacity : Nat) (ptr : Pointer) : Nat := hash ptr &&& (capacity - 1)

/-- The search from slot `i` on. After as many steps as there are slots it has seen all of them. -/
def findSlotFrom (slots : Nat → Option Pointer) (capacity : Nat) (ptr : Pointer) :
    Nat → Nat → Except Stop Nat
  | 0, _ => .error .endless
  | fuel + 1, i =>
      if slots i = none ∨ slots i = some ptr then .ok i
      else findSlotFrom slots capacity ptr fuel ((i + 1) &&& (capacity - 1))

def findSlot (slots : Nat → Option Pointer) (capacity : Nat) (ptr : Pointer) : Except Stop Nat :=
  findSlotFrom slots capacity ptr capacity (home capacity ptr)

def contains (s : PointerSet) : Option Pointer → Except Stop Bool
  | none => .ok false
  | some ptr =>
      if s.capacity = 0 then .ok false
      else return s.slots (← findSlot s.slots s.capacity ptr) = some ptr

def installEntry (capacity : Nat) (slots : Nat → Option Pointer) (ptr : Pointer) :
    Except Stop (Nat → Option Pointer) :=
  return Function.update slots (← findSlot slots capacity ptr) (some ptr)

def installTable (s : PointerSet) (newCapacity : Nat) : Except Stop PointerSet := do
  let newSlots ← (entries s.slots s.capacity).foldlM (installEntry newCapacity) fun _ => none
  return { s with slots := newSlots, capacity := newCapacity }

/-- Whether there is memory for a table; `memory` says what the allocator grants. -/
def granted (memory : Nat → Bool) (capacity : Nat) : Bool :=
  capacity * pointerBytes ≤ sizeMax && memory capacity

def rehash (memory : Nat → Bool) (s : PointerSet) (newCapacity : Nat) : Except Stop PointerSet :=
  if granted memory newCapacity then s.installTable newCapacity else .error (.badAlloc newCapacity)

def place (s : PointerSet) (ptr : Pointer) : Except Stop (Bool × PointerSet) := do
  let slot ← findSlot s.slots s.capacity ptr
  if s.slots slot = some ptr then return (false, s)
  else return (true, { s with
    slots := Function.update s.slots slot (some ptr)
    size := s.size + 1 })

protected def insert (memory : Nat → Bool) (s : PointerSet) (ptr : Pointer) :
    Except Stop (Bool × PointerSet) := do
  if s.size = s.capacity / 2 then
    if ← s.contains (some ptr) then return (false, s)
    else
      let newCapacity := if s.capacity = 0 then kInitialCapacity else 2 * s.capacity % 2 ^ 64
      (← s.rehash memory newCapacity).place ptr
  else s.place ptr

def shiftFrom (capacity : Nat) :
    Nat → Nat → Nat → (Nat → Option Pointer) → Except Stop (Nat → Option Pointer)
  | 0, _, _, _ => .error .endless
  | fuel + 1, hole, i, slots =>
      match slots i with
      | none => .ok (Function.update slots hole none)
      | some ptr =>
          let next := (i + 1) &&& (capacity - 1)
          if subSize hole (home capacity ptr) &&& (capacity - 1) <
              subSize i (home capacity ptr) &&& (capacity - 1) then
            shiftFrom capacity fuel i next (Function.update slots hole (some ptr))
          else shiftFrom capacity fuel hole next slots

def erase (s : PointerSet) : Option Pointer → Except Stop (Bool × PointerSet)
  | none => .ok (false, s)
  | some ptr =>
      if s.capacity = 0 then .ok (false, s)
      else do
        let slot ← findSlot s.slots s.capacity ptr
        if s.slots slot = none then return (false, s)
        else
          let slots ← shiftFrom s.capacity s.capacity slot ((slot + 1) &&& (s.capacity - 1)) s.slots
          return (true, { s with
            slots := slots
            size := s.size - 1 })

/-- The loop of `TryGrow`; it gives up at a capacity that cannot be doubled. -/
def growFrom (size : Nat) : Nat → Nat → Except Stop (Option Nat)
  | 0, _ => .error .endless
  | fuel + 1, capacity =>
      if size > capacity / 2 then
        if capacity > sizeMax / pointerBytes / 2 then .ok none
        else growFrom size fuel (capacity * 2)
      else .ok (some capacity)

def tryGrow (memory : Nat → Bool) (s : PointerSet) (size : Nat) :
    Except Stop (Bool × PointerSet) := do
  match ← growFrom size 64 (if s.capacity = 0 then kInitialCapacity else s.capacity) with
  | none => return (false, s)
  | some capacity =>
      if granted memory capacity then return (true, ← s.installTable capacity)
      else return (false, s)

def tryReserve (memory : Nat → Bool) (s : PointerSet) (size : Nat) :
    Except Stop (Bool × PointerSet) :=
  if size ≤ s.capacity / 2 then .ok (true, s) else s.tryGrow memory size

/-- The loop of `CapacityFor` -/
def capacityFrom (size : Nat) : Nat → Nat → Except Stop Nat
  | 0, _ => .error .endless
  | fuel + 1, capacity =>
      if 2 * size % 2 ^ 64 > capacity then capacityFrom size fuel (capacity * 2 % 2 ^ 64)
      else .ok capacity

def capacityFor (size : Nat) : Except Stop Nat := capacityFrom size 64 kInitialCapacity

def insertAll (memory : Nat → Bool) (s : PointerSet) (ptrs : List Pointer) :
    Except Stop PointerSet :=
  ptrs.foldlM (fun s ptr => return (← s.insert memory ptr).2) s

/-- The loop of `RetainIf` over the pointers of the old table. The callback depends on what it was
asked before; it says whether it keeps the pointer, and which pointers it inserts. -/
def retain (memory : Nat → Bool) (keep : List Pointer → Pointer → Bool × List Pointer) :
    List Pointer → List Pointer → PointerSet → Except Stop (List Pointer × PointerSet)
  | asked, [], s => .ok (asked, s)
  | asked, ptr :: rest, s => do
      let s ← s.insertAll memory ((keep asked ptr).2 ++ if (keep asked ptr).1 then [ptr] else [])
      retain memory keep (asked ++ [ptr]) rest s

def retainIf (memory : Nat → Bool) (keep : List Pointer → Pointer → Bool × List Pointer)
    (s : PointerSet) : Except Stop (List Pointer × PointerSet) := do
  if s.size = 0 then return ([], empty)
  else
    let capacity ← capacityFor s.size
    if granted memory capacity then
      retain memory keep [] (entries s.slots s.capacity) ⟨fun _ => none, capacity, 0⟩
    else .error (.badAlloc capacity)

/-- The loop of `Drain` over the pointers of the old table -/
def visit (memory : Nat → Bool) (fn : List Pointer → Pointer → List Pointer) :
    List Pointer → List Pointer → PointerSet → Except Stop (List Pointer)
  | visited, [], _ => .ok visited
  | visited, ptr :: rest, s => do
      let s ← s.insertAll memory (fn visited ptr)
      visit memory fn (visited ++ [ptr]) rest s

def drain (memory : Nat → Bool) (fn : List Pointer → Pointer → List Pointer) (s : PointerSet) :
    Except Stop (List Pointer × PointerSet) :=
  return (← visit memory fn [] (entries s.slots s.capacity) empty, empty)

end PointerSet

end PrimJs
