import Mathlib
import PrimJs.Collections.MapRecords

/-! The table of a collection in tracing mode: entries in insertion order, chained by index from
the buckets. A walk that does not end and an index out of bounds have no result. -/

namespace PrimJs.LinkedHashMap

open JSMap (MapKeys)

abbrev TableId := Nat

def uint32Max : Nat := 0xFFFFFFFF

def kInvalidMapEntry : Nat := uint32Max

def kInitialMapBucketCount : Nat := 2

def kInitialMapEntryCapacity : Nat := 4

def kMinMapShrinkCapacity : Nat := 16

def kDelayedMapShrinkDivisor : Nat := 8

def kJSLinkedHashMapClearedCount : Nat := uint32Max

/-- An entry is `none` when its key is `LEPUS_UNINITIALIZED`. The hash links of a strong table that
was rebuilt hold the indices of its deleted entries. -/
structure JSLinkedHashMap (κ ν : Type) where
  isWeak : Bool
  bucketCount : Nat
  entryCapacity : Nat
  entryUsed : Nat
  liveCount : Nat
  deletedCount : Nat
  nextTable : Option TableId
  buckets : Nat → Nat
  hashNext : Nat → Nat
  weakBuckets : Nat → Nat
  entries : Nat → Option (κ × ν)

structure JSLinkedHashMapLookup where
  bucket : Nat
  previous : Nat
  entry : Nat
  deriving DecidableEq, Repr

/-- `linked_hash_bits`, the least power of two that is not below the count -/
def linkedHashBits (bucketCount : Nat) : Nat := Nat.clog 2 bucketCount

/-- `linked_hash_map_alloc` once its memory is there -/
def linkedHashMapAlloc {κ ν : Type} (bucketCount entryCapacity : Nat) (isWeak : Bool) :
    Option (JSLinkedHashMap κ ν) :=
  if bucketCount < kInitialMapBucketCount ∨ bucketCount &&& (bucketCount - 1) ≠ 0 then none
  else some {
    isWeak := isWeak
    bucketCount := bucketCount
    entryCapacity := entryCapacity
    entryUsed := 0
    liveCount := 0
    deletedCount := 0
    nextTable := none
    buckets := fun _ => kInvalidMapEntry
    hashNext := fun _ => 0
    weakBuckets := fun _ => 0
    entries := fun _ => none }

section Sizes

/-- Doubled until it is not below the target. The doubling of a `uint32_t` stops after 31 rounds. -/
def doubledTo (target : Nat) : Nat → Nat → Option Nat
  | 0, _ => none
  | fuel + 1, n =>
      if n < target then
        if n > uint32Max / 2 then none else doubledTo target fuel (n * 2)
      else some n

/-- `linked_hash_map_compute_capacity`, whose 0 is `none` -/
def computeCapacity (entryCount : Nat) : Option Nat :=
  let growthSlack := entryCount / 2
  if entryCount > uint32Max - growthSlack then none
  else doubledTo (entryCount + growthSlack) 32 kInitialMapEntryCapacity

/-- The bucket count `linked_hash_map_rebuild` chooses -/
def newBucketCount (newCapacity : Nat) : Option Nat :=
  doubledTo (newCapacity / 2) 32 kInitialMapBucketCount

end Sizes

namespace JSLinkedHashMap

variable {κ ν : Type}

def isLive (t : JSLinkedHashMap κ ν) (i : Nat) : Bool := (t.entries i).isSome

def shouldRehash (t : JSLinkedHashMap κ ν) (addedCount : Nat) : Bool :=
  if addedCount > uint32Max - t.liveCount then true
  else
    let newLiveCount := t.liveCount + addedCount
    let capacity := t.entryCapacity
    if newLiveCount < capacity ∧ t.deletedCount ≤ (capacity - newLiveCount) / 2
        ∧ newLiveCount / 2 ≤ capacity - newLiveCount then false
    else true

section Links

/-- The link that leads to an entry, in its bucket or in the entry before it, is changed. -/
def relink (t : JSLinkedHashMap κ ν) (bucket previous next : Nat) : JSLinkedHashMap κ ν :=
  { t with
    buckets := if previous = kInvalidMapEntry then Function.update t.buckets bucket next
      else t.buckets
    hashNext := if previous = kInvalidMapEntry then t.hashNext
      else Function.update t.hashNext previous next }

def bucketOf (keys : MapKeys κ) (t : JSLinkedHashMap κ ν) (key : κ) : Nat :=
  keys.hash key (linkedHashBits t.bucketCount)

/-- The loop of `linked_hash_map_find` -/
def findFrom [DecidableEq κ] (key : κ) (bucket : Nat) :
    Nat → Nat → Nat → JSLinkedHashMap κ ν → Option (JSLinkedHashMapLookup × JSLinkedHashMap κ ν)
  | 0, previous, entryIndex, t =>
      if entryIndex = kInvalidMapEntry then some (⟨bucket, previous, kInvalidMapEntry⟩, t)
      else none
  | fuel + 1, previous, entryIndex, t =>
      if entryIndex = kInvalidMapEntry then some (⟨bucket, previous, kInvalidMapEntry⟩, t)
      else if entryIndex < t.entryUsed then
        let next := t.hashNext entryIndex
        match t.entries entryIndex with
        | none => findFrom key bucket fuel previous next (t.relink bucket previous next)
        | some (entryKey, _) =>
            if entryKey = key then some (⟨bucket, previous, entryIndex⟩, t)
            else findFrom key bucket fuel entryIndex next t
      else none

/-- `linked_hash_map_find` -/
def find [DecidableEq κ] (keys : MapKeys κ) (t : JSLinkedHashMap κ ν) (key : κ) :
    Option (JSLinkedHashMapLookup × JSLinkedHashMap κ ν) :=
  let bucket := t.bucketOf keys key
  findFrom key bucket t.entryUsed kInvalidMapEntry (t.buckets bucket) t

def pushEntry (t : JSLinkedHashMap κ ν) (bucket : Nat) (key : κ) (value : ν) :
    Option (JSLinkedHashMap κ ν) :=
  let entryIndex := t.entryUsed
  if entryIndex < t.entryCapacity then
    some { t with
      entryUsed := entryIndex + 1
      weakBuckets := if t.isWeak then Function.update t.weakBuckets entryIndex bucket
        else t.weakBuckets
      hashNext := Function.update t.hashNext entryIndex (t.buckets bucket)
      entries := Function.update t.entries entryIndex (some (key, value))
      buckets := Function.update t.buckets bucket entryIndex
      liveCount := t.liveCount + 1 }
  else none

def unlinkEntry (t : JSLinkedHashMap κ ν) (bucket previous entryIndex : Nat) :
    JSLinkedHashMap κ ν :=
  let t := t.relink bucket previous (t.hashNext entryIndex)
  { t with
    hashNext := Function.update t.hashNext entryIndex kInvalidMapEntry
    entries := Function.update t.entries entryIndex none
    liveCount := t.liveCount - 1
    deletedCount := t.deletedCount + 1 }

/-- The walk of `linked_hash_map_remove_dead_weak_entry` to the entry before, `none` inside when
the chain does not have the entry -/
def walkTo (t : JSLinkedHashMap κ ν) (entryIndex : Nat) : Nat → Nat → Nat → Option (Option Nat)
  | 0, previous, current =>
      if current = entryIndex then some (some previous)
      else if current = kInvalidMapEntry then some none
      else none
  | fuel + 1, previous, current =>
      if current = entryIndex then some (some previous)
      else if current = kInvalidMapEntry then some none
      else if current ≥ t.entryUsed then some none
      else t.walkTo entryIndex fuel current (t.hashNext current)

def removeDeadWeakEntry (t : JSLinkedHashMap κ ν) (entryIndex : Nat) :
    Option (JSLinkedHashMap κ ν) :=
  if t.isWeak = false ∨ entryIndex ≥ t.entryUsed then some t
  else if t.isLive entryIndex = false then some t
  else
    let bucket := t.weakBuckets entryIndex
    if bucket ≥ t.bucketCount then some t
    else do
      let found ← t.walkTo entryIndex t.entryUsed kInvalidMapEntry (t.buckets bucket)
      match found with
      | none => some t
      | some previous => some (t.unlinkEntry bucket previous entryIndex)

def chainFrom (t : JSLinkedHashMap κ ν) : Nat → Nat → List Nat
  | 0, _ => []
  | fuel + 1, entryIndex =>
      if entryIndex = kInvalidMapEntry then []
      else entryIndex :: t.chainFrom fuel (t.hashNext entryIndex)

def bucketChain (t : JSLinkedHashMap κ ν) (bucket : Nat) : List Nat :=
  t.chainFrom t.entryUsed (t.buckets bucket)

end Links

end JSLinkedHashMap

end PrimJs.LinkedHashMap
