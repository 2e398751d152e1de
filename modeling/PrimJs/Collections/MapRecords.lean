import Mathlib.Tactic
import Mathlib.Logic.Function.Basic

/-! The records of a `Map`, `Set`, `WeakMap` or `WeakSet`: one list in insertion order, a hash
table, and the weak references of the keys. Reading a record that was freed has no result. -/

namespace PrimJs.JSMap

abbrev RecordId := Nat

/-- Keys up to `js_same_value_zero`, with `map_hash_key` -/
structure MapKeys (κ : Type) where
  hash : κ → Nat → Nat
  hash_lt : ∀ key bits, hash key bits < 2^bits
  isObject : κ → Bool

/-- `none` for a key or a value is `LEPUS_UNDEFINED`. -/
structure JSMapRecord (κ ν : Type) where
  refCount : Int
  empty : Bool
  key : Option κ
  value : Option ν
  deriving DecidableEq, Repr

/-- `JSMapState` with the memory of its records. `firstWeakRef` lists the records of this
collection among the weak references of an object. -/
structure JSMapState (κ ν : Type) where
  isWeak : Bool
  isSet : Bool
  records : List RecordId
  hashTable : Nat → List RecordId
  hashBits : Nat
  hashSize : Nat
  recordCount : Nat
  recordCountThreshold : Nat
  heap : RecordId → Option (JSMapRecord κ ν)
  next : RecordId
  firstWeakRef : κ → List RecordId

namespace JSMapState

variable {κ ν : Type}

/-- `js_map_constructor` without an iterable -/
def initial (isWeak isSet : Bool) : JSMapState κ ν where
  isWeak := isWeak
  isSet := isSet
  records := []
  hashTable := fun _ => []
  hashBits := 1
  hashSize := 2
  recordCount := 0
  recordCountThreshold := 4
  heap := fun _ => none
  next := 0
  firstWeakRef := fun _ => []

section Lists

/-- `el->next`, nothing at the head of the list -/
def nextOf (list : List RecordId) (r : RecordId) : Option RecordId :=
  ((list.dropWhile (· ≠ r)).drop 1).head?

def prevOf (list : List RecordId) (r : RecordId) : Option RecordId :=
  (list.takeWhile (· ≠ r)).getLast?

def isLive (s : JSMapState κ ν) (r : RecordId) : Bool := (s.heap r).isSome

/-- `list_del` writes to both neighbours. -/
def listDel (s : JSMapState κ ν) (list : List RecordId) (r : RecordId) : Option (List RecordId) :=
  if r ∈ list ∧ (∀ n ∈ prevOf list r, s.isLive n = true)
      ∧ (∀ n ∈ nextOf list r, s.isLive n = true)
    then some (list.erase r) else none

def setRecord (s : JSMapState κ ν) (r : RecordId) (mr : JSMapRecord κ ν) : JSMapState κ ν :=
  { s with heap := Function.update s.heap r (some mr) }

/-- `lepus_free_rt` of a record -/
def freeRecord (s : JSMapState κ ν) (r : RecordId) : JSMapState κ ν :=
  { s with heap := Function.update s.heap r none }

end Lists

section References

def increment (s : JSMapState κ ν) (r : RecordId) : Option (JSMapState κ ν) := do
  let mr ← s.heap r
  some (s.setRecord r { mr with refCount := mr.refCount + 1 })

/-- The record gives up one reference and is unlinked and freed with the last one. -/
def decrement (s : JSMapState κ ν) (r : RecordId) : Option (JSMapState κ ν) := do
  let mr ← s.heap r
  if mr.refCount - 1 = 0 then
    let records ← s.listDel s.records r
    some ({ s with records := records }.freeRecord r)
  else some (s.setRecord r { mr with refCount := mr.refCount - 1 })

def mapDecrefRecord (s : JSMapState κ ν) (r : RecordId) : Option (JSMapState κ ν) := do
  let mr ← s.heap r
  guard (mr.refCount - 1 = 0 → mr.empty = true)
  s.decrement r

/-- `map_release_record` up to the release of the key and the value -/
def mapReleaseRecord (s : JSMapState κ ν) (r : RecordId) : Option (JSMapState κ ν) := do
  let mr ← s.heap r
  (s.setRecord r { mr with key := none, value := none }).decrement r

end References

variable [DecidableEq κ] (keys : MapKeys κ)

section Records

def findIn (s : JSMapState κ ν) (key : κ) : List RecordId → Option (Option RecordId)
  | [] => some none
  | r :: rest => do
      let mr ← s.heap r
      if mr.key = some key then some (some r) else s.findIn key rest

def mapFindRecord (s : JSMapState κ ν) (key : κ) : Option (Option RecordId) :=
  s.findIn key (s.hashTable (keys.hash key s.hashBits))

def rehash (s : JSMapState κ ν) (bits : Nat) (table : Nat → List RecordId) :
    List RecordId → Option (Nat → List RecordId)
  | [] => some table
  | r :: rest => do
      let mr ← s.heap r
      match mr.empty, mr.key with
      | false, some key =>
          let h := keys.hash key bits
          s.rehash bits (Function.update table h (table h ++ [r])) rest
      | _, _ => s.rehash bits table rest

/-- `slack` counts the list heads that the allocator gives beyond the table, if it gives one. -/
def mapHashResize (s : JSMapState κ ν) : Option Nat → Option (JSMapState κ ν)
  | none => some s
  | some slack => do
      let newHashBits := min (s.hashBits + 1) 31
      let newHashSize := 2^newHashBits + slack
      let table ← s.rehash keys newHashBits (fun _ => []) s.records
      some { s with
        hashTable := table
        hashBits := newHashBits
        hashSize := newHashSize
        recordCountThreshold := newHashSize * 2 }

/-- A new record enters the list, the hash table and the weak references of its key. -/
def linkRecord (s : JSMapState κ ν) (key : κ) (value : Option ν) : JSMapState κ ν :=
  let r := s.next
  let h := keys.hash key s.hashBits
  { s with
    heap := Function.update s.heap r
      (some { refCount := 1, empty := false, key := some key, value := value })
    next := r + 1
    firstWeakRef := if s.isWeak
      then Function.update s.firstWeakRef key (r :: s.firstWeakRef key) else s.firstWeakRef
    hashTable := Function.update s.hashTable h (s.hashTable h ++ [r])
    records := s.records ++ [r]
    recordCount := s.recordCount + 1 }

/-- `map_add_record` once the allocations of the record have succeeded -/
def mapAddRecord (s : JSMapState κ ν) (key : κ) (value : Option ν) (slack : Option Nat) :
    Option (JSMapState κ ν) :=
  let s := s.linkRecord keys key value
  if s.recordCountThreshold ≤ s.recordCount then s.mapHashResize keys slack else some s

def deleteWeakRef (s : JSMapState κ ν) (key : κ) (r : RecordId) : Option (JSMapState κ ν) :=
  if r ∈ s.firstWeakRef key then
    some { s with
      firstWeakRef := Function.update s.firstWeakRef key ((s.firstWeakRef key).erase r) }
  else none

def dropWeakRef (s : JSMapState κ ν) (key : κ) (r : RecordId) : Option (JSMapState κ ν) :=
  if s.isWeak then s.deleteWeakRef key r else some s

/-- `list_del(&mr->hash_link)` -/
def hashUnlink (s : JSMapState κ ν) (key : κ) (r : RecordId) : Option (JSMapState κ ν) := do
  let h := keys.hash key s.hashBits
  let bucket ← s.listDel (s.hashTable h) r
  some { s with hashTable := Function.update s.hashTable h bucket }

def mapDetachRecord (s : JSMapState κ ν) (r : RecordId) : Option (JSMapState κ ν) := do
  let mr ← s.heap r
  let key ← mr.key
  let s ← s.hashUnlink keys key r
  let s ← s.dropWeakRef key r
  some { s.setRecord r { mr with empty := true } with recordCount := s.recordCount - 1 }

end Records

section Traversal

def firstNonEmpty (s : JSMapState κ ν) : List RecordId → Option (Option RecordId)
  | [] => some none
  | r :: rest => do
      let mr ← s.heap r
      if mr.empty then s.firstNonEmpty rest else some (some r)

/-- The rest of the list from a position in it. A position that is not linked any more has none. -/
def suffixFrom (s : JSMapState κ ν) : Option RecordId → Option (List RecordId)
  | none => some []
  | some el => if s.isLive el = true ∧ el ∈ s.records
      then some (s.records.dropWhile (· ≠ el)) else none

/-- The first loop of `js_map_clear`: every live record is detached and held once more. -/
def stageRecords (s : JSMapState κ ν) : List RecordId → Option (List RecordId × JSMapState κ ν)
  | [] => some ([], s)
  | r :: rest => do
      let mr ← s.heap r
      if mr.empty then s.stageRecords rest
      else
        let s ← s.mapDetachRecord keys r
        let s ← s.increment r
        let (staged, s) ← s.stageRecords rest
        some (r :: staged, s)

/-- The first pass of `reset_weak_ref`: the records leave the list and the hash table. -/
def unlinkDead (s : JSMapState κ ν) (key : κ) : List RecordId → Option (JSMapState κ ν)
  | [] => some s
  | r :: rest => do
      let mr ← s.heap r
      guard (mr.empty = false)
      let records ← s.listDel s.records r
      let s ← { s with records := records }.hashUnlink keys key r
      s.unlinkDead key rest

end Traversal

end JSMapState

end PrimJs.JSMap
