import PrimJs.Collections.LinkedHashMap

/-! Collections in tracing mode with the weak references of their keys. An allocation can run a
garbage collection, which removes the entries of dead keys and calls cleanup callbacks: a frame
holds an operation that waits for memory. -/

namespace PrimJs.LinkedHashMap

open JSMap (MapKeys)

/-- A `WeakRefRecord` of kind `WEAK_MAP` -/
structure WeakRefRecord where
  table : TableId
  entryIndex : Nat
  deriving DecidableEq, Repr

inductive Frame (κ ν : Type) where
  /-- `linked_hash_map_add` waits for a larger table. -/
  | growTable (m : Nat) (old : TableId) (bucketCount capacity : Nat) (key : κ) (value : ν)
  /-- `js_map_delete` waits for a smaller table. -/
  | shrinkTable (m : Nat) (old : TableId) (bucketCount capacity : Nat)
  /-- `js_map_clear` waits for an empty table. -/
  | clearTable (m : Nat) (old : TableId)
  /-- `insert_weak_map_entry_record` waits for the record of a new entry. -/
  | weakRecord (m : Nat) (table : TableId) (entryIndex bucket : Nat) (key : κ)
  deriving DecidableEq, Repr

def Frame.map {κ ν : Type} : Frame κ ν → Nat
  | growTable m _ _ _ _ _ | shrinkTable m _ _ _ | clearTable m _ | weakRecord m _ _ _ _ => m

def Frame.key {κ ν : Type} : Frame κ ν → Option κ
  | growTable _ _ _ _ key _ | weakRecord _ _ _ _ key => some key
  | shrinkTable _ _ _ _ | clearTable _ _ => none

def Frame.awaited {κ ν : Type} : Frame κ ν → Option WeakRefRecord
  | weakRecord _ table entryIndex _ _ => some ⟨table, entryIndex⟩
  | _ => none

/-- The tables in memory, the table of every live collection, the weak references of the keys and
the operations in progress, the innermost first -/
structure WeakHeap (κ ν : Type) where
  tables : TableId → Option (JSLinkedHashMap κ ν)
  next : TableId
  maps : List (Option TableId)
  firstWeakRef : κ → List WeakRefRecord
  frames : List (Frame κ ν)

inductive WeakEvent (κ ν : Type) where
  | construct (isWeak allocated : Bool)
  | set (m : Nat) (key : κ) (value : ν)
  | get (m : Nat) (key : κ)
  | delete (m : Nat) (key : κ)
  | clear (m : Nat)
  /-- `reset_weak_ref_gc` of a dead object -/
  | keyDeath (key : κ)
  /-- A collection is found dead; its table is finalized later. -/
  | mapDeath (m : Nat)
  /-- `JSLinkedHashMapFinalizer` -/
  | tableDeath (t : TableId)
  /-- The innermost operation gets its memory or not. -/
  | resume (allocated : Bool)
  deriving DecidableEq, Repr

inductive Reply (ν : Type) where
  | done
  | waiting
  | value (v : Option ν)
  | flag (b : Bool)
  | exception
  /-- The operation does not exist or cannot happen here. -/
  | refused
  deriving DecidableEq, Repr

namespace WeakHeap

variable {κ ν : Type}

def initial : WeakHeap κ ν where
  tables := fun _ => none
  next := 0
  maps := []
  firstWeakRef := fun _ => []
  frames := []

abbrev Stepped (κ ν : Type) := Reply ν × WeakHeap κ ν

def refuse (c : WeakHeap κ ν) : Option (Stepped κ ν) := some (.refused, c)

def setTable (c : WeakHeap κ ν) (t : TableId) (table : JSLinkedHashMap κ ν) : WeakHeap κ ν :=
  { c with tables := Function.update c.tables t (some table) }

def wait (c : WeakHeap κ ν) (frame : Frame κ ν) : Option (Stepped κ ν) :=
  some (.waiting, { c with frames := frame :: c.frames })

section Records

variable [DecidableEq κ]

/-- `insert_weak_map_entry_record` once the record is there -/
def insertWeakMapEntryRecord (firstWeakRef : κ → List WeakRefRecord) (key : κ)
    (wr : WeakRefRecord) : κ → List WeakRefRecord :=
  Function.update firstWeakRef key (wr :: firstWeakRef key)

/-- `delete_weak_map_entry_record`, which can find none -/
def deleteWeakMapEntryRecord (firstWeakRef : κ → List WeakRefRecord) (key : κ)
    (wr : WeakRefRecord) : κ → List WeakRefRecord :=
  Function.update firstWeakRef key ((firstWeakRef key).erase wr)

end Records

section Rebuild

variable [DecidableEq κ] (keys : MapKeys κ)

/-- `rebind_weak_map_entry_record`, whose assertion fails when there is no record -/
def rebind (old new : WeakRefRecord) : List WeakRefRecord → Option (List WeakRefRecord)
  | [] => none
  | wr :: rest => if wr = old then some (new :: rest) else (rebind old new rest).map (wr :: ·)

/-- What the loop of `linked_hash_map_rebuild` changes -/
structure Rebuilding (κ ν : Type) where
  newTable : JSLinkedHashMap κ ν
  hashNext : Nat → Nat
  deletedCount : Nat
  firstWeakRef : κ → List WeakRefRecord

def rebuildEntry (old new : TableId) (oldTable : JSLinkedHashMap κ ν) (r : Rebuilding κ ν) (i : Nat) :
    Option (Rebuilding κ ν) :=
  match oldTable.entries i with
  | none =>
      if oldTable.isWeak then some r
      else some { r with
        hashNext := Function.update r.hashNext r.deletedCount i
        deletedCount := r.deletedCount + 1 }
  | some (key, value) => do
      let dstIndex := r.newTable.entryUsed
      let newTable ← r.newTable.pushEntry (r.newTable.bucketOf keys key) key value
      if oldTable.isWeak then
        let records ← rebind ⟨old, i⟩ ⟨new, dstIndex⟩ (r.firstWeakRef key)
        some { r with
          newTable := newTable
          firstWeakRef := Function.update r.firstWeakRef key records }
      else some { r with newTable := newTable }

/-- `linked_hash_map_rebuild` once the new table is there -/
def rebuild (c : WeakHeap κ ν) (m : Nat) (old : TableId) (bucketCount capacity : Nat) :
    Option (WeakHeap κ ν) := do
  let oldTable ← c.tables old
  let new := c.next
  let empty ← linkedHashMapAlloc bucketCount capacity oldTable.isWeak
  let r ← (List.range oldTable.entryUsed).foldlM (rebuildEntry keys old new oldTable)
    ⟨empty, oldTable.hashNext, 0, c.firstWeakRef⟩
  let replaced := { oldTable with
    hashNext := r.hashNext
    deletedCount := if oldTable.isWeak then oldTable.deletedCount else r.deletedCount
    nextTable := some new }
  some { c with
    tables := Function.update (Function.update c.tables old (some replaced)) new (some r.newTable)
    next := new + 1
    maps := c.maps.set m (some new)
    firstWeakRef := r.firstWeakRef }

end Rebuild

section Insert

def append (c : WeakHeap κ ν) (m : Nat) (t : TableId) (table : JSLinkedHashMap κ ν) (bucket : Nat)
    (key : κ) (value : ν) : Option (Stepped κ ν) := do
  let table' ← table.pushEntry bucket key value
  let c := c.setTable t table'
  if table.isWeak then c.wait (.weakRecord m t table.entryUsed bucket key) else some (.done, c)

/-- `linked_hash_map_add`, with `linked_hash_map_ensure_capacity` -/
def add (c : WeakHeap κ ν) (m : Nat) (t : TableId) (table : JSLinkedHashMap κ ν) (bucket : Nat)
    (key : κ) (value : ν) : Option (Stepped κ ν) :=
  if table.shouldRehash 1 = false then c.append m t table bucket key value
  else if table.liveCount = uint32Max then some (.exception, c)
  else
    match computeCapacity (table.liveCount + 1) with
    | none => some (.exception, c)
    | some capacity =>
        match newBucketCount capacity with
        | none => some (.exception, c)
        | some bucketCount => c.wait (.growTable m t bucketCount capacity key value)

/-- `linked_hash_map_maybe_shrink` after a deletion -/
def maybeShrink (c : WeakHeap κ ν) (m : Nat) (t : TableId) (table : JSLinkedHashMap κ ν) :
    Option (Stepped κ ν) :=
  let currentCapacity := table.entryCapacity
  if table.liveCount > currentCapacity / kDelayedMapShrinkDivisor
      ∨ table.liveCount > currentCapacity / 4 then some (.flag true, c)
  else
    match computeCapacity table.liveCount with
    | none => some (.flag true, c)
    | some capacity =>
        if capacity < kMinMapShrinkCapacity ∨ capacity ≥ currentCapacity then some (.flag true, c)
        else
          match newBucketCount capacity with
          | none => some (.exception, c)
          | some bucketCount => c.wait (.shrinkTable m t bucketCount capacity)

end Insert

section Operations

variable [DecidableEq κ] (keys : MapKeys κ)

/-- `js_map_constructor` without an iterable -/
def construct (c : WeakHeap κ ν) (isWeak allocated : Bool) : Option (Stepped κ ν) :=
  if allocated = false then some (.exception, c)
  else
    match linkedHashMapAlloc kInitialMapBucketCount kInitialMapEntryCapacity isWeak with
    | none => some (.exception, c)
    | some table => some (.done, { c.setTable c.next table with
        next := c.next + 1
        maps := c.maps ++ [some c.next] })

/-- `js_map_set` -/
def set (c : WeakHeap κ ν) (m : Nat) (key : κ) (value : ν) : Option (Stepped κ ν) :=
  match c.maps[m]?.join with
  | none => c.refuse
  | some t => do
      let table ← c.tables t
      if table.isWeak = true ∧ keys.isObject key = false then some (.exception, c)
      else
        let (lookup, table) ← table.find keys key
        let c := c.setTable t table
        if lookup.entry = kInvalidMapEntry then c.add m t table lookup.bucket key value
        else
          let (entryKey, _) ← table.entries lookup.entry
          some (.done, c.setTable t { table with
            entries := Function.update table.entries lookup.entry (some (entryKey, value)) })

/-- `js_map_get` -/
def get (c : WeakHeap κ ν) (m : Nat) (key : κ) : Option (Stepped κ ν) :=
  match c.maps[m]?.join with
  | none => c.refuse
  | some t => do
      let table ← c.tables t
      let (lookup, table) ← table.find keys key
      let c := c.setTable t table
      if lookup.entry = kInvalidMapEntry then some (.value none, c)
      else
        let (_, value) ← table.entries lookup.entry
        some (.value (some value), c)

/-- `js_map_delete`, with `linked_hash_map_delete` -/
def delete (c : WeakHeap κ ν) (m : Nat) (key : κ) : Option (Stepped κ ν) :=
  match c.maps[m]?.join with
  | none => c.refuse
  | some t => do
      let table ← c.tables t
      let (lookup, table) ← table.find keys key
      let c := c.setTable t table
      if lookup.entry = kInvalidMapEntry then some (.flag false, c)
      else
        let (entryKey, _) ← table.entries lookup.entry
        let records := deleteWeakMapEntryRecord c.firstWeakRef entryKey ⟨t, lookup.entry⟩
        let c := { c with firstWeakRef := if table.isWeak then records else c.firstWeakRef }
        let table := table.unlinkEntry lookup.bucket lookup.previous lookup.entry
        (c.setTable t table).maybeShrink m t table

/-- `js_map_clear`, which weak collections do not have -/
def clear (c : WeakHeap κ ν) (m : Nat) : Option (Stepped κ ν) :=
  match c.maps[m]?.join with
  | none => c.refuse
  | some t => do
      let table ← c.tables t
      if table.isWeak then c.refuse else c.wait (.clearTable m t)

end Operations

section Collector

variable [DecidableEq κ]

/-- The first pass of `reset_weak_ref_gc` -/
def removeDead (c : WeakHeap κ ν) (wr : WeakRefRecord) : Option (WeakHeap κ ν) := do
  let table ← c.tables wr.table
  let table ← table.removeDeadWeakEntry wr.entryIndex
  some (c.setTable wr.table table)

def keyDeath (c : WeakHeap κ ν) (key : κ) : Option (Stepped κ ν) :=
  if some key ∈ c.frames.map Frame.key then c.refuse
  else do
    let c ← (c.firstWeakRef key).foldlM removeDead c
    some (.done, { c with firstWeakRef := Function.update c.firstWeakRef key [] })

def mapDeath (c : WeakHeap κ ν) (m : Nat) : Option (Stepped κ ν) :=
  if m ∈ c.frames.map Frame.map then c.refuse
  else some (.done, { c with maps := c.maps.set m none })

def dropRecord (t : TableId) (table : JSLinkedHashMap κ ν) (records : κ → List WeakRefRecord)
    (i : Nat) : κ → List WeakRefRecord :=
  match table.entries i with
  | none => records
  | some (key, _) => deleteWeakMapEntryRecord records key ⟨t, i⟩

/-- The records of the live entries of a dead weak table are deleted where they are. -/
def dropRecords (t : TableId) (table : JSLinkedHashMap κ ν) (records : κ → List WeakRefRecord) :
    κ → List WeakRefRecord :=
  (List.range table.entryUsed).foldl (dropRecord t table) records

def tableDeath (c : WeakHeap κ ν) (t : TableId) : Option (Stepped κ ν) :=
  if some t ∈ c.maps then c.refuse
  else
    match c.tables t with
    | none => c.refuse
    | some table => some (.done, { c with
        tables := Function.update c.tables t none
        firstWeakRef := if table.isWeak then dropRecords t table c.firstWeakRef
          else c.firstWeakRef })

end Collector

section Resume

variable [DecidableEq κ] (keys : MapKeys κ)

def tableGrown (c : WeakHeap κ ν) (m : Nat) (old : TableId) (bucketCount capacity : Nat) (key : κ)
    (value : ν) : Option (Stepped κ ν) := do
  let new := c.next
  let c ← c.rebuild keys m old bucketCount capacity
  let table ← c.tables new
  c.append m new table (table.bucketOf keys key) key value

def tableShrunk (c : WeakHeap κ ν) (m : Nat) (old : TableId) (bucketCount capacity : Nat) :
    Option (Stepped κ ν) := do
  let c ← c.rebuild keys m old bucketCount capacity
  some (.flag true, c)

def tableCleared (c : WeakHeap κ ν) (m : Nat) (old : TableId) : Option (Stepped κ ν) := do
  let oldTable ← c.tables old
  let new := c.next
  let empty ← linkedHashMapAlloc kInitialMapBucketCount kInitialMapEntryCapacity false
  let cleared := { oldTable with
    nextTable := some new
    deletedCount := kJSLinkedHashMapClearedCount }
  some (.done, { c with
    tables := Function.update (Function.update c.tables old (some cleared)) new (some empty)
    next := new + 1
    maps := c.maps.set m (some new) })

def recordReady (c : WeakHeap κ ν) (t : TableId) (entryIndex bucket : Nat) (key : κ)
    (allocated : Bool) : Option (Stepped κ ν) :=
  if allocated then
    some (.done, { c with
      firstWeakRef := insertWeakMapEntryRecord c.firstWeakRef key ⟨t, entryIndex⟩ })
  else do
    let table ← c.tables t
    some (.exception, c.setTable t (table.unlinkEntry bucket kInvalidMapEntry entryIndex))

def resume (c : WeakHeap κ ν) (allocated : Bool) : Option (Stepped κ ν) :=
  match c.frames with
  | [] => c.refuse
  | frame :: frames =>
      let c := { c with frames := frames }
      match frame with
      | .growTable m old bucketCount capacity key value =>
          if allocated then c.tableGrown keys m old bucketCount capacity key value
          else some (.exception, c)
      | .shrinkTable m old bucketCount capacity =>
          if allocated then c.tableShrunk keys m old bucketCount capacity
          else some (.exception, c)
      | .clearTable m old => if allocated then c.tableCleared m old else some (.exception, c)
      | .weakRecord _ t entryIndex bucket key => c.recordReady t entryIndex bucket key allocated

def step (c : WeakHeap κ ν) : WeakEvent κ ν → Option (Stepped κ ν)
  | .construct isWeak allocated => c.construct isWeak allocated
  | .set m key value => c.set keys m key value
  | .get m key => c.get keys m key
  | .delete m key => c.delete keys m key
  | .clear m => c.clear m
  | .keyDeath key => c.keyDeath key
  | .mapDeath m => c.mapDeath m
  | .tableDeath t => c.tableDeath t
  | .resume allocated => c.resume keys allocated

end Resume

end WeakHeap

end PrimJs.LinkedHashMap
