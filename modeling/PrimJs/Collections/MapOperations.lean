import PrimJs.Collections.MapRecords

/-! The operations on a collection. Wherever a key, a value or the result of a callback is
released, or a callback runs, other operations can come first: a frame holds what is left. -/

namespace PrimJs.JSMap

inductive JSIteratorKind where
  | key
  | value
  | keyAndValue
  deriving DecidableEq, Repr

/-- `JSMapIteratorData`. `attached` tells whether `obj` is still the collection. -/
structure JSMapIterator where
  attached : Bool
  kind : JSIteratorKind
  curRecord : Option RecordId
  deriving DecidableEq, Repr

inductive Frame where
  /-- `set` or `delete` releases the old key and value. -/
  | release
  /-- `clear` releases the key and the value of a record, with others staged behind it. -/
  | clear (mr : RecordId) (staged : List RecordId)
  /-- The callback of `forEach` runs. -/
  | forEachCall (mr : RecordId)
  /-- `forEach` releases the result of the callback, its next position taken already. -/
  | forEachResult (el : Option RecordId)
  /-- An iterator releases the collection. -/
  | iteratorObject
  /-- `reset_weak_ref` runs cleanup callbacks or releases a value, with records left to free. -/
  | keyDeath (mr : Option RecordId) (toFree : List RecordId)
  /-- `js_map_finalizer` releases the key and the value of a record. -/
  | finalizer (mr : RecordId) (next : Option RecordId)
  deriving DecidableEq, Repr

def Frame.holdsCollection : Frame → Bool
  | release | clear _ _ | forEachCall _ | forEachResult _ => true
  | iteratorObject | keyDeath _ _ | finalizer _ _ => false

/-- The references a frame holds. A staged record has its own and one of the frame. -/
def Frame.held : Frame → List RecordId
  | clear mr staged => mr :: (staged ++ staged)
  | forEachCall mr => [mr]
  | _ => []

/-- A collection with its iterators and the operations in progress, the innermost first. The
collection is no longer `live` from the start of its finalizer on. -/
structure Config (κ ν : Type) where
  store : JSMapState κ ν
  live : Bool
  iterators : List (Option JSMapIterator)
  frames : List Frame

inductive MapEvent (κ ν : Type) where
  | set (key : κ) (value : ν) (recordAllocated weakRefAllocated : Bool) (slack : Option Nat)
  | get (key : κ)
  | has (key : κ)
  | delete (key : κ)
  | size
  | clear
  | forEach
  | newIterator (kind : JSIteratorKind)
  | iteratorNext (i : Nat)
  | iteratorFinalizer (i : Nat)
  /-- `reset_weak_ref` of an object -/
  | keyDeath (key : κ)
  /-- `js_map_finalizer` -/
  | finalizer
  /-- The innermost operation goes on, after a callback that threw or not. -/
  | resume (threw : Bool)
  deriving DecidableEq, Repr

inductive Reply (κ ν : Type) where
  | done
  | value (v : Option ν)
  | flag (b : Bool)
  | size (n : Nat)
  | entry (key : Option κ) (value : Option ν)
  | exception
  /-- The operation does not exist or cannot happen here. -/
  | refused
  deriving DecidableEq, Repr

namespace Config

variable {κ ν : Type}

def initial (isWeak isSet : Bool) : Config κ ν where
  store := .initial isWeak isSet
  live := true
  iterators := []
  frames := []

abbrev Stepped (κ ν : Type) := Reply κ ν × Config κ ν

def refuse (c : Config κ ν) : Option (Stepped κ ν) := some (.refused, c)

section ForEach

/-- The loop of `js_map_forEach` up to the next call of the callback -/
def forEachFrom (c : Config κ ν) (el : Option RecordId) : Option (Stepped κ ν) := do
  let rest ← c.store.suffixFrom el
  let found ← c.store.firstNonEmpty rest
  match found with
  | none => some (.done, c)
  | some mr =>
      let store ← c.store.increment mr
      some (.done, { c with store := store, frames := .forEachCall mr :: c.frames })

def forEachReturned (c : Config κ ν) (mr : RecordId) (threw : Bool) :
    Option (Stepped κ ν) := do
  let el := JSMapState.nextOf c.store.records mr
  let store ← c.store.mapDecrefRecord mr
  if threw then some (.exception, { c with store := store })
  else some (.done, { c with store := store, frames := .forEachResult el :: c.frames })

end ForEach

section Clear

/-- The second loop of `js_map_clear`, up to the release of a record's key and value -/
def clearStaged (c : Config κ ν) : List RecordId → Option (Stepped κ ν)
  | [] => some (.done, c)
  | mr :: staged => do
      let store ← c.store.mapReleaseRecord mr
      some (.done, { c with store := store, frames := .clear mr staged :: c.frames })

def clearReleased (c : Config κ ν) (mr : RecordId) (staged : List RecordId) :
    Option (Stepped κ ν) := do
  let store ← c.store.mapDecrefRecord mr
  { c with store := store }.clearStaged staged

end Clear

section Iterators

def replyOf (kind : JSIteratorKind) (isSet : Bool) (mr : JSMapRecord κ ν) : Reply κ ν :=
  match kind, isSet with
  | .key, _ => .entry mr.key none
  | .value, true => .entry mr.key none
  | .value, false => .value mr.value
  | .keyAndValue, _ => .entry mr.key mr.value

/-- The position after the current record, which can be freed here -/
def advance (s : JSMapState κ ν) (curRecord : Option RecordId) :
    Option (Option RecordId × JSMapState κ ν) :=
  match curRecord with
  | none => some (s.records.head?, s)
  | some mr => do
      let el := JSMapState.nextOf s.records mr
      let s ← s.mapDecrefRecord mr
      some (el, s)

/-- `js_map_iterator_next` of an iterator that still has its collection -/
def iteratorAdvance (c : Config κ ν) (i : Nat) (it : JSMapIterator) :
    Option (Stepped κ ν) := do
  let (el, store) ← advance c.store it.curRecord
  let rest ← store.suffixFrom el
  let found ← store.firstNonEmpty rest
  match found with
  | none => some (.done, { c with
      store := store
      iterators := c.iterators.set i (some { it with attached := false, curRecord := none })
      frames := .iteratorObject :: c.frames })
  | some mr =>
      let record ← store.heap mr
      let store ← store.increment mr
      some (replyOf it.kind store.isSet record, { c with
        store := store
        iterators := c.iterators.set i (some { it with curRecord := some mr }) })

def leaveRecord (c : Config κ ν) (it : JSMapIterator) : Option (JSMapState κ ν) :=
  match it.curRecord with
  | some mr => if c.live then c.store.mapDecrefRecord mr else some c.store
  | none => some c.store

end Iterators

variable [DecidableEq κ] (keys : MapKeys κ)

section Access

def setNew (c : Config κ ν) (key : κ) (value : Option ν)
    (recordAllocated weakRefAllocated : Bool) (slack : Option Nat) :
    Option (Stepped κ ν) :=
  if recordAllocated = false then some (.exception, c)
  else if c.store.isWeak = true ∧ weakRefAllocated = false then some (.exception, c)
  else do
    let store ← c.store.mapAddRecord keys key value slack
    some (.done, { c with store := store })

/-- `js_map_set` -/
def set (c : Config κ ν) (key : κ) (value : ν)
    (recordAllocated weakRefAllocated : Bool) (slack : Option Nat) :
    Option (Stepped κ ν) :=
  if c.store.isWeak = true ∧ keys.isObject key = false then some (.exception, c)
  else do
    let value := if c.store.isSet then none else some value
    let found ← c.store.mapFindRecord keys key
    match found with
    | some r =>
        let mr ← c.store.heap r
        some (.done, { c with
          store := c.store.setRecord r { mr with value := value }
          frames := .release :: c.frames })
    | none => c.setNew keys key value recordAllocated weakRefAllocated slack

/-- `js_map_get` -/
def get (c : Config κ ν) (key : κ) : Option (Stepped κ ν) := do
  let found ← c.store.mapFindRecord keys key
  match found with
  | none => some (.value none, c)
  | some r =>
      let mr ← c.store.heap r
      some (.value mr.value, c)

/-- `js_map_has` -/
def has (c : Config κ ν) (key : κ) : Option (Stepped κ ν) := do
  let found ← c.store.mapFindRecord keys key
  some (.flag found.isSome, c)

/-- `js_map_delete`, with `map_delete_record` of a record that is not empty -/
def delete (c : Config κ ν) (key : κ) : Option (Stepped κ ν) := do
  let found ← c.store.mapFindRecord keys key
  match found with
  | none => some (.flag false, c)
  | some r =>
      let store ← c.store.mapDetachRecord keys r
      let store ← store.mapReleaseRecord r
      some (.flag true, { c with store := store, frames := .release :: c.frames })

end Access

section Finalizer

/-- `delete_weak_ref` of an entry of a weak collection -/
def dropEntry (s : JSMapState κ ν) (mr : JSMapRecord κ ν) (r : RecordId) :
    Option (JSMapState κ ν) :=
  match mr.key with
  | some key => s.dropWeakRef key r
  | none => none

/-- The loop of `js_map_finalizer` from a position, up to the next release. Empty records are
freed on the way. -/
def finalizeFrom (c : Config κ ν) : List RecordId → Option (Stepped κ ν)
  | [] => some (.done, c)
  | r :: rest => do
      let mr ← c.store.heap r
      if mr.empty then finalizeFrom { c with store := c.store.freeRecord r } rest
      else
        let store ← dropEntry c.store mr r
        some (.done, { c with store := store, frames := .finalizer r rest.head? :: c.frames })

def finalizerReleased (c : Config κ ν) (mr : RecordId) (el : Option RecordId) :
    Option (Stepped κ ν) := do
  let rest ← c.store.suffixFrom el
  let _ ← c.store.heap mr
  { c with store := c.store.freeRecord mr }.finalizeFrom rest

end Finalizer

section KeyDeath

/-- The third pass of `reset_weak_ref` -/
def freeDead (c : Config κ ν) : List RecordId → Option (Stepped κ ν)
  | [] => some (.done, c)
  | r :: toFree => do
      let _ ← c.store.heap r
      some (.done, { c with frames := .keyDeath (some r) toFree :: c.frames })

def keyDeathReleased (c : Config κ ν) (mr : Option RecordId) (toFree : List RecordId) :
    Option (Stepped κ ν) :=
  match mr with
  | none => c.freeDead toFree
  | some r => do
      let _ ← c.store.heap r
      { c with store := c.store.freeRecord r }.freeDead toFree

/-- The first pass of `reset_weak_ref`, then the cleanup callbacks of the second -/
def resetWeakRef (c : Config κ ν) (key : κ) : Option (Stepped κ ν) := do
  let dead := c.store.firstWeakRef key
  let store ← c.store.unlinkDead keys key dead
  some (.done, { c with
    store := { store with firstWeakRef := Function.update store.firstWeakRef key [] }
    frames := .keyDeath none dead :: c.frames })

end KeyDeath

def resume (c : Config κ ν) (threw : Bool) : Option (Stepped κ ν) :=
  match c.frames with
  | [] => c.refuse
  | frame :: frames =>
      let c := { c with frames := frames }
      match frame with
      | .release | .iteratorObject => some (.done, c)
      | .clear mr staged => c.clearReleased mr staged
      | .forEachCall mr => c.forEachReturned mr threw
      | .forEachResult el => c.forEachFrom el
      | .keyDeath mr toFree => c.keyDeathReleased mr toFree
      | .finalizer mr el => c.finalizerReleased mr el

def startFinalizer (c : Config κ ν) : Option (Stepped κ ν) :=
  if c.frames.any Frame.holdsCollection then c.refuse
  else do
    let c := { c with live := false }
    c.finalizeFrom c.store.records

/-- `clear`, `forEach` and iterators exist on `Map` and `Set` only. -/
def startClear (c : Config κ ν) : Option (Stepped κ ν) :=
  if c.store.isWeak then c.refuse
  else do
    let (staged, store) ← c.store.stageRecords keys c.store.records
    { c with store := store }.clearStaged staged

def startForEach (c : Config κ ν) : Option (Stepped κ ν) :=
  if c.store.isWeak then c.refuse else c.forEachFrom c.store.records.head?

def createIterator (c : Config κ ν) (kind : JSIteratorKind) : Option (Stepped κ ν) :=
  if c.store.isWeak then c.refuse
  else some (.done, { c with iterators := c.iterators ++ [some ⟨true, kind, none⟩] })

def getSize (c : Config κ ν) : Option (Stepped κ ν) :=
  if c.store.isWeak then c.refuse else some (.size c.store.recordCount, c)

def iteratorNext (c : Config κ ν) (i : Nat) : Option (Stepped κ ν) :=
  match c.iterators[i]?.join with
  | none => c.refuse
  | some it => if it.attached then c.iteratorAdvance i it else some (.done, c)

def iteratorFinalizer (c : Config κ ν) (i : Nat) : Option (Stepped κ ν) :=
  match c.iterators[i]?.join with
  | none => c.refuse
  | some it => do
      let store ← c.leaveRecord it
      some (.done, { c with
        store := store
        iterators := c.iterators.set i none
        frames := .iteratorObject :: c.frames })

/-- Nothing reaches a collection that is being finalized, except its iterators and its keys. -/
def step (c : Config κ ν) : MapEvent κ ν → Option (Stepped κ ν)
  | .set key value recordAllocated weakRefAllocated slack =>
      if c.live then c.set keys key value recordAllocated weakRefAllocated slack
      else c.refuse
  | .get key => if c.live then c.get keys key else c.refuse
  | .has key => if c.live then c.has keys key else c.refuse
  | .delete key => if c.live then c.delete keys key else c.refuse
  | .size => if c.live then c.getSize else c.refuse
  | .clear => if c.live then c.startClear keys else c.refuse
  | .forEach => if c.live then c.startForEach else c.refuse
  | .newIterator kind => if c.live then c.createIterator kind else c.refuse
  | .iteratorNext i => if c.live then c.iteratorNext i else c.refuse
  | .iteratorFinalizer i => c.iteratorFinalizer i
  | .keyDeath key => c.resetWeakRef keys key
  | .finalizer => if c.live then c.startFinalizer else c.refuse
  | .resume threw => c.resume threw

end Config

end PrimJs.JSMap
