import PrimJs.Bytecode.Bytes
import PrimJs.Foundation.WeightedMap

/-! `CacheBlob`: the in-memory image of one code cache file, with a budget for the bytecode it
holds, and the file itself. -/

namespace PrimJs

/-- A C `int` after an addition or a subtraction. -/
def wrapInt (v : Int) : Int := Int.bmod v (2 ^ 32)

structure CacheEntry where
  sourceHash : UInt64
  data : List UInt8
  usedTimes : Nat
  deriving DecidableEq, Repr

def CacheEntry.content (e : CacheEntry) : UInt64 × List UInt8 := (e.sourceHash, e.data)

/-- An `unordered_map`; its list order stands for the order of iteration. -/
abbrev EntryMap := AList fun _ : List UInt8 => CacheEntry

def entriesSize (entries : EntryMap) : Nat := mapSize (fun e => e.data.length) entries

def kMagic : Nat := 0x43434A50

def kFormatVersion : Nat := 2

def fnv1a64 (bytes : List UInt8) : UInt64 :=
  bytes.foldl (fun hash byte => (hash ^^^ byte.toUInt64) * 1099511628211) 14695981039346656037

structure CacheBlob where
  maxCapacity : Nat
  capacityInt : maxCapacity < 2 ^ 31
  entries : EntryMap
  currentSize : Int
  loaded : Bool
  loadResult : Bool
  dirty : Bool
  deriving DecidableEq

namespace CacheBlob

def new (maxCapacity : Nat) (capacityInt : maxCapacity < 2 ^ 31) : CacheBlob :=
  ⟨maxCapacity, capacityInt, ∅, 0, false, false, false⟩

/-- What `insert`, `remove` and the eviction do with an entry they have found. -/
def eraseEntry (B : CacheBlob) (filename : List UInt8) : CacheBlob :=
  match B.entries.lookup filename with
  | none => B
  | some old =>
      { B with
        currentSize := wrapInt (B.currentSize - old.data.length)
        entries := B.entries.erase filename
        dirty := true }

/-- The least used entry; among equals the largest one, and among these the first. -/
def victim : List (Σ _ : List UInt8, CacheEntry) → Option (List UInt8)
  | [] => none
  | first :: rest => some (rest.foldl (fun victim it =>
      if it.2.usedTimes < victim.2.usedTimes ∨
          it.2.usedTimes = victim.2.usedTimes ∧ it.2.data.length > victim.2.data.length then it
      else victim) first).1

def evict (length : Nat) : Nat → CacheBlob → CacheBlob
  | 0, B => B
  | fuel + 1, B =>
      if wrapInt (B.currentSize + length) > B.maxCapacity then
        match victim B.entries.entries with
        | none => { B with currentSize := 0 }
        | some filename => evict length fuel (B.eraseEntry filename)
      else B

def makeRoom (B : CacheBlob) (length : Nat) : Bool × CacheBlob :=
  if length > B.maxCapacity then (false, B)
  else (true, evict length (B.entries.entries.length + 1) B)

/-- `data` is `none` for a null pointer and `[]` for a length that is not positive. -/
def insert (B : CacheBlob) (filename : List UInt8) (sourceHash : UInt64) :
    Option (List UInt8) → Bool × CacheBlob
  | none => (false, B)
  | some [] => (false, B)
  | some data =>
      let (room, B) := (B.eraseEntry filename).makeRoom data.length
      if room then
        (true, { B with
          entries := B.entries.insert filename ⟨sourceHash, data, 1⟩
          currentSize := wrapInt (B.currentSize + data.length)
          dirty := true })
      else (false, B)

/-- The order of iteration that an entry gets here is undone by a `rehash`. -/
def find (B : CacheBlob) (filename : List UInt8) (sourceHash : UInt64) :
    Option (List UInt8) × CacheBlob :=
  match B.entries.lookup filename with
  | none => (none, B)
  | some entry =>
      if entry.sourceHash ≠ sourceHash then (none, B)
      else (some entry.data, { B with
        entries := B.entries.insert filename { entry with usedTimes := entry.usedTimes + 1 } })

def remove (B : CacheBlob) (filename : List UInt8) : CacheBlob := B.eraseEntry filename

end CacheBlob

section ReadEntries

/-- `fread` of exactly `count` bytes. -/
def fread (count : Nat) (file : List UInt8) : Option (List UInt8 × List UInt8) :=
  if count ≤ file.length then some (file.take count, file.drop count) else none

def freadU16 (file : List UInt8) : Option (Nat × List UInt8) :=
  (fread 2 file).map fun (bytes, rest) => (getU16 bytes 0, rest)

def freadU32 (file : List UInt8) : Option (Nat × List UInt8) :=
  (fread 4 file).map fun (bytes, rest) => (getU32 bytes 0, rest)

def freadU64 (file : List UInt8) : Option (UInt64 × List UInt8) :=
  (fread 8 file).map fun (bytes, rest) => (UInt64.ofNat (getU64 bytes 0), rest)

/-- What `read_entries` has built up; `dirty` says that it has set `dirty_`. -/
structure Loading where
  entries : EntryMap
  totalSize : Int
  dirty : Bool
  deriving DecidableEq

structure CacheRecord where
  name : List UInt8
  sourceHash : UInt64
  data : List UInt8
  deriving DecidableEq, Repr

/-- One entry of the file; `none` invalidates the whole file. -/
def readRecord (maxCapacity : Nat) (entries : EntryMap) (file : List UInt8) :
    Option (CacheRecord × List UInt8) := do
  let (nameLength, file) ← freadU16 file
  guard (nameLength ≠ 0)
  let (name, file) ← fread nameLength file
  guard (name ∉ entries)
  let (sourceHash, file) ← freadU64 file
  let (dataLength, file) ← freadU32 file
  guard (dataLength ≠ 0 ∧ dataLength ≤ maxCapacity)
  let (data, file) ← fread dataLength file
  let (checksum, file) ← freadU64 file
  guard (checksum = fnv1a64 data)
  return (⟨name, sourceHash, data⟩, file)

/-- A record that does not fit is dropped. -/
def Loading.accept (maxCapacity : Nat) (L : Loading) (r : CacheRecord) : Loading :=
  if wrapInt (L.totalSize + r.data.length) > maxCapacity then { L with dirty := true }
  else
    { L with
      totalSize := wrapInt (L.totalSize + r.data.length)
      entries := L.entries.insert r.name ⟨r.sourceHash, r.data, 0⟩ }

def readLoop (maxCapacity : Nat) : Nat → List UInt8 → Loading → Bool × Loading
  | _, [], L => (true, L)
  | 0, _, L => (false, L)
  | fuel + 1, file, L =>
      match readRecord maxCapacity L.entries file with
      | none => (false, L)
      | some (r, rest) => readLoop maxCapacity fuel rest (L.accept maxCapacity r)

def readHeader (file : List UInt8) : Option (List UInt8) := do
  let (magic, file) ← freadU32 file
  let (version, file) ← freadU32 file
  guard (magic = kMagic ∧ version = kFormatVersion)
  return file

def readEntries (maxCapacity : Nat) (file : List UInt8) : Bool × Loading :=
  match readHeader file with
  | none => (false, ⟨∅, 0, false⟩)
  | some rest => readLoop maxCapacity rest.length rest ⟨∅, 0, false⟩

end ReadEntries

/-- An entry inserted before the file was read is newer than the one of the file. -/
def mergeEntry (loaded : EntryMap × Int) (it : Σ _ : List UInt8, CacheEntry) : EntryMap × Int :=
  let stale := match loaded.1.lookup it.1 with
    | none => 0
    | some old => old.data.length
  (loaded.1.insert it.1 it.2, wrapInt (wrapInt (loaded.2 - stale) + it.2.data.length))

def writableName (name : List UInt8) : Bool := decide (name ≠ []) && decide (name.length ≤ 65535)

def writeRecord (it : Σ _ : List UInt8, CacheEntry) : List UInt8 :=
  u16Bytes it.1.length ++ it.1 ++ u64Bytes it.2.sourceHash.toNat ++ u32Bytes it.2.data.length ++
    it.2.data ++ u64Bytes (fnv1a64 it.2.data).toNat

namespace CacheBlob

/-- `file` is the content of the file, if it can be opened. -/
def input (B : CacheBlob) (file : Option (List UInt8)) : Bool × CacheBlob :=
  if B.loaded then (B.loadResult, B)
  else
    let B := { B with loaded := true }
    match file with
    | none => (false, B)
    | some bytes =>
        let (valid, L) := readEntries B.maxCapacity bytes
        if ¬ valid then (false, { B with dirty := true })
        else
          let (entries, size) := B.entries.entries.foldl mergeEntry (L.entries, L.totalSize)
          (true, { B with
            entries := entries
            currentSize := size
            loadResult := true
            dirty := B.dirty || L.dirty })

def serialize (B : CacheBlob) : List UInt8 :=
  u32Bytes kMagic ++ u32Bytes kFormatVersion ++
    (B.entries.entries.filter fun it => writableName it.1).flatMap writeRecord

end CacheBlob

/-- What the C library does while a file is written: whether the temporary file opens, how many
bytes get into it, whether it closes and whether it replaces the file. -/
structure FileWrite where
  opened : Bool
  written : Nat
  closed : Bool
  replaced : Bool
  deriving DecidableEq, Repr

/-- The file at `path_` before and after. -/
def writeFileAtomically (disk : Option (List UInt8)) (image : List UInt8) (w : FileWrite) :
    Bool × Option (List UInt8) :=
  if ¬ w.opened then (false, disk)
  else
    let temporary := image.take w.written
    let written := decide (temporary.length = image.length) && w.closed
    if ¬ written ∨ ¬ w.replaced then (false, disk) else (true, some temporary)

/-- A blob, its file, and the image of the `output` call that holds `publish_mutex_`. -/
structure CacheSystem where
  blob : CacheBlob
  disk : Option (List UInt8)
  publishing : Option (List UInt8)
  deriving DecidableEq

/-- The steps of the calls under `mutex_`, in the order in which they get it. `output` has two:
the snapshot and, after the disk write, the report. `rehash` is what the map may do between any
two calls. -/
inductive CacheOp where
  | insert (filename : List UInt8) (sourceHash : UInt64) (data : Option (List UInt8))
  | find (filename : List UInt8) (sourceHash : UInt64)
  | remove (filename : List UInt8)
  | input (opened : Bool)
  | beginOutput
  | endOutput (w : FileWrite)
  | rehash (order : EntryMap)
  deriving DecidableEq

inductive CacheResult where
  | done
  | returned (success : Bool)
  | found (out : Option (List UInt8))
  | blocked
  deriving DecidableEq, Repr

namespace CacheSystem

def new (maxCapacity : Nat) (capacityInt : maxCapacity < 2 ^ 31) (disk : Option (List UInt8)) :
    CacheSystem :=
  ⟨.new maxCapacity capacityInt, disk, none⟩

def beginOutput (s : CacheSystem) : CacheResult × CacheSystem :=
  match s.publishing with
  | some _ => (.blocked, s)
  | none =>
      if ¬ s.blob.dirty then (.returned true, s)
      else (.done, ⟨{ s.blob with dirty := false }, s.disk, some s.blob.serialize⟩)

def endOutput (s : CacheSystem) (w : FileWrite) : CacheResult × CacheSystem :=
  match s.publishing with
  | none => (.blocked, s)
  | some image =>
      let (written, disk) := writeFileAtomically s.disk image w
      if written then (.returned true, ⟨s.blob, disk, none⟩)
      else (.returned false, ⟨{ s.blob with dirty := true }, disk, none⟩)

def apply (s : CacheSystem) : CacheOp → CacheResult × CacheSystem
  | .insert filename sourceHash data =>
      let (success, blob) := s.blob.insert filename sourceHash data
      (.returned success, { s with blob := blob })
  | .find filename sourceHash =>
      let (out, blob) := s.blob.find filename sourceHash
      (.found out, { s with blob := blob })
  | .remove filename => (.done, { s with blob := s.blob.remove filename })
  | .input opened =>
      let (success, blob) := s.blob.input (if opened then s.disk else none)
      (.returned success, { s with blob := blob })
  | .beginOutput => s.beginOutput
  | .endOutput w => s.endOutput w
  | .rehash order =>
      if order.entries.Perm s.blob.entries.entries then
        (.done, { s with blob := { s.blob with entries := order } })
      else (.blocked, s)

end CacheSystem

end PrimJs
