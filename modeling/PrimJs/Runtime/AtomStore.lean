import Mathlib.Data.Int.Basic
import Mathlib.Logic.Function.Basic
import PrimJs.Runtime.NumString

/-! The runtime's atom table as it lies in memory, with reference counting. Strings are objects at
addresses; an atom is a string some slot of `atom_array` points to, and a free slot holds the next
one. The functions return `none` where the code reads what is not there or an assertion fails. -/

namespace PrimJs

/-- A `JSString`, its count apart; `atom_type` is 0 where the string is not an atom. -/
structure JSStringObject where
  str : JSString
  hash : Nat
  atomType : Nat
  hashNext : Nat
  deriving DecidableEq, Repr

inductive AtomSlot where
  | free (next : Nat)
  | atom (p : Nat)
  deriving DecidableEq, Repr

def jsAtomTypeSymbol : Nat := JSAtomType.symbol.number

def jsAtomIsConst (v : Nat) : Bool := v < jsAtomEnd || jsAtomTagInt ≤ v

structure AtomRuntime where
  strings : Nat → Option JSStringObject
  refCount : Nat → Nat
  nextString : Nat
  atomHash : List Nat
  atomArray : List AtomSlot
  atomFreeIndex : Nat
  atomCount : Nat
  atomCountResize : Nat

/-- Which allocations of an operation succeed. -/
structure Malloc where
  array : Bool
  nullEntry : Bool
  string : Bool
  hash : Bool
  deriving DecidableEq, Repr

namespace AtomRuntime

def setString (rt : AtomRuntime) (p : Nat) (o : JSStringObject) : AtomRuntime :=
  { rt with strings := Function.update rt.strings p (some o) }

def setRefCount (rt : AtomRuntime) (p : Nat) (n : Nat) : AtomRuntime :=
  { rt with refCount := Function.update rt.refCount p n }

def freeString (rt : AtomRuntime) (p : Nat) : AtomRuntime :=
  { rt with strings := Function.update rt.strings p none }

/-- `js_alloc_string_rt`, filled. -/
def allocString (rt : AtomRuntime) (str : JSString) : Nat × AtomRuntime :=
  (rt.nextString,
    { rt with
      strings := Function.update rt.strings rt.nextString (some ⟨str, 0, 0, 0⟩)
      refCount := Function.update rt.refCount rt.nextString 1
      nextString := rt.nextString + 1 })

/-- `rt->atom_array[i]` where it is an atom. -/
def atomAt (rt : AtomRuntime) (i : Nat) : Option (Nat × JSStringObject) :=
  match rt.atomArray[i]? with
  | some (.atom p) => (rt.strings p).map fun o => (p, o)
  | _ => none

def bucket (size h : Nat) : Nat := h &&& (size - 1)

def jsAtomHash (str : JSString) (atomType : Nat) : Nat := hashString str.codes atomType % 2 ^ 30

/-- The inner loop of `JS_ResizeAtomHash`: the chain from `h` goes to the new buckets. -/
def moveChain (newSize : Nat) :
    Nat → AtomRuntime → List Nat → Nat → Option (AtomRuntime × List Nat)
  | fuel, rt, newHash, h =>
      if h = 0 then some (rt, newHash)
      else match fuel with
        | 0 => none
        | fuel + 1 => do
            let (p, o) ← rt.atomAt h
            let j := bucket newSize o.hash
            let head ← newHash[j]?
            moveChain newSize fuel (rt.setString p { o with hashNext := head }) (newHash.set j h)
              o.hashNext

def moveChains (newSize fuel : Nat) :
    List Nat → AtomRuntime → List Nat → Option (AtomRuntime × List Nat)
  | [], rt, newHash => some (rt, newHash)
  | h :: rest, rt, newHash => do
      let (rt, newHash) ← moveChain newSize fuel rt newHash h
      moveChains newSize fuel rest rt newHash

def jsResizeAtomHash (rt : AtomRuntime) (newSize : Nat) (malloc : Bool) : Option AtomRuntime :=
  if newSize &&& (newSize - 1) ≠ 0 then none
  else if !malloc then some rt
  else do
    let (rt, newHash) ←
      moveChains newSize rt.atomArray.length rt.atomHash rt (List.replicate newSize 0)
    some { rt with atomHash := newHash, atomCountResize := newSize * 2 }

def atomIndexLoop (rt : AtomRuntime) (p : Nat) : Nat → Nat → Option Nat
  | 0, _ => none
  | fuel + 1, i => do
      let (q, o) ← rt.atomAt i
      if q = p then some i
      else if i = 0 then none
      else rt.atomIndexLoop p fuel o.hashNext

def jsGetAtomIndex (rt : AtomRuntime) (p : Nat) : Option Nat := do
  let o ← rt.strings p
  if o.atomType = jsAtomTypeSymbol then some o.hashNext
  else
    let i ← rt.atomHash[bucket rt.atomHash.length o.hash]?
    rt.atomIndexLoop p rt.atomArray.length i

/-- The loops that look for an atom: the first of the chain that `found` accepts, 0 if none. -/
def findLoop (rt : AtomRuntime) (found : JSStringObject → Bool) : Nat → Nat → Option Nat
  | fuel, i =>
      if i = 0 then some 0
      else match fuel with
        | 0 => none
        | fuel + 1 => do
            let (_, o) ← rt.atomAt i
            if found o then some i else rt.findLoop found fuel o.hashNext

def findInBucket (rt : AtomRuntime) (h : Nat) (found : JSStringObject → Bool) : Option Nat := do
  let i ← rt.atomHash[bucket rt.atomHash.length h]?
  rt.findLoop found rt.atomArray.length i

/-- The loop of `JS_FreeAtomStruct` past the head of the chain, from the atom before. -/
def unlinkLoop (rt : AtomRuntime) (p : Nat) : Nat → Nat → Option (Nat × AtomRuntime)
  | 0, _ => none
  | fuel + 1, i =>
      if i = 0 then none
      else do
        let (p0, o0) ← rt.atomAt i
        let (p1, o1) ← rt.atomAt o0.hashNext
        if p1 = p then
          some (o0.hashNext, rt.setString p0 { o0 with hashNext := o1.hashNext })
        else rt.unlinkLoop p fuel o0.hashNext

def unlinkAtom (rt : AtomRuntime) (p : Nat) (o : JSStringObject) : Option (Nat × AtomRuntime) :=
  if o.atomType = jsAtomTypeSymbol then some (o.hashNext, rt)
  else do
    let h0 := bucket rt.atomHash.length o.hash
    let i ← rt.atomHash[h0]?
    let (p1, o1) ← rt.atomAt i
    if p1 = p then some (i, { rt with atomHash := rt.atomHash.set h0 o1.hashNext })
    else rt.unlinkLoop p rt.atomArray.length i

def jsFreeAtomStruct (rt : AtomRuntime) (p : Nat) : Option AtomRuntime := do
  let o ← rt.strings p
  let (i, rt) ← rt.unlinkAtom p o
  if rt.atomCount = 0 then none
  else
    some { rt.freeString p with
      atomArray := rt.atomArray.set i (.free rt.atomFreeIndex)
      atomFreeIndex := i
      atomCount := rt.atomCount - 1 }

def jsFreeString (rt : AtomRuntime) (p : Nat) : Option AtomRuntime := do
  let o ← rt.strings p
  let rt := rt.setRefCount p (rt.refCount p - 1)
  if rt.refCount p ≤ 0 then
    if o.atomType ≠ 0 then rt.jsFreeAtomStruct p else some (rt.freeString p)
  else some rt

/-- `__JS_FreeAtom`. -/
def jsFreeAtomSlow (rt : AtomRuntime) (v : Nat) : Option AtomRuntime := do
  let (p, _) ← rt.atomAt v
  let rt := rt.setRefCount p (rt.refCount p - 1)
  if rt.refCount p > 0 then some rt else rt.jsFreeAtomStruct p

def lepusFreeAtom (rt : AtomRuntime) (v : Nat) : Option AtomRuntime :=
  if jsAtomIsConst v then some rt else rt.jsFreeAtomSlow v

def lepusDupAtom (rt : AtomRuntime) (v : Nat) : Option AtomRuntime :=
  if jsAtomIsConst v then some rt
  else do
    let (p, _) ← rt.atomAt v
    some (rt.setRefCount p (rt.refCount p + 1))

/-- `max_int(711, rt->atom_size * 3 / 2)`, in `int`. -/
def newAtomSize (size : Nat) : Nat := (max 711 ((Int.bmod (size * 3) (2 ^ 32)).tdiv 2)).toNat

/-- The new array: the entries that fit, and from `start` on a list of free ones. -/
def grownArray (old : List AtomSlot) (newSize : Nat) : List AtomSlot :=
  old.take newSize ++ (List.range' old.length (newSize - old.length)).map fun i =>
    .free (if i = newSize - 1 then 0 else i + 1)

/-- The `JS_ATOM_NULL` entry. -/
def allocNullEntry (rt : AtomRuntime) : AtomRuntime :=
  let (p, rt) := rt.allocString (.str8 [])
  { rt.setString p ⟨.str8 [], 0, jsAtomTypeSymbol, 0⟩ with
    atomArray := [.atom p]
    atomCount := rt.atomCount + 1 }

/-- The growth of `atom_array`; `false` is the jump to `fail`. -/
def growAtomArray (rt : AtomRuntime) (malloc : Malloc) : Bool × AtomRuntime :=
  let newSize := newAtomSize rt.atomArray.length
  if newSize > jsAtomMax || !malloc.array then (false, rt)
  else if rt.atomArray.length = 0 && !malloc.nullEntry then (false, rt)
  else
    let rt := if rt.atomArray.length = 0 then rt.allocNullEntry else rt
    (true, { rt with
      atomArray := grownArray rt.atomArray newSize
      atomFreeIndex := rt.atomArray.length })

def ensureFreeIndex (rt : AtomRuntime) (malloc : Malloc) : Bool × AtomRuntime :=
  if rt.atomFreeIndex = 0 then rt.growAtomArray malloc else (true, rt)

/-- The string that becomes the atom: `str` itself where it is no atom yet, else a copy. -/
def atomString (rt : AtomRuntime) (str : Option Nat) (malloc : Malloc) :
    Option (Option Nat × AtomRuntime) :=
  match str with
  | some p => do
      let o ← rt.strings p
      if o.atomType = 0 then some (some p, rt)
      else if !malloc.string then some (none, rt)
      else
        let (q, rt) := rt.allocString o.str
        let rt ← rt.jsFreeString p
        some (some q, rt)
  | none =>
      if !malloc.string then some (none, rt)
      else
        let (q, rt) := rt.allocString (.str16 [])
        some (some q, rt)

def takeFreeIndex (rt : AtomRuntime) (p h atomType : Nat) : Option (Nat × AtomRuntime) := do
  let i := rt.atomFreeIndex
  let o ← rt.strings p
  match rt.atomArray[i]? with
  | some (.free next) =>
      some (i, { rt.setString p { o with hash := h, hashNext := i, atomType := atomType } with
        atomFreeIndex := next
        atomArray := rt.atomArray.set i (.atom p)
        atomCount := rt.atomCount + 1 })
  | _ => none

def linkAtom (rt : AtomRuntime) (p h1 i : Nat) (malloc : Malloc) : Option AtomRuntime := do
  let o ← rt.strings p
  let head ← rt.atomHash[h1]?
  let rt := { rt.setString p { o with hashNext := head } with atomHash := rt.atomHash.set h1 i }
  if rt.atomCount ≥ rt.atomCountResize then
    rt.jsResizeAtomHash (rt.atomHash.length * 2) malloc.hash
  else some rt

/-- `fail`: the string is freed. -/
def failNewAtom (rt : AtomRuntime) (str : Option Nat) : Option (Nat × AtomRuntime) := do
  match str with
  | some p => do
      let rt ← rt.jsFreeString p
      some (jsAtomNull, rt)
  | none => some (jsAtomNull, rt)

/-- The string becomes the atom; only hashed ones are linked. -/
def placeAtom (rt : AtomRuntime) (p h h1 atomType : Nat) (malloc : Malloc) :
    Option (Nat × AtomRuntime) := do
  let (i, rt) ← rt.takeFreeIndex p h atomType
  if atomType = jsAtomTypeSymbol then some (i, rt)
  else
    let rt ← rt.linkAtom p h1 i malloc
    some (i, rt)

/-- `__JS_NewAtom` from the place where no such atom was found. -/
def addAtom (rt : AtomRuntime) (str : Option Nat) (h h1 atomType : Nat) (malloc : Malloc) :
    Option (Nat × AtomRuntime) :=
  match rt.ensureFreeIndex malloc with
  | (false, rt) => rt.failNewAtom str
  | (true, rt) => do
      match ← rt.atomString str malloc with
      | (none, rt) => rt.failNewAtom str
      | (some p, rt) => rt.placeAtom p h h1 atomType malloc

/-- `__JS_NewAtom` of a string or a registered symbol. -/
def jsNewHashedAtom (rt : AtomRuntime) (p atomType : Nat) (malloc : Malloc) :
    Option (Nat × AtomRuntime) := do
  let o ← rt.strings p
  if o.atomType = atomType then
    let i ← rt.jsGetAtomIndex p
    if jsAtomIsConst i then some (i, rt.setRefCount p (rt.refCount p - 1)) else some (i, rt)
  else
    let h := jsAtomHash o.str atomType
    let i ← rt.findInBucket h fun a =>
      a.hash = h && a.atomType = atomType && a.str.codes = o.str.codes
    if i = 0 then rt.addAtom (some p) h (bucket rt.atomHash.length h) atomType malloc
    else
      let rt ← rt.lepusDupAtom i
      let rt ← rt.jsFreeString p
      some (i, rt)

/-- `__JS_NewAtom`. The string of a symbol may be `NULL`. -/
def jsNewAtom (rt : AtomRuntime) (str : Option Nat) (atomType : JSAtomType) (malloc : Malloc) :
    Option (Nat × AtomRuntime) :=
  match atomType with
  | .symbol => rt.addAtom str 0 0 jsAtomTypeSymbol malloc
  | .priv => rt.addAtom str 1 0 jsAtomTypeSymbol malloc
  | atomType => do
      let p ← str
      rt.jsNewHashedAtom p atomType.number malloc

def jsNewAtomStr (rt : AtomRuntime) (p : Nat) (malloc : Malloc) : Option (Nat × AtomRuntime) := do
  let o ← rt.strings p
  match isNumString o.str.codes with
  | some n =>
      if n ≤ jsAtomMaxInt then do
        let rt ← rt.jsFreeString p
        some (jsAtomFromUInt32 n, rt)
      else rt.jsNewAtom (some p) .string malloc
  | none => rt.jsNewAtom (some p) .string malloc

/-- A string is made and passed on; `NULL` where it cannot be allocated. -/
def withNewString (rt : AtomRuntime) (str : JSString) (malloc : Bool)
    (make : AtomRuntime → Nat → Option (Nat × AtomRuntime)) : Option (Nat × AtomRuntime) :=
  if !malloc then some (jsAtomNull, rt)
  else
    let (p, rt) := rt.allocString str
    make rt p

def jsNewAtomInit (rt : AtomRuntime) (chars : List UInt8) (atomType : JSAtomType) (made : Bool)
    (malloc : Malloc) : Option (Nat × AtomRuntime) :=
  rt.withNewString (.str8 chars) made fun rt p => rt.jsNewAtom (some p) atomType malloc

/-- `__JS_FindAtom`: the bytes are compared with those of the 8-bit atoms. -/
def jsFindAtom (rt : AtomRuntime) (bytes : List UInt8) : Option (Nat × AtomRuntime) := do
  let h := hashString (bytes.map UInt8.toNat) JSAtomType.string.number % 2 ^ 30
  let i ← rt.findInBucket h fun a =>
    a.hash = h && a.atomType = JSAtomType.string.number && a.str = .str8 bytes
  if i = 0 then some (jsAtomNull, rt)
  else
    let rt ← rt.lepusDupAtom i
    some (i, rt)

/-- `js_raw_string_get_char` for the first `len` characters. -/
def rawCodes (bytes : List UInt8) (len : Nat) (isWideChar : Bool) : List Nat :=
  (List.range len).map fun i =>
    if isWideChar then bytes[2 * i]!.toNat + 256 * bytes[2 * i + 1]!.toNat else bytes[i]!.toNat

/-- The string `memcpy` makes of the bytes. -/
def rawString (bytes : List UInt8) (len : Nat) (isWideChar : Bool) : JSString :=
  if isWideChar then .str16 ((rawCodes bytes len true).map UInt16.ofNat)
  else .str8 ((rawCodes bytes len false).map UInt8.ofNat)

/-- `js_string_equals_raw`, whose `memcmp` is taken where both have one width. -/
def jsStringEqualsRaw (atom : JSString) (bytes : List UInt8) (len : Nat) (isWideChar : Bool) :
    Bool :=
  if atom.isWideChar = isWideChar then atom = rawString bytes len isWideChar
  else atom.codes = rawCodes bytes len isWideChar

/-- `__JS_FindRawAtom` of a string. -/
def jsFindRawAtom (rt : AtomRuntime) (bytes : List UInt8) (len : Nat) (isWideChar : Bool) :
    Option (Nat × AtomRuntime) := do
  let h := hashString (rawCodes bytes len isWideChar) JSAtomType.string.number % 2 ^ 30
  let i ← rt.findInBucket h fun a =>
    a.hash = h && a.atomType = JSAtomType.string.number && a.str.len = len &&
      jsStringEqualsRaw a.str bytes len isWideChar
  if i = 0 then some (jsAtomNull, rt)
  else
    let rt ← rt.lepusDupAtom i
    some (i, rt)

def startsNumeric (codes : List Nat) : Bool := (codes.head?.map isNum).getD false

def jsNewAtomRawString (rt : AtomRuntime) (bytes : List UInt8) (len : Nat) (isWideChar : Bool)
    (made : Bool) (malloc : Malloc) : Option (Nat × AtomRuntime) := do
  let (atom, rt) ←
    if startsNumeric (rawCodes bytes len isWideChar) then some (jsAtomNull, rt)
    else rt.jsFindRawAtom bytes len isWideChar
  if atom ≠ jsAtomNull then some (atom, rt)
  else
    rt.withNewString (rawString bytes len isWideChar) made fun rt p => rt.jsNewAtomStr p malloc

end AtomRuntime

/-- `unicode_from_utf8`: the character and the bytes after it; `none` is -1. -/
def unicodeFromUtf8 : List UInt8 → Option (Nat × List UInt8)
  | [] => none
  | first :: rest =>
      let c := first.toNat
      if c < 0x80 then some (c, rest)
      else if c < 0xc0 ∨ 0xfe ≤ c then none
      else
        let l := if c < 0xe0 then 1 else if c < 0xf0 then 2 else if c < 0xf8 then 3
          else if c < 0xfc then 4 else 5
        let follow := rest.take l
        if follow.length < l then none
        else if follow.any fun b => b < 0x80 || 0xc0 ≤ b then none
        else
          let c := follow.foldl (fun c b => c * 64 + b.toNat % 64) (c % 2 ^ (6 - l))
          if c < [0x80, 0x800, 0x10000, 0x200000, 0x4000000][l - 1]! then none
          else some (c, rest.drop l)

def skipInvalid (bytes : List UInt8) : List UInt8 :=
  let continues (b : UInt8) : Bool := 0x80 ≤ b && b < 0xc0
  match bytes.dropWhile continues with
  | [] => []
  | _ :: rest => rest.dropWhile continues

/-- The loop of `LEPUS_NewStringLen` over the bytes. -/
def decodeLoop : Nat → List UInt8 → List Nat
  | 0, _ => []
  | _ + 1, [] => []
  | fuel + 1, first :: rest =>
      if first < 128 then first.toNat :: decodeLoop fuel rest
      else match unicodeFromUtf8 (first :: rest) with
        | some (c, after) =>
            if c < 0x10000 then c :: decodeLoop fuel after
            else if c ≤ 0x10ffff then
              ((c - 0x10000) / 2 ^ 10 + 0xd800) :: ((c - 0x10000) % 2 ^ 10 + 0xdc00) ::
                decodeLoop fuel after
            else 0xfffd :: decodeLoop fuel (skipInvalid (first :: rest))
        | none => 0xfffd :: decodeLoop fuel (skipInvalid (first :: rest))

/-- `LEPUS_NewStringLen`: a wide string where some character needs it. -/
def lepusNewStringLen (bytes : List UInt8) : JSString :=
  let codes := decodeLoop bytes.length bytes
  if codes.all (· < 256) then .str8 (codes.map UInt8.ofNat) else .str16 (codes.map UInt16.ofNat)

namespace AtomRuntime

def lepusNewAtomLen (rt : AtomRuntime) (bytes : List UInt8) (made : Bool) (malloc : Malloc) :
    Option (Nat × AtomRuntime) := do
  let (atom, rt) ←
    if startsNumeric (bytes.map UInt8.toNat) then some (jsAtomNull, rt) else rt.jsFindAtom bytes
  if atom ≠ jsAtomNull then some (atom, rt)
  else rt.withNewString (lepusNewStringLen bytes) made fun rt p => rt.jsNewAtomStr p malloc

/-- `snprintf` with `"%u"`. -/
def unsignedChars (n : Nat) : List UInt8 := (decimal n).map UInt8.ofNat

/-- `snprintf` with `"%" PRId64`. -/
def signedChars (n : Int) : List UInt8 :=
  if n < 0 then 45 :: unsignedChars n.natAbs else unsignedChars n.toNat

def lepusNewAtomUInt32 (rt : AtomRuntime) (n : Nat) (made : Bool) (malloc : Malloc) :
    Option (Nat × AtomRuntime) :=
  if n ≤ jsAtomMaxInt then some (jsAtomFromUInt32 n, rt)
  else
    rt.withNewString (.str8 (unsignedChars n)) made fun rt p => rt.jsNewAtom (some p) .string malloc

def jsNewAtomInt64 (rt : AtomRuntime) (n : Int) (made : Bool) (malloc : Malloc) :
    Option (Nat × AtomRuntime) :=
  if 0 ≤ n ∧ n ≤ jsAtomMaxInt then some (jsAtomFromUInt32 n.toNat, rt)
  else
    rt.withNewString (.str8 (signedChars n)) made fun rt p => rt.jsNewAtom (some p) .string malloc

/-- `JS_NewSymbol`: the address of the symbol, which is the atom's string; `none` is the exception. -/
def jsNewSymbol (rt : AtomRuntime) (str : Option Nat) (atomType : JSAtomType) (malloc : Malloc) :
    Option (Option Nat × AtomRuntime) := do
  let (i, rt) ← rt.jsNewAtom str atomType malloc
  if i = jsAtomNull then some (none, rt)
  else
    let (p, _) ← rt.atomAt i
    some (some p, rt)

/-- The table before `JS_InitAtoms` makes the predefined atoms. -/
def initial : AtomRuntime where
  strings := fun _ => none
  refCount := fun _ => 0
  nextString := 0
  atomHash := List.replicate 512 0
  atomArray := []
  atomFreeIndex := 0
  atomCount := 0
  atomCountResize := 512 * 2

end AtomRuntime

end PrimJs
