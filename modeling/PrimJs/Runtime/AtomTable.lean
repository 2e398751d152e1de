import Mathlib.Tactic
import Mathlib.Data.List.Basic
import Mathlib.Data.List.Nodup

/-! The runtime's atom table. A `JSAtom` is its number. A bucket's `hash_next` chain and the
chain of free entries are kept as lists; strings are compared by their character codes,
whatever their width. -/

namespace PrimJs

def jsAtomTagInt : Nat := 2^31
def jsAtomMaxInt : Nat := jsAtomTagInt - 1
def jsAtomMax : Nat := 2^30 - 1
def jsAtomNull : Nat := 0
def jsAtomRaw : Nat := 110
def jsAtomPrivateBrand : Nat := 192
def jsAtomSymbolToPrimitive : Nat := 193
def jsAtomEnd : Nat := 206

inductive JSString where
  | str8 (chars : List UInt8)
  | str16 (chars : List UInt16)
  deriving DecidableEq, Repr

namespace JSString

def isWideChar : JSString → Bool
  | str8 _ => false
  | str16 _ => true

def codes : JSString → List Nat
  | str8 chars => chars.map UInt8.toNat
  | str16 chars => chars.map UInt16.toNat

def len (str : JSString) : Nat := str.codes.length

end JSString

inductive JSAtomType where
  | string | globalSymbol | symbol | priv
  deriving DecidableEq, Repr

def JSAtomType.number : JSAtomType → Nat
  | string => 1
  | globalSymbol => 2
  | symbol => 3
  | priv => 4

structure JSAtomStruct where
  str : JSString
  hash : Nat
  atomType : JSAtomType
  deriving DecidableEq, Repr

def hashString (codes : List Nat) (h : Nat) : Nat :=
  codes.foldl (fun h c => (h * 263 + c) % 2^32) h

def isNum (c : Nat) : Bool := 48 ≤ c && c ≤ 57

def isNumLoop : List Nat → Nat → Option Nat
  | [], n => some n
  | c :: rest, n =>
      if !isNum c then none
      else if n * 10 + (c - 48) ≥ 2^32 then none
      else isNumLoop rest (n * 10 + (c - 48))

def isNumString (codes : List Nat) : Option Nat :=
  match codes with
  | [] => none
  | c :: rest =>
      if codes.length > 10 then none
      else if !isNum c then none
      else if c = 48 then (if rest = [] then some 0 else none)
      else isNumLoop rest (c - 48)

def jsAtomIsTaggedInt (v : Nat) : Prop := jsAtomTagInt ≤ v

instance (v : Nat) : Decidable (jsAtomIsTaggedInt v) :=
  inferInstanceAs (Decidable (jsAtomTagInt ≤ v))

def jsAtomFromUInt32 (v : Nat) : Nat := v % jsAtomTagInt + jsAtomTagInt

def jsAtomToUInt32 (v : Nat) : Nat := v % jsAtomTagInt

structure AtomArray where
  atomHash : List (List Nat)
  atomArray : List (Option JSAtomStruct)
  atomFree : List Nat
  atomCount : Nat
  atomCountResize : Nat

namespace AtomArray

def Live (t : AtomArray) (i : Nat) : Prop := ∃ p, t.atomArray[i]? = some (some p)

def bucket (t : AtomArray) (h : Nat) : List Nat := t.atomHash[h % t.atomHash.length]?.getD []

def linkAtom (table : List (List Nat)) (h : Nat) (i : Nat) : List (List Nat) :=
  table.modify (h % table.length) (i :: ·)

def atomHashOf (t : AtomArray) (i : Nat) : Nat :=
  match t.atomArray[i]? with
  | some (some p) => p.hash
  | _ => 0

def linkAtoms (hash : Nat → Nat) (entries : List Nat) (table : List (List Nat)) :
    List (List Nat) :=
  entries.foldl (fun table i => linkAtom table (hash i) i) table

def jsResizeAtomHash (t : AtomArray) (newSize : Nat) : AtomArray :=
  { t with
    atomHash := linkAtoms t.atomHashOf t.atomHash.flatten (List.replicate newSize [])
    atomCountResize := newSize * 2 }

def matchesAtom (t : AtomArray) (h : Nat) (ty : JSAtomType) (codes : List Nat) (i : Nat) :
    Bool :=
  match t.atomArray[i]? with
  | some (some p) => p.hash = h && p.atomType = ty && p.str.codes = codes
  | _ => false

def jsFindAtom (t : AtomArray) (h : Nat) (ty : JSAtomType) (codes : List Nat) : Option Nat :=
  (t.bucket h).find? (t.matchesAtom h ty codes)

def nullEntry : JSAtomStruct := ⟨.str8 [], 0, .symbol⟩

/-- Entry 0 is `JS_ATOM_NULL` and never enters the free chain. -/
def oldEntries (t : AtomArray) : List (Option JSAtomStruct) :=
  if t.atomArray.length = 0 then [some nullEntry] else t.atomArray

def grownSize (t : AtomArray) : Nat := max 711 (t.atomArray.length * 3 / 2)

def growAtomArray (t : AtomArray) : Option AtomArray :=
  if t.grownSize > jsAtomMax then none
  else
    some { t with
      atomArray := t.oldEntries ++ List.replicate (t.grownSize - t.oldEntries.length) none
      atomFree := List.range' t.oldEntries.length (t.grownSize - t.oldEntries.length)
      atomCount := t.atomCount + (t.oldEntries.length - t.atomArray.length) }

def takeFreeEntry (t : AtomArray) (p : JSAtomStruct) : Option (Nat × AtomArray) :=
  match t.atomFree with
  | [] => none
  | i :: free =>
      some (i, { t with
        atomFree := free
        atomArray := t.atomArray.set i (some p)
        atomCount := t.atomCount + 1 })

def ensureFreeEntry (t : AtomArray) : Option AtomArray :=
  if t.atomFree = [] then t.growAtomArray else some t

def addAtom (t : AtomArray) (p : JSAtomStruct) : Option (Nat × AtomArray) :=
  t.ensureFreeEntry.bind (·.takeFreeEntry p)

def linkNewAtom (t : AtomArray) (i : Nat) (h : Nat) : AtomArray :=
  let t := { t with atomHash := linkAtom t.atomHash h i }
  if t.atomCount ≥ t.atomCountResize then t.jsResizeAtomHash (t.atomHash.length * 2) else t

def jsNewAtom (t : AtomArray) (str : JSString) (ty : JSAtomType) :
    Option (Nat × AtomArray) :=
  match ty with
  | .symbol => t.addAtom ⟨str, 0, .symbol⟩
  | .priv => t.addAtom ⟨str, 1, .symbol⟩
  | ty =>
      let h := hashString str.codes ty.number % 2^30
      match t.jsFindAtom h ty str.codes with
      | some i => some (i, t)
      | none => (t.addAtom ⟨str, h, ty⟩).map fun (i, t) => (i, t.linkNewAtom i h)

structure WellFormed (t : AtomArray) : Prop where
  hashPos : 0 < t.atomHash.length
  chainLive : ∀ chain ∈ t.atomHash, ∀ i ∈ chain, t.Live i
  freeNodup : t.atomFree.Nodup
  freeSlot : ∀ i ∈ t.atomFree, t.atomArray[i]? = some none
  sizeLe : t.atomArray.length ≤ jsAtomMax

structure Extends (old new : AtomArray) : Prop where
  kept : ∀ (i : Nat) (p : JSAtomStruct), old.atomArray[i]? = some (some p) → new.atomArray[i]? = some (some p)

variable {t : AtomArray} {i : Nat}

theorem Extends.rfl : t.Extends t := ⟨fun _ _ entry => entry⟩

theorem Extends.trans {a b c : AtomArray} (first : a.Extends b) (second : b.Extends c) :
    a.Extends c :=
  ⟨fun i p entry => second.kept i p (first.kept i p entry)⟩

theorem Extends.live {a b : AtomArray} (extends_ : a.Extends b) (live : a.Live i) : b.Live i := by
  obtain ⟨p, entry⟩ := live
  exact ⟨p, extends_.kept i p entry⟩

theorem linkAtom_length (table : List (List Nat)) (h : Nat) (i : Nat) :
    (linkAtom table h i).length = table.length := by
  simp [linkAtom]

theorem mem_linkAtom {table : List (List Nat)} {h : Nat} {j : Nat} {chain : List Nat}
    (member : chain ∈ linkAtom table h i) (inside : j ∈ chain) :
    j = i ∨ ∃ old ∈ table, j ∈ old := by
  obtain ⟨n, bound, rfl⟩ := List.getElem_of_mem member
  simp only [linkAtom, List.getElem_modify] at inside
  have inTable : table.get ⟨n, by simpa [linkAtom] using bound⟩ ∈ table := List.getElem_mem _
  split at inside
  · rcases List.mem_cons.mp inside with rfl | old
    · exact Or.inl rfl
    · exact Or.inr ⟨_, inTable, old⟩
  · exact Or.inr ⟨_, inTable, inside⟩

theorem matchesAtom_eq_true {h : Nat} {ty : JSAtomType} {codes : List Nat}
    (matched : t.matchesAtom h ty codes i = true) :
    ∃ p, t.atomArray[i]? = some (some p) ∧ p.atomType = ty ∧ p.str.codes = codes := by
  unfold matchesAtom at matched
  split at matched
  next p entry =>
    simp only [Bool.and_eq_true, decide_eq_true_eq] at matched
    exact ⟨p, entry, matched.1.2, matched.2⟩
  next => cases matched

theorem jsFindAtom_some {h : Nat} {ty : JSAtomType} {codes : List Nat}
    (found : t.jsFindAtom h ty codes = some i) :
    ∃ p, t.atomArray[i]? = some (some p) ∧ p.atomType = ty ∧ p.str.codes = codes :=
  matchesAtom_eq_true (List.find?_some found)

theorem linkAtoms_spec (hash : Nat → Nat) (entries : List Nat)
    (table : List (List Nat)) :
    (linkAtoms hash entries table).length = table.length ∧
      ∀ chain ∈ linkAtoms hash entries table,
        ∀ j ∈ chain, j ∈ entries ∨ ∃ old ∈ table, j ∈ old := by
  induction entries generalizing table with
  | nil => exact ⟨rfl, fun chain member j inside => Or.inr ⟨chain, member, inside⟩⟩
  | cons i rest ih =>
      obtain ⟨length, members⟩ := ih (linkAtom table (hash i) i)
      refine ⟨length.trans (linkAtom_length table (hash i) i), fun chain member j inside => ?_⟩
      rcases members chain member j inside with later | ⟨old, oldMember, inOld⟩
      · exact Or.inl (List.mem_cons_of_mem i later)
      · rcases mem_linkAtom oldMember inOld with rfl | earlier
        · exact Or.inl List.mem_cons_self
        · exact Or.inr earlier

theorem jsResizeAtomHash_wellFormed (wellFormed : t.WellFormed) {newSize : Nat}
    (positive : 0 < newSize) : (t.jsResizeAtomHash newSize).WellFormed := by
  obtain ⟨length, members⟩ :=
    linkAtoms_spec t.atomHashOf t.atomHash.flatten (List.replicate newSize [])
  refine ⟨?_, fun chain member i inside => ?_, wellFormed.freeNodup, wellFormed.freeSlot,
    wellFormed.sizeLe⟩
  · simpa [jsResizeAtomHash, length] using positive
  · rcases members chain member i inside with old | ⟨empty, emptyMember, inEmpty⟩
    · obtain ⟨oldChain, oldMember, inOld⟩ := List.mem_flatten.mp old
      exact wellFormed.chainLive oldChain oldMember i inOld
    · rw [List.eq_of_mem_replicate emptyMember] at inEmpty
      cases inEmpty

theorem oldEntries_kept {p : JSAtomStruct} (entry : t.atomArray[i]? = some (some p)) :
    t.oldEntries[i]? = some (some p) := by
  have bound := (List.getElem?_eq_some_iff.mp entry).1
  rw [oldEntries, if_neg (by omega)]
  exact entry

theorem oldEntries_length_le (t : AtomArray) : t.oldEntries.length ≤ t.grownSize := by
  unfold oldEntries grownSize
  split
  · simp only [List.length_singleton]
    omega
  · omega

section

variable (wellFormed : t.WellFormed)

include wellFormed

theorem growAtomArray_spec {grown : AtomArray} (run : t.growAtomArray = some grown) :
    grown.WellFormed ∧ t.Extends grown := by
  unfold growAtomArray at run
  split at run
  · cases run
  next small =>
    cases run
    have oldLe := t.oldEntries_length_le
    have extended : ∀ (i : Nat) (p : JSAtomStruct), t.atomArray[i]? = some (some p) →
        (t.oldEntries ++ List.replicate (t.grownSize - t.oldEntries.length) none)[i]? =
          some (some p) := by
      intro i p entry
      have kept := oldEntries_kept entry
      rw [List.getElem?_append_left (List.getElem?_eq_some_iff.mp kept).1]
      exact kept
    refine ⟨⟨wellFormed.hashPos, ?_, List.nodup_range', ?_, ?_⟩, ⟨extended⟩⟩
    · intro chain member i inside
      obtain ⟨p, entry⟩ := wellFormed.chainLive chain member i inside
      exact ⟨p, extended i p entry⟩
    · intro i member
      obtain ⟨offset, bound, rfl⟩ := List.mem_range'.mp member
      rw [List.getElem?_append_right (by omega), List.getElem?_replicate,
        if_pos (by omega)]
    · simp only [List.length_append, List.length_replicate]
      omega

theorem takeFreeEntry_spec {taken : AtomArray} {p : JSAtomStruct}
    (run : t.takeFreeEntry p = some (i, taken)) :
    taken.WellFormed ∧ t.Extends taken ∧ taken.atomArray[i]? = some (some p) := by
  unfold takeFreeEntry at run
  split at run
  · cases run
  next j free freeList =>
    obtain ⟨rfl, rfl⟩ := Prod.mk.inj (Option.some.inj run)
    have slot := wellFormed.freeSlot j (by simp [freeList])
    have bound := (List.getElem?_eq_some_iff.mp slot).1
    have nodup := wellFormed.freeNodup
    rw [freeList, List.nodup_cons] at nodup
    have kept : ∀ (k : Nat) (q : JSAtomStruct), t.atomArray[k]? = some (some q) →
        (t.atomArray.set j (some p))[k]? = some (some q) := by
      intro k q entry
      have distinct : j ≠ k := by
        rintro rfl
        rw [slot] at entry
        cases entry
      rw [List.getElem?_set_ne distinct]
      exact entry
    refine ⟨⟨wellFormed.hashPos, ?_, nodup.2, ?_, ?_⟩, ⟨kept⟩, by simp [bound]⟩
    · intro chain member k inside
      obtain ⟨q, entry⟩ := wellFormed.chainLive chain member k inside
      exact ⟨q, kept k q entry⟩
    · intro k member
      have distinct : j ≠ k := by
        rintro rfl
        exact nodup.1 member
      simp only [List.getElem?_set_ne distinct]
      exact wellFormed.freeSlot k (by simp [freeList, member])
    · simpa using wellFormed.sizeLe

theorem addAtom_spec {added : AtomArray} {p : JSAtomStruct} (run : t.addAtom p = some (i, added)) :
    added.WellFormed ∧ t.Extends added ∧ added.atomArray[i]? = some (some p) := by
  unfold addAtom at run
  obtain ⟨grown, growth, taken⟩ := Option.bind_eq_some_iff.mp run
  unfold ensureFreeEntry at growth
  split at growth
  · obtain ⟨grownWellFormed, grownExtends⟩ := growAtomArray_spec wellFormed growth
    obtain ⟨addedWellFormed, addedExtends, entry⟩ := takeFreeEntry_spec grownWellFormed taken
    exact ⟨addedWellFormed, grownExtends.trans addedExtends, entry⟩
  · cases growth
    exact takeFreeEntry_spec wellFormed taken

theorem linkNewAtom_spec (live : t.Live i) (h : Nat) :
    (t.linkNewAtom i h).WellFormed ∧ (t.linkNewAtom i h).atomArray = t.atomArray := by
  have linked : AtomArray.WellFormed { t with atomHash := linkAtom t.atomHash h i } := by
    refine ⟨?_, fun chain member j inside => ?_, wellFormed.freeNodup, wellFormed.freeSlot,
      wellFormed.sizeLe⟩
    · simpa [linkAtom_length] using wellFormed.hashPos
    · rcases mem_linkAtom member inside with rfl | ⟨old, oldMember, inOld⟩
      · exact live
      · exact wellFormed.chainLive old oldMember j inOld
  unfold linkNewAtom
  simp only
  split
  · exact ⟨jsResizeAtomHash_wellFormed linked (by have := linked.hashPos; simp at this ⊢; omega),
      rfl⟩
  · exact ⟨linked, rfl⟩

end

def storedType : JSAtomType → JSAtomType
  | .priv => .symbol
  | ty => ty

theorem jsNewAtom_spec {made : AtomArray} {str : JSString} {ty : JSAtomType}
    (wellFormed : t.WellFormed) (run : t.jsNewAtom str ty = some (i, made)) :
    made.WellFormed ∧ t.Extends made ∧
      ∃ p, made.atomArray[i]? = some (some p) ∧ p.atomType = storedType ty ∧
        p.str.codes = str.codes := by
  have hashed : ∀ ty, (match t.jsFindAtom (hashString str.codes ty.number % 2^30) ty str.codes with
      | some i => some (i, t)
      | none => (t.addAtom ⟨str, hashString str.codes ty.number % 2^30, ty⟩).map fun (i, t) =>
          (i, t.linkNewAtom i (hashString str.codes ty.number % 2^30))) = some (i, made) →
      made.WellFormed ∧ t.Extends made ∧
        ∃ p, made.atomArray[i]? = some (some p) ∧ p.atomType = ty ∧ p.str.codes = str.codes := by
    intro ty run
    split at run
    next j found =>
      obtain ⟨rfl, rfl⟩ := Prod.mk.inj (Option.some.inj run)
      exact ⟨wellFormed, .rfl, jsFindAtom_some found⟩
    next =>
      obtain ⟨⟨j, added⟩, adding, linked⟩ := Option.map_eq_some_iff.mp run
      obtain ⟨rfl, rfl⟩ := Prod.mk.inj linked
      obtain ⟨addedWellFormed, addedExtends, entry⟩ := addAtom_spec wellFormed adding
      obtain ⟨linkedWellFormed, same⟩ := linkNewAtom_spec addedWellFormed ⟨_, entry⟩
        (hashString str.codes ty.number % 2^30)
      refine ⟨linkedWellFormed, ⟨fun k q old => ?_⟩,
        ⟨str, hashString str.codes ty.number % 2^30, ty⟩, ?_, rfl, rfl⟩
      · rw [same]
        exact addedExtends.kept k q old
      · rw [same]
        exact entry
  cases ty with
  | string => exact hashed .string run
  | globalSymbol => exact hashed .globalSymbol run
  | symbol =>
      obtain ⟨madeWellFormed, extends_, entry⟩ := addAtom_spec wellFormed run
      exact ⟨madeWellFormed, extends_, _, entry, rfl, rfl⟩
  | priv =>
      obtain ⟨madeWellFormed, extends_, entry⟩ := addAtom_spec wellFormed run
      exact ⟨madeWellFormed, extends_, _, entry, rfl, rfl⟩

end AtomArray

/-- `js_atom_init`, in the order of `quickjs-atom.h`; atom numbers start at 1. -/
def jsAtomInit : List String :=
  ["null", "false", "true", "if", "else", "return", "var", "this", "delete", "void", "typeof",
   "new", "in", "instanceof", "do", "while", "for", "break", "continue", "switch", "case",
   "default", "throw", "try", "catch", "finally", "function", "debugger", "with", "class",
   "const", "enum", "export", "extends", "import", "super", "implements", "interface", "let",
   "package", "private", "protected", "public", "static", "yield", "await", "", "length",
   "fileName", "lineNumber", "message", "stack", "name", "toString", "toLocaleString", "valueOf",
   "eval", "prototype", "constructor", "configurable", "writable", "enumerable", "value", "get",
   "set", "of", "__proto__", "undefined", "number", "boolean", "string", "object", "symbol",
   "integer", "unknown", "arguments", "callee", "caller", "<eval>", "<ret>", "<var>", "<with>",
   "lastIndex", "target", "index", "input", "defineProperties", "apply", "join", "concat",
   "split", "construct", "getPrototypeOf", "setPrototypeOf", "isExtensible", "preventExtensions",
   "has", "deleteProperty", "defineProperty", "getOwnPropertyDescriptor", "ownKeys", "add",
   "done", "next", "values", "source", "flags", "global", "unicode", "raw", "new.target",
   "this.active_func", "<home_object>", "<computed_field>", "<static_computed_field>",
   "<class_fields_init>", "<brand>", "#constructor", "as", "from", "*default*", "*", "Module",
   "then", "resolve", "reject", "promise", "proxy", "revoke", "async", "exec", "groups", "status",
   "reason", "not-equal", "timed-out", "ok", "toJSON", "Object", "Array", "Error", "Number",
   "String", "Boolean", "Symbol", "Arguments", "Math", "JSON", "Date", "Function",
   "GeneratorFunction", "ForInIterator", "RegExp", "ArrayBuffer", "SharedArrayBuffer",
   "Uint8ClampedArray", "Int8Array", "Uint8Array", "Int16Array", "Uint16Array", "Int32Array",
   "Uint32Array", "Float32Array", "Float64Array", "DataView", "Map", "Set", "WeakMap", "WeakSet",
   "Map Iterator", "Set Iterator", "Array Iterator", "String Iterator", "RegExp String Iterator",
   "Generator", "Proxy", "Promise", "PromiseResolveFunction", "PromiseRejectFunction",
   "AsyncFunction", "AsyncFunctionResolve", "AsyncFunctionReject", "AsyncGeneratorFunction",
   "AsyncGenerator", "EvalError", "RangeError", "ReferenceError", "SyntaxError", "TypeError",
   "URIError", "InternalError", "<brand>", "Symbol.toPrimitive", "Symbol.iterator",
   "Symbol.match", "Symbol.matchAll", "Symbol.replace", "Symbol.search", "Symbol.split",
   "Symbol.toStringTag", "Symbol.isConcatSpreadable", "Symbol.hasInstance", "Symbol.species",
   "Symbol.unscopables", "Symbol.asyncIterator"]

def asciiString (text : String) : JSString :=
  .str8 (text.toUTF8.data.toList)

def predefinedAtom (i : Nat) : JSAtomStruct :=
  let str := asciiString (jsAtomInit[i - 1]?.getD "")
  if i = jsAtomNull then AtomArray.nullEntry
  else if i = jsAtomPrivateBrand then ⟨str, 1, .symbol⟩
  else if i ≥ jsAtomSymbolToPrimitive then ⟨str, 0, .symbol⟩
  else ⟨str, hashString str.codes JSAtomType.string.number % 2^30, .string⟩

@[irreducible] def initialHash : List (List Nat) :=
  AtomArray.linkAtoms (fun i => (predefinedAtom i).hash)
    (List.range' 1 (jsAtomPrivateBrand - 1)) (List.replicate 512 [])

/-- The table `JS_InitAtoms` leaves: the predefined strings differ from each other, so every
one of them takes the next free entry. -/
def jsInitAtoms : AtomArray where
  atomHash := initialHash
  atomArray := (List.range jsAtomEnd).map (fun i => some (predefinedAtom i)) ++
    List.replicate (711 - jsAtomEnd) none
  atomFree := List.range' jsAtomEnd (711 - jsAtomEnd)
  atomCount := jsAtomEnd
  atomCountResize := 512 * 2

theorem jsInitAtoms_entry {i : Nat} (bound : i < jsAtomEnd) :
    jsInitAtoms.atomArray[i]? = some (some (predefinedAtom i)) := by
  change ((List.range jsAtomEnd).map (fun i => some (predefinedAtom i)) ++ _)[i]? = _
  rw [List.getElem?_append_left (by rw [List.length_map, List.length_range]; exact bound),
    List.getElem?_map, List.getElem?_range bound, Option.map_some]

theorem initialHash_spec : initialHash.length = 512 ∧
    ∀ chain ∈ initialHash, ∀ i ∈ chain, i < jsAtomEnd := by
  obtain ⟨length, members⟩ := AtomArray.linkAtoms_spec (fun i => (predefinedAtom i).hash)
    (List.range' 1 (jsAtomPrivateBrand - 1)) (List.replicate 512 [])
  unfold initialHash
  refine ⟨length.trans List.length_replicate, fun chain member i inside => ?_⟩
  rcases members chain member i inside with predefined | ⟨empty, emptyMember, inEmpty⟩
  · obtain ⟨offset, bound, rfl⟩ := List.mem_range'.mp predefined
    clear members length
    simp only [jsAtomPrivateBrand, jsAtomEnd] at bound ⊢
    omega
  · rw [List.eq_of_mem_replicate emptyMember] at inEmpty
    cases inEmpty

theorem jsInitAtoms_wellFormed : jsInitAtoms.WellFormed := by
  have arrayLength : jsInitAtoms.atomArray.length = 711 := by
    change ((List.range jsAtomEnd).map (fun i => some (predefinedAtom i)) ++ _).length = _
    rw [List.length_append, List.length_map, List.length_range, List.length_replicate]
    rfl
  refine ⟨?_, fun chain member i inside => ?_, List.nodup_range', fun i member => ?_, ?_⟩
  · exact initialHash_spec.1.symm ▸ Nat.succ_pos 511
  · exact ⟨predefinedAtom i, jsInitAtoms_entry (initialHash_spec.2 chain member i inside)⟩
  · obtain ⟨offset, bound, rfl⟩ := List.mem_range'.mp member
    change ((List.range jsAtomEnd).map (fun i => some (predefinedAtom i)) ++ _)[_]? = _
    rw [List.getElem?_append_right (by rw [List.length_map, List.length_range]; omega),
      List.length_map, List.length_range, List.getElem?_replicate, if_pos (by omega)]
  · rw [arrayLength]
    decide

structure AtomTable extends AtomArray where
  wellFormed : toAtomArray.WellFormed
  predefined : ∀ i < jsAtomEnd, atomArray[i]? = some (some (predefinedAtom i))

namespace AtomTable

def initial : AtomTable := ⟨jsInitAtoms, jsInitAtoms_wellFormed, fun _ => jsInitAtoms_entry⟩

def extend (t : AtomTable) (made : AtomArray) (wellFormed : made.WellFormed)
    (kept : t.toAtomArray.Extends made) : AtomTable :=
  ⟨made, wellFormed, fun i bound => kept.kept i _ (t.predefined i bound)⟩

def newString (t : AtomTable) (str : JSString) : Option (Nat × AtomTable) :=
  match run : t.jsNewAtom str .string with
  | none => none
  | some (i, made) =>
      some (i, t.extend made (AtomArray.jsNewAtom_spec t.wellFormed run).1
        (AtomArray.jsNewAtom_spec t.wellFormed run).2.1)

/-- `JS_NewAtomStr` on a string that is not an atom yet. -/
def jsNewAtomStr (t : AtomTable) (str : JSString) : Option (Nat × AtomTable) :=
  match isNumString str.codes with
  | some n => if n ≤ jsAtomMaxInt then some (jsAtomFromUInt32 n, t) else t.newString str
  | none => t.newString str

def Valid (t : AtomTable) (a : Nat) : Prop := (jsAtomTagInt ≤ a ∧ a < 2^32) ∨ t.Live a

theorem Valid.mono {old new : AtomTable} {a : Nat} (valid : old.Valid a)
    (kept : old.toAtomArray.Extends new.toAtomArray) : new.Valid a :=
  valid.imp_right kept.live

theorem Valid.lt {t : AtomTable} {a : Nat} (valid : t.Valid a) : a < 2^32 := by
  rcases valid with tagged | ⟨p, entry⟩
  · exact tagged.2
  · have bound := (List.getElem?_eq_some_iff.mp entry).1
    have size := t.wellFormed.sizeLe
    simp only [jsAtomMax] at size
    omega

theorem predefined_valid (t : AtomTable) {a : Nat} (bound : a < jsAtomEnd) : t.Valid a :=
  Or.inr ⟨predefinedAtom a, t.predefined a bound⟩

theorem newString_spec {t made : AtomTable} {str : JSString} {i : Nat}
    (run : t.newString str = some (i, made)) :
    t.toAtomArray.Extends made.toAtomArray ∧
      ∃ p, made.atomArray[i]? = some (some p) ∧ p.atomType = .string ∧
        p.str.codes = str.codes := by
  unfold newString at run
  split at run
  next => cases run
  next j made' inner =>
    obtain ⟨-, kept, entry⟩ := AtomArray.jsNewAtom_spec t.wellFormed inner
    obtain ⟨rfl, rfl⟩ := Prod.mk.inj (Option.some.inj run)
    exact ⟨kept, entry⟩

theorem jsNewAtomStr_spec {t made : AtomTable} {str : JSString} {i : Nat}
    (run : t.jsNewAtomStr str = some (i, made)) :
    t.toAtomArray.Extends made.toAtomArray ∧ made.Valid i := by
  have added : t.newString str = some (i, made) →
      t.toAtomArray.Extends made.toAtomArray ∧ made.Valid i := by
    intro run
    obtain ⟨kept, p, entry, -⟩ := newString_spec run
    exact ⟨kept, Or.inr ⟨p, entry⟩⟩
  unfold jsNewAtomStr at run
  split at run
  · split at run
    · obtain ⟨rfl, rfl⟩ := Prod.mk.inj (Option.some.inj run)
      refine ⟨.rfl, Or.inl ?_⟩
      simp only [jsAtomFromUInt32, jsAtomTagInt]
      omega
    · exact added run
  · exact added run

/-- The string a property key denotes; a tagged integer stands for its decimal digits. -/
def keyCodes (t : AtomTable) (a : Nat) : List Nat :=
  if jsAtomIsTaggedInt a then (Nat.toDigits 10 (jsAtomToUInt32 a)).map Char.toNat
  else match t.atomArray[a]? with
    | some (some p) => p.str.codes
    | _ => []

end AtomTable

end PrimJs
