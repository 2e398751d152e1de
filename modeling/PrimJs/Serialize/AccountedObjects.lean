import PrimJs.Serialize.AccountedReader

/-! The values around the functions, and what a failed read leaves behind. -/

namespace PrimJs.Accounted

open Accounting StateReader

variable {readRec : BCAcquire Held}

section Strings

def jsReadString : BCAcquire Held := do
  let encodedLen ← lift bcGetLeb128
  let len := encodedLen / 2
  lift (require (len ≤ jsStringLenMax) .outOfMemory)
  match ← lepusMallocz with
  | none => fail .outOfMemory
  | some id => do
      let _ ← onFail (lift (bcTake (stringSize (encodedLen % 2 = 1) len))) (lepusFree (some id))
      pure (Held.ofBlock id)

/-- The limbs of a BigInt, the tail of the plain `jsReadBigInt`. -/
def readLimbs (limbBytes len : Nat) : BCRead (List Nat) := do
  let limbs ← readN (len / limbBytes) (bcGetLimb limbBytes)
  if len % limbBytes ≠ 0 then do
    let last ← readPartialLimb limbBytes (len % limbBytes)
    pure (limbs ++ [last])
  else pure limbs

def loseLimbs (id : Nat) : BCAcquire Unit := lose .bigIntLimbs {.block id}

theorem settles_loseLimbs (id : Nat) : Settles {.block id} (loseLimbs id) fun _ => 0 :=
  settles_lose _ _

def jsReadBigInt : BCAcquire Held := do
  let s ← get
  let limbBytes := s.state.ctx.layout.limbBytes
  let len ← lift bcGetLeb128
  lift (require (((len + 2^32 - 1) % 2^32) / limbBytes + 1 ≤ jsBigintMaxSize limbBytes)
    .bigIntTooLarge)
  match ← lepusMallocz with
  | none => fail .outOfMemory
  | some id => do
      -- the number is not yet in the value that the failure frees
      let _ ← onFail (lift (readLimbs limbBytes len)) (loseLimbs id)
      pure (Held.ofBlock id)

theorem accounts_jsReadString : Accounts 0 jsReadString Held.owned := by
  refine (accounts_lift _).bind fun encodedLen => ?_
  refine (accounts_lift _).bind fun _ => ?_
  refine settles_lepusMallocz.accounts.bind fun block => ?_
  cases block with
  | none => exact accounts_fail _
  | some id =>
      exact ((accounts_lift _).guarded (settles_lepusFree (some id))).bind fun _ =>
        accounts_pure (add_zero _)

theorem accounts_jsReadBigInt : Accounts 0 jsReadBigInt Held.owned := by
  refine settles_get.accounts.bind fun s => ?_
  refine (accounts_lift _).bind fun len => ?_
  refine (accounts_lift _).bind fun _ => ?_
  refine settles_lepusMallocz.accounts.bind fun block => ?_
  cases block with
  | none => exact accounts_fail _
  | some id =>
      exact ((accounts_lift _).guarded (settles_loseLimbs id)).bind fun _ =>
        accounts_pure (add_zero _)

end Strings

section Modules

/-- One of a module's tables: its count, its allocation and the names stored in it. -/
structure ModuleTable where
  count : Int
  block : Option Nat
  names : List Nat

namespace ModuleTable

def empty : ModuleTable := ⟨0, none, []⟩

def owned (t : ModuleTable) : Multiset Resource := atomRefs t.names + blockRef t.block

/-- The table is walked up to its count; the entries not yet read have no names. -/
def free (t : ModuleTable) : BCAcquire Unit :=
  if 0 < t.count ∧ t.block = none then throw .outside
  else do
    freeAtoms t.names
    lepusFree t.block

theorem settles_free (t : ModuleTable) : Settles t.owned t.free fun _ => 0 := by
  unfold free
  split
  · exact settles_outside
  · exact (settles_freeAtoms _).andThen (settles_lepusFree _)

end ModuleTable

structure ModuleBlock where
  block : Nat
  moduleName : Nat
  req : ModuleTable
  exports : ModuleTable
  /-- The table of star exports, which has no names and is not walked. -/
  starExports : Option Nat
  imports : ModuleTable

namespace ModuleBlock

def owned (m : ModuleBlock) : Multiset Resource :=
  atomRef m.moduleName + (m.req.owned + (m.exports.owned + (blockRef m.starExports +
    (m.imports.owned + {.block m.block}))))

/-- `js_free_module_def` on a module without a function. -/
def jsFreeModuleDef (m : ModuleBlock) : BCAcquire Unit := do
  freeAtom m.moduleName
  m.req.free
  m.exports.free
  lepusFree m.starExports
  m.imports.free
  lepusFree (some m.block)

theorem settles_jsFreeModuleDef (m : ModuleBlock) :
    Settles m.owned m.jsFreeModuleDef fun _ => 0 :=
  (settles_freeAtom _).andThen <| m.req.settles_free.andThen <| m.exports.settles_free.andThen <|
    (settles_lepusFree _).andThen <| m.imports.settles_free.andThen (settles_lepusFree (some _))

/-- A module that was read, with its function. Releasing it gives up one of two references, and
the list of loaded modules keeps the other. -/
def toHeld (m : ModuleBlock) (funcObj : Held) : Held where
  isUndefined := false
  closureVar := []
  owned := m.owned + funcObj.owned
  free := lose .loadedModule (m.owned + funcObj.owned)
  settles := settles_lose _ _
  undefined_owned := fun never => absurd never (by decide)

theorem accounts_orFree {α : Type} {read : BCAcquire α} {own : α → Multiset Resource}
    (accounts : Accounts 0 read own) (m : ModuleBlock) :
    Accounts m.owned (onFail read m.jsFreeModuleDef) fun a => m.owned + own a :=
  accounts.guarded m.settles_jsFreeModuleDef

theorem accounts_liftOrFree {α : Type} (read : BCRead α) (m : ModuleBlock) :
    Accounts m.owned (onFail (lift read) m.jsFreeModuleDef) fun _ => m.owned :=
  (accounts_orFree (accounts_lift read) m).congr rfl fun _ => add_zero _

end ModuleBlock

/-- A table's place in a module that is otherwise settled. -/
structure TableSlot where
  put : ModuleTable → ModuleBlock
  kept : Multiset Resource
  owned_put : ∀ t, (put t).owned = kept + t.owned

/-- The count of a table and its allocation, made for every count but zero. -/
def readTableBlock (put : Int → Option Nat → ModuleBlock) : BCAcquire (Int × Option Nat) := do
  let count ← onFail (lift bcGetLeb128Int) (put 0 none).jsFreeModuleDef
  if count = 0 then pure (0, none)
  else do
    match ← lepusMalloczSized count with
    | none => failAfter (put count none).jsFreeModuleDef .outOfMemory
    | some id => pure (count, some id)

theorem accounts_readTableBlock {put : Int → Option Nat → ModuleBlock} {kept : Multiset Resource}
    (owned_put : ∀ count block, (put count block).owned = kept + blockRef block) :
    Accounts kept (readTableBlock put) fun table => kept + blockRef table.2 := by
  have empty : (put 0 none).owned = kept := (owned_put 0 none).trans (add_zero kept)
  have counted := ModuleBlock.accounts_liftOrFree bcGetLeb128Int (put 0 none)
  refine (counted.congr empty.symm fun _ => empty).bind fun count => ?_
  split
  · exact accounts_pure (add_zero kept).symm
  · refine ((settles_lepusMalloczSized count).beside kept).accounts.bind fun block => ?_
    cases block with
    | none =>
        rw [← owned_put count none]
        exact accounts_failAfter _ (put count none).settles_jsFreeModuleDef
    | some id => exact accounts_pure rfl

/-- Reads an entry's fields onto the names of its table; a failure frees the module with the names
read so far. -/
abbrev EntryReader := (List Nat → BCAcquire Unit) → List Nat → BCAcquire (List Nat)

def readName : EntryReader := fun free names => do
  let atom ← onFail acquireAtom (free names)
  pure (names ++ [atom])

def readIndex : EntryReader := fun free names => do
  let _ ← onFail (lift bcGetLeb128Int) (free names)
  pure names

def reqEntry : EntryReader := readName

def exportEntry : EntryReader := fun free names => do
  let exportType ← onFail (lift bcGetU8) (free names)
  let names ← readIndex free names
  if exportType = jsExportTypeLocal then readName free names
  else do
    let names ← readName free names
    readName free names

def importEntry : EntryReader := fun free names => do
  let names ← readIndex free names
  let names ← readName free names
  readIndex free names

def readEntries (entry : EntryReader) (free : List Nat → BCAcquire Unit) :
    Nat → List Nat → BCAcquire (List Nat)
  | 0, names => pure names
  | n + 1, names => do
      let names ← entry free names
      readEntries entry free n names

def readTable (entry : EntryReader) (slot : TableSlot) : BCAcquire ModuleTable := do
  let (count, block) ← readTableBlock fun count block => slot.put ⟨count, block, []⟩
  let names ← readEntries entry (fun names => (slot.put ⟨count, block, names⟩).jsFreeModuleDef)
    count.toNat []
  pure ⟨count, block, names⟩

section Entries

variable {kept : Multiset Resource} {free : List Nat → BCAcquire Unit}

/-- An entry adds its names to a table whose module `free` frees. -/
def Extends (entry : EntryReader) : Prop :=
  ∀ (kept : Multiset Resource) (free : List Nat → BCAcquire Unit),
    (∀ names, Settles (kept + atomRefs names) (free names) fun _ => 0) →
      ∀ names, Accounts (kept + atomRefs names) (entry free names)
        fun names => kept + atomRefs names

theorem extends_readName : Extends readName := by
  intro kept free settles names
  refine (accounts_acquireAtom.guarded (settles names)).bind fun atom => ?_
  refine accounts_pure ?_
  rw [atomRefs_append, atomRefs_cons, atomRefs_nil, add_zero, add_assoc]

theorem extends_readIndex : Extends readIndex := by
  intro kept free settles names
  exact ((accounts_lift bcGetLeb128Int).guarded (settles names)).bind fun _ =>
    accounts_pure (add_zero _)

theorem extends_exportEntry : Extends exportEntry := by
  intro kept free settles names
  have typed := ((accounts_lift bcGetU8).guarded (settles names)).congr rfl fun _ => add_zero _
  refine typed.bind fun exportType => ?_
  refine (extends_readIndex kept free settles names).bind fun names => ?_
  split
  · exact extends_readName kept free settles names
  · exact (extends_readName kept free settles names).bind fun names =>
      extends_readName kept free settles names

theorem extends_importEntry : Extends importEntry := by
  intro kept free settles names
  refine (extends_readIndex kept free settles names).bind fun names => ?_
  exact (extends_readName kept free settles names).bind fun names =>
    extends_readIndex kept free settles names

theorem accounts_readEntries {entry : EntryReader} (extends_ : Extends entry)
    (settles : ∀ names, Settles (kept + atomRefs names) (free names) fun _ => 0) (n : Nat) :
    ∀ names, Accounts (kept + atomRefs names) (readEntries entry free n names)
      fun names => kept + atomRefs names := by
  induction n with
  | zero => exact fun names => accounts_pure rfl
  | succ n ih => exact fun names => (extends_ kept free settles names).bind fun names => ih names

theorem accounts_readTable {entry : EntryReader} (extends_ : Extends entry) (slot : TableSlot) :
    Accounts slot.kept (readTable entry slot) fun t => (slot.put t).owned := by
  have empty : ∀ count block, (slot.put ⟨count, block, []⟩).owned = slot.kept + blockRef block :=
    fun count block => (slot.owned_put _).trans (congrArg (slot.kept + ·) (zero_add _))
  refine (accounts_readTableBlock empty).bind fun table => ?_
  obtain ⟨count, block⟩ := table
  have same : ∀ names, (slot.put ⟨count, block, names⟩).owned =
      slot.kept + blockRef block + atomRefs names := fun names => by
    rw [slot.owned_put, ModuleTable.owned, add_assoc, add_comm (blockRef block)]
  have settles : ∀ names, Settles (slot.kept + blockRef block + atomRefs names)
      (slot.put ⟨count, block, names⟩).jsFreeModuleDef fun _ => 0 := fun names =>
    same names ▸ (slot.put ⟨count, block, names⟩).settles_jsFreeModuleDef
  have entries := accounts_readEntries extends_ settles count.toNat []
  refine (entries.congr (add_zero _).symm fun _ => rfl).bind fun names => ?_
  exact accounts_pure (same names).symm

end Entries

/-- The table of star exports; its entries are indices only. -/
def readStarExports (put : Option Nat → ModuleBlock) : BCAcquire (Option Nat) := do
  let (count, block) ← readTableBlock fun _ block => put block
  let _ ← onFail (lift (readN count.toNat bcGetLeb128Int)) (put block).jsFreeModuleDef
  pure block

theorem accounts_readStarExports {put : Option Nat → ModuleBlock} {kept : Multiset Resource}
    (owned_put : ∀ block, (put block).owned = kept + blockRef block) :
    Accounts kept (readStarExports put) fun block => kept + blockRef block := by
  refine (accounts_readTableBlock fun _ block => owned_put block).bind fun table => ?_
  obtain ⟨count, block⟩ := table
  dsimp only
  rw [← owned_put block]
  exact (ModuleBlock.accounts_liftOrFree _ (put block)).bind fun _ =>
    accounts_pure (owned_put block)

section Slots

variable (block moduleName : Nat)

def reqSlot : TableSlot where
  put t := ⟨block, moduleName, t, .empty, none, .empty⟩
  kept := atomRef moduleName + {.block block}
  owned_put t := by
    simp only [ModuleBlock.owned, ModuleTable.owned, ModuleTable.empty, atomRefs_nil,
      blockRef_none, zero_add, add_zero]
    ac_rfl

def exportSlot (req : ModuleTable) : TableSlot where
  put t := ⟨block, moduleName, req, t, none, .empty⟩
  kept := ((reqSlot block moduleName).put req).owned
  owned_put t := by
    simp only [reqSlot, ModuleBlock.owned, ModuleTable.owned, ModuleTable.empty, atomRefs_nil,
      blockRef_none, zero_add, add_zero]
    ac_rfl

def importSlot (req exports : ModuleTable) (starExports : Option Nat) : TableSlot where
  put t := ⟨block, moduleName, req, exports, starExports, t⟩
  kept := ((exportSlot block moduleName req).put exports).owned + blockRef starExports
  owned_put t := by
    simp only [exportSlot, ModuleBlock.owned, ModuleTable.owned, ModuleTable.empty, atomRefs_nil,
      blockRef_none, zero_add, add_zero]
    ac_rfl

end Slots

/-- A failure first releases the value's reference to the module, then frees the module. -/
def jsReadModule (readRec : BCAcquire Held) : BCAcquire Held := do
  let s ← get
  lift (require (s.state.allowBytecode = true) .rejected)
  let moduleName ← acquireAtom
  match ← lepusMallocz with
  | none => failAfter (freeAtom moduleName) .outOfMemory
  | some block => do
      let req ← readTable reqEntry (reqSlot block moduleName)
      let exports ← readTable exportEntry (exportSlot block moduleName req)
      let starExports ← readStarExports fun starExports =>
        (importSlot block moduleName req exports starExports).put .empty
      let imports ← readTable importEntry (importSlot block moduleName req exports starExports)
      let m := (importSlot block moduleName req exports starExports).put imports
      let funcObj ← onFail readRec m.jsFreeModuleDef
      pure (m.toHeld funcObj)

theorem accounts_jsReadModule (reads : Accounts 0 readRec Held.owned) :
    Accounts 0 (jsReadModule readRec) Held.owned := by
  refine settles_get.accounts.bind fun s => ?_
  refine (accounts_lift _).bind fun _ => ?_
  refine accounts_acquireAtom.bind fun moduleName => ?_
  refine (settles_lepusMallocz.beside _).accounts.bind fun allocated => ?_
  cases allocated with
  | none =>
      rw [blockRef_none, add_zero]
      exact accounts_failAfter _ (settles_freeAtom moduleName)
  | some block =>
      refine (accounts_readTable extends_readName (reqSlot block moduleName)).bind fun req => ?_
      refine (accounts_readTable extends_exportEntry
        (exportSlot block moduleName req)).bind fun exports => ?_
      refine (accounts_readStarExports fun starExports =>
        ((importSlot block moduleName req exports starExports).owned_put .empty).trans
          (add_zero _)).bind fun starExports => ?_
      refine (accounts_readTable extends_importEntry
        (importSlot block moduleName req exports starExports)).bind fun imports => ?_
      exact (ModuleBlock.accounts_orFree reads _).bind fun funcObj => accounts_pure rfl

end Modules

section Objects

def freeObject (id : Nat) (props : List (Nat × Held)) : BCAcquire Unit := do
  freeAtoms (props.map Prod.fst)
  Held.freeAll (props.map Prod.snd)
  lepusFree (some id)

def objectOwned (id : Nat) (props : List (Nat × Held)) : Multiset Resource :=
  atomRefs (props.map Prod.fst) + (Held.ownedAll (props.map Prod.snd) + {.block id})

theorem settles_freeObject (id : Nat) (props : List (Nat × Held)) :
    Settles (objectOwned id props) (freeObject id props) fun _ => 0 :=
  (settles_freeAtoms _).andThen ((Held.settles_freeAll _).andThen (settles_lepusFree (some id)))

/-- The value a property had, and the properties with its new value. -/
def redefine : List (Nat × Held) → Nat → Held → Option (Held × List (Nat × Held))
  | [], _, _ => none
  | (a, v) :: props, atom, val =>
      if a = atom then some (v, (a, val) :: props)
      else (redefine props atom val).map fun changed => (changed.1, (a, v) :: changed.2)

theorem redefine_owned {props changed : List (Nat × Held)} {atom : Nat} {val old : Held}
    (found : redefine props atom val = some (old, changed)) (id : Nat) :
    objectOwned id props + val.owned = objectOwned id changed + old.owned := by
  have values : changed.map Prod.fst = props.map Prod.fst ∧
      Held.ownedAll (props.map Prod.snd) + val.owned =
        Held.ownedAll (changed.map Prod.snd) + old.owned := by
    induction props generalizing changed with
    | nil => cases found
    | cons prop props ih =>
        obtain ⟨a, v⟩ := prop
        unfold redefine at found
        split at found
        next same =>
          obtain ⟨rfl, rfl⟩ := Prod.mk.inj (Option.some.inj found)
          refine ⟨rfl, ?_⟩
          simp only [List.map_cons, Held.ownedAll_cons]
          ac_rfl
        next other =>
          obtain ⟨⟨old', changed'⟩, later, same⟩ := Option.map_eq_some_iff.mp found
          obtain ⟨rfl, rfl⟩ := Prod.mk.inj same
          obtain ⟨names, rest⟩ := ih later
          refine ⟨congrArg (a :: ·) names, ?_⟩
          simp only [List.map_cons, Held.ownedAll_cons, add_assoc]
          rw [rest]
  unfold objectOwned
  rw [values.1, add_assoc, add_right_comm _ _ val.owned, values.2]
  ac_rfl

def freeUndefined (id : Nat) (props : List (Nat × Held)) (atom : Nat) (val : Held) :
    BCAcquire Unit := do
  val.free
  freeAtom atom
  freeObject id props

theorem settles_freeUndefined (id : Nat) (props : List (Nat × Held)) (atom : Nat) (val : Held) :
    Settles (val.owned + (atomRef atom + objectOwned id props)) (freeUndefined id props atom val)
      fun _ => 0 :=
  val.settles.andThen ((settles_freeAtom atom).andThen (settles_freeObject id props))

/-- `LEPUS_DefinePropertyValue` on a plain object, and the release of the name after it. The new
property asks for memory; the old value of a property is released. -/
def defineProperty (id : Nat) (props : List (Nat × Held)) (atom : Nat) (val : Held) :
    BCAcquire (List (Nat × Held)) := do
  match redefine props atom val with
  | some (old, changed) => do
      old.free
      freeAtom atom
      pure changed
  | none => do
      match ← ask with
      | none => failAfter (freeUndefined id props atom val) .outOfMemory
      | some _ => do
          take (atomRef atom)
          freeAtom atom
          pure (props ++ [(atom, val)])

theorem accounts_defineProperty (id : Nat) (props : List (Nat × Held)) (atom : Nat) (val : Held) :
    Accounts (objectOwned id props + atomRef atom + val.owned) (defineProperty id props atom val)
      (objectOwned id) := by
  unfold defineProperty
  cases found : redefine props atom val with
  | some changed =>
      obtain ⟨old, changed⟩ := changed
      have free : Settles (objectOwned id changed + (old.owned + atomRef atom))
          (do old.free; freeAtom atom) fun _ => objectOwned id changed + 0 :=
        (old.settles.andThen (settles_freeAtom atom)).frame
      have same : objectOwned id props + atomRef atom + val.owned =
          objectOwned id changed + (old.owned + atomRef atom) := by
        rw [add_right_comm, redefine_owned found id, add_assoc]
      have done := (free.congr same fun _ => add_zero _).accounts.bind fun _ =>
        accounts_pure (a := changed) rfl
      simpa only [bind_assoc] using done
  | none =>
      refine settles_ask.accounts.bind fun granted => ?_
      cases granted with
      | none =>
          have undefined_ := settles_freeUndefined id props atom val
          exact accounts_failAfter _ (undefined_.congr (by ac_rfl) fun _ => rfl)
      | some _ =>
          refine (settles_take (atomRef atom)).accounts.bind fun _ => ?_
          have free : Settles (objectOwned id props + atomRef atom + val.owned + atomRef atom)
              (freeAtom atom) fun _ => objectOwned id props + atomRef atom + val.owned + 0 :=
            (settles_freeAtom atom).frame
          refine free.accounts.bind fun _ => accounts_pure ?_
          simp only [objectOwned, List.map_append, List.map_cons, List.map_nil, atomRefs_append,
            atomRefs_cons, atomRefs_nil, Held.ownedAll_append, Held.ownedAll_cons,
            Held.ownedAll_nil, add_zero]
          ac_rfl

def objectHeld (id : Nat) (props : List (Nat × Held)) : Held where
  isUndefined := false
  closureVar := []
  owned := objectOwned id props
  free := freeObject id props
  settles := settles_freeObject id props
  undefined_owned := fun never => absurd never (by decide)

def readProps (readRec : BCAcquire Held) (id : Nat) :
    Nat → List (Nat × Held) → BCAcquire (List (Nat × Held))
  | 0, props => pure props
  | n + 1, props => do
      let atom ← onFail acquireAtom (freeObject id props)
      let val ← onFail readRec do
        freeAtom atom
        freeObject id props
      let props ← defineProperty id props atom val
      readProps readRec id n props

/-- The first property defined on the exception of a refused object fails. -/
def readRefusedObject (readRec : BCAcquire Held) : BCAcquire Held := do
  let propCount ← lift bcGetLeb128
  if propCount = 0 then fail .outOfMemory
  else do
    let atom ← acquireAtom
    let val ← onFail readRec (freeAtom atom)
    failAfter (do val.free; freeAtom atom) .rejected

def jsReadObjectTag (readRec : BCAcquire Held) : BCAcquire Held := do
  match ← lepusMallocz with
  | none => readRefusedObject readRec
  | some id => do
      let propCount ← onFail (lift bcGetLeb128) (freeObject id [])
      let props ← readProps readRec id propCount []
      pure (objectHeld id props)

section

variable (reads : Accounts 0 readRec Held.owned)

include reads

theorem accounts_readProps (id n : Nat) :
    ∀ props, Accounts (objectOwned id props) (readProps readRec id n props) (objectOwned id) := by
  induction n with
  | zero => exact fun props => accounts_pure rfl
  | succ n ih =>
      intro props
      refine (accounts_acquireAtom.guarded (settles_freeObject id props)).bind fun atom => ?_
      have value := reads.guarded ((settles_freeAtom atom).andThen (settles_freeObject id props))
      refine (value.congr (add_comm _ _) fun _ => rfl).bind fun val => ?_
      have defined := accounts_defineProperty id props atom val
      rw [add_comm (objectOwned id props)] at defined
      exact defined.bind fun props => ih props

theorem accounts_readRefusedObject : Accounts 0 (readRefusedObject readRec) Held.owned := by
  refine (accounts_lift _).bind fun propCount => ?_
  split
  · exact accounts_fail _
  · refine accounts_acquireAtom.bind fun atom => ?_
    refine (reads.guarded (settles_freeAtom atom)).bind fun val => ?_
    rw [add_comm]
    exact accounts_failAfter _ (val.settles.andThen (settles_freeAtom atom))

theorem accounts_jsReadObjectTag : Accounts 0 (jsReadObjectTag readRec) Held.owned := by
  refine settles_lepusMallocz.accounts.bind fun allocated => ?_
  cases allocated with
  | none => exact accounts_readRefusedObject reads
  | some id =>
      have empty : blockRef (some id) = objectOwned id [] := (zero_add _).symm
      have count := (accounts_lift bcGetLeb128).guarded (settles_freeObject id [])
      refine (count.congr empty fun _ => add_zero _).bind fun propCount => ?_
      exact (accounts_readProps reads id propCount []).bind fun props => accounts_pure rfl

end

end Objects

section Arrays

def arrayOwned (id : Nat) (elems : List Held) : Multiset Resource :=
  Held.ownedAll elems + {.block id}

def freeArray (id : Nat) (elems : List Held) : BCAcquire Unit := do
  Held.freeAll elems
  lepusFree (some id)

theorem settles_freeArray (id : Nat) (elems : List Held) :
    Settles (arrayOwned id elems) (freeArray id elems) fun _ => 0 :=
  (Held.settles_freeAll _).andThen (settles_lepusFree (some id))

def arrayHeld (id : Nat) (elems : List Held) : Held where
  isUndefined := false
  closureVar := []
  owned := arrayOwned id elems
  free := freeArray id elems
  settles := settles_freeArray id elems
  undefined_owned := fun never => absurd never (by decide)

/-- `LEPUS_DefinePropertyValueUint32`, and the definition of `raw`. -/
def defineElement (id : Nat) (elems : List Held) (val : Held) : BCAcquire (List Held) := do
  match ← ask with
  | none => failAfter (do val.free; freeArray id elems) .outOfMemory
  | some _ => pure (elems ++ [val])

def readElems (readRec : BCAcquire Held) (id : Nat) : Nat → List Held → BCAcquire (List Held)
  | 0, elems => pure elems
  | n + 1, elems => do
      let val ← onFail readRec (freeArray id elems)
      let elems ← defineElement id elems val
      readElems readRec id n elems

/-- The first definition on the exception of a refused array fails; a template without elements
and with an undefined `raw` is sealed, which reads the array's object. -/
def readRefusedArray (readRec : BCAcquire Held) (isTemplate : Bool) : BCAcquire Held := do
  let len ← lift bcGetLeb128
  if len = 0 ∧ isTemplate = false then fail .outOfMemory
  else do
    let val ← readRec
    if len = 0 ∧ val.isUndefined then throw .outside
    else failAfter val.free .rejected

def readRaw (readRec : BCAcquire Held) (id : Nat) (elems : List Held) : BCAcquire Held := do
  let raw ← onFail readRec (freeArray id elems)
  if raw.isUndefined then pure (arrayHeld id elems)
  else do
    let elems ← defineElement id elems raw
    pure (arrayHeld id elems)

def jsReadArray (readRec : BCAcquire Held) (isTemplate : Bool) : BCAcquire Held := do
  match ← lepusMallocz with
  | none => readRefusedArray readRec isTemplate
  | some id => do
      let len ← onFail (lift bcGetLeb128) (freeArray id [])
      let elems ← readElems readRec id len []
      if isTemplate then readRaw readRec id elems
      else pure (arrayHeld id elems)

theorem accounts_defineElement (id : Nat) (elems : List Held) (val : Held) :
    Accounts (arrayOwned id elems + val.owned) (defineElement id elems val) (arrayOwned id) := by
  refine settles_ask.accounts.bind fun granted => ?_
  cases granted with
  | none =>
      rw [add_comm]
      exact accounts_failAfter _ (val.settles.andThen (settles_freeArray id elems))
  | some _ =>
      refine accounts_pure ?_
      simp only [arrayOwned, Held.ownedAll_append, Held.ownedAll_cons, Held.ownedAll_nil, add_zero]
      ac_rfl

section

variable (reads : Accounts 0 readRec Held.owned)

include reads

theorem accounts_readElems (id n : Nat) :
    ∀ elems, Accounts (arrayOwned id elems) (readElems readRec id n elems) (arrayOwned id) := by
  induction n with
  | zero => exact fun elems => accounts_pure rfl
  | succ n ih =>
      intro elems
      refine (reads.guarded (settles_freeArray id elems)).bind fun val => ?_
      exact (accounts_defineElement id elems val).bind fun elems => ih elems

theorem accounts_readRefusedArray (isTemplate : Bool) :
    Accounts 0 (readRefusedArray readRec isTemplate) Held.owned := by
  refine (accounts_lift _).bind fun len => ?_
  split
  · exact accounts_fail _
  · refine reads.bind fun val => ?_
    split
    · exact settles_outside.accounts
    · exact accounts_failAfter _ val.settles

theorem accounts_readRaw (id : Nat) (elems : List Held) :
    Accounts (arrayOwned id elems) (readRaw readRec id elems) Held.owned := by
  refine (reads.guarded (settles_freeArray id elems)).bind fun raw => ?_
  split
  next undefined_ =>
    refine accounts_pure ?_
    rw [raw.undefined_owned undefined_, add_zero]
    rfl
  next => exact (accounts_defineElement id elems raw).bind fun elems => accounts_pure rfl

theorem accounts_jsReadArray (isTemplate : Bool) :
    Accounts 0 (jsReadArray readRec isTemplate) Held.owned := by
  refine settles_lepusMallocz.accounts.bind fun allocated => ?_
  cases allocated with
  | none => exact accounts_readRefusedArray reads isTemplate
  | some id =>
      have empty : blockRef (some id) = arrayOwned id [] := (zero_add _).symm
      have count := (accounts_lift bcGetLeb128).guarded (settles_freeArray id [])
      refine (count.congr empty fun _ => add_zero _).bind fun len => ?_
      refine (accounts_readElems reads id len []).bind fun elems => ?_
      cases isTemplate with
      | true => exact accounts_readRaw reads id elems
      | false => exact accounts_pure rfl

end

end Arrays

section Graph

/-- `JS_ReadObjectRec`, with as much fuel as the plain reader has. -/
def jsReadObjectRec : Nat → BCAcquire Held
  | 0 => fail .readAfterEnd
  | fuel + 1 => do
      let tag ← lift bcGetU8
      let s ← get
      match BCTag.ofNumber tag with
      | some .null | some .boolFalse | some .boolTrue => pure (.plain false)
      | some .undefined => pure (.plain true)
      | some .int32 => do
          let _ ← lift bcGetSleb128
          pure (.plain false)
      | some .float64 => do
          let _ ← lift bcGetU64
          pure (.plain false)
      | some .string => jsReadString
      | some .functionBytecode => jsReadFunction (jsReadObjectRec fuel)
      | some .module => jsReadModule (jsReadObjectRec fuel)
      | some .object => jsReadObjectTag (jsReadObjectRec fuel)
      | some .array => jsReadArray (jsReadObjectRec fuel) false
      | some .templateObject => jsReadArray (jsReadObjectRec fuel) true
      | some .bigInt => jsReadBigInt
      | some .bigFloat | none => fail (.invalidTag tag s.state.pos)

theorem accounts_jsReadObjectRec (fuel : Nat) : Accounts 0 (jsReadObjectRec fuel) Held.owned := by
  induction fuel with
  | zero => exact accounts_fail _
  | succ fuel ih =>
      refine (accounts_lift bcGetU8).bind fun tag => ?_
      refine settles_get.accounts.bind fun s => ?_
      cases BCTag.ofNumber tag with
      | none => exact accounts_fail _
      | some tag =>
          cases tag with
          | null | boolFalse | boolTrue | undefined => exact accounts_pure rfl
          | int32 => exact (accounts_lift bcGetSleb128).bind fun _ => accounts_pure rfl
          | float64 => exact (accounts_lift bcGetU64).bind fun _ => accounts_pure rfl
          | string => exact accounts_jsReadString
          | functionBytecode => exact accounts_jsReadFunction ih
          | module => exact accounts_jsReadModule ih
          | object => exact accounts_jsReadObjectTag ih
          | array => exact accounts_jsReadArray ih false
          | templateObject => exact accounts_jsReadArray ih true
          | bigInt => exact accounts_jsReadBigInt
          | bigFloat => exact accounts_fail _

def bcReaderFree (table : Option Nat) (atoms : List Nat) : BCAcquire Unit := do
  freeAtoms atoms
  lepusFree table

theorem settles_bcReaderFree (table : Option Nat) (atoms : List Nat) :
    Settles (atomRefs atoms + blockRef table) (bcReaderFree table atoms) fun _ => 0 :=
  (settles_freeAtoms atoms).andThen (settles_lepusFree table)

/-- `JS_ReadAtomString`. The allocations inside the runtime's table are one request. -/
def jsReadAtomString : BCAcquire Nat := do
  match ← ask with
  | none => fail .outOfMemory
  | some _ => do
      let atom ← lift PrimJs.jsReadAtomString
      take (atomRef atom)
      pure atom

def readAtomTable (table : Option Nat) : Nat → List Nat → BCAcquire (List Nat)
  | 0, atoms => pure atoms
  | n + 1, atoms => do
      let atom ← onFail jsReadAtomString (bcReaderFree table atoms)
      readAtomTable table n (atoms ++ [atom])

def allocateAtomTable (count : Nat) : BCAcquire (Option Nat) :=
  if count = 0 then pure none
  else do
    match ← lepusMallocz with
    | none => fail .outOfMemory
    | some id => pure (some id)

def jsReadObjectAtoms : BCAcquire (Option Nat × List Nat) := do
  lift readVersion
  let count ← lift bcGetLeb128
  let table ← allocateAtomTable count
  let atoms ← readAtomTable table count []
  update fun s => { s with
    idxToAtom := atoms
    isRomData := s.isRomData && !relocatesRom s.firstAtom atoms }
  pure (table, atoms)

def lepusReadObject : BCAcquire Held := do
  let (table, atoms) ← jsReadObjectAtoms
  let s ← get
  let obj ← onFail (jsReadObjectRec s.state.rest.length) (bcReaderFree table atoms)
  bcReaderFree table atoms
  pure obj

theorem accounts_jsReadAtomString : Accounts 0 jsReadAtomString atomRef := by
  refine settles_ask.accounts.bind fun granted => ?_
  cases granted with
  | none => exact accounts_fail _
  | some _ =>
      refine (accounts_lift PrimJs.jsReadAtomString).bind fun atom => ?_
      exact (settles_take (atomRef atom)).accounts.bind fun _ => accounts_pure (zero_add _)

theorem accounts_readAtomTable (table : Option Nat) (n : Nat) :
    ∀ atoms, Accounts (atomRefs atoms + blockRef table) (readAtomTable table n atoms)
      fun atoms => atomRefs atoms + blockRef table := by
  induction n with
  | zero => exact fun atoms => accounts_pure rfl
  | succ n ih =>
      intro atoms
      have guarded := accounts_jsReadAtomString.guarded (settles_bcReaderFree table atoms)
      refine guarded.bind fun atom => (ih (atoms ++ [atom])).congr ?_ fun _ => rfl
      rw [atomRefs_append, atomRefs_cons, atomRefs_nil, add_zero, add_right_comm]

theorem accounts_allocateAtomTable (count : Nat) :
    Accounts 0 (allocateAtomTable count) blockRef := by
  unfold allocateAtomTable
  split
  · exact accounts_pure rfl
  · refine settles_lepusMallocz.accounts.bind fun block => ?_
    cases block with
    | none => exact accounts_fail _
    | some id => exact accounts_pure rfl

theorem accounts_jsReadObjectAtoms :
    Accounts 0 jsReadObjectAtoms fun read => atomRefs read.2 + blockRef read.1 := by
  refine (accounts_lift readVersion).bind fun _ => ?_
  refine (accounts_lift bcGetLeb128).bind fun count => ?_
  refine (accounts_allocateAtomTable count).bind fun table => ?_
  have atoms := (accounts_readAtomTable table count []).congr (zero_add _).symm fun _ => rfl
  exact atoms.bind fun atoms => (settles_update _).accounts.bind fun _ => accounts_pure rfl

theorem accounts_lepusReadObject : Accounts 0 lepusReadObject Held.owned := by
  refine accounts_jsReadObjectAtoms.bind fun read => ?_
  obtain ⟨table, atoms⟩ := read
  refine settles_get.accounts.bind fun s => ?_
  have free := settles_bcReaderFree table atoms
  refine ((accounts_jsReadObjectRec s.state.rest.length).guarded free).bind fun obj => ?_
  have done : Settles (obj.owned + (atomRefs atoms + blockRef table)) (bcReaderFree table atoms)
      fun _ => obj.owned + 0 := free.frame
  rw [add_comm]
  exact done.accounts.bind fun _ => accounts_pure (add_zero _)

end Graph

/-- A call of `LEPUS_ReadObject` that finds `held` in the runtime. -/
def startReading (ctx : LEPUSContext) (buf : List UInt8) (flags : ReadFlags)
    (grants : Nat → Bool) (held : Multiset Resource) : Account LossSite Resource BCReaderState where
  state := initReader ctx buf flags
  grants
  asked := 0
  held
  lost := 0

/-- A function with one closure variable, cut off before the variable's name. -/
def cutClosureTable : List UInt8 := [1, 0, 13, 0, 0, 0, 0, 0, 0, 0, 0, 1, 0, 0, 0]

theorem cutClosureTable_keepsBlock : ∃ (ctx : LEPUSContext) (buf : List UInt8) (flags : ReadFlags)
    (grants : Nat → Bool) (held : Multiset Resource),
      ¬ Restores held (lepusReadObject (startReading ctx buf flags grants held)) :=
  ⟨freshContext, cutClosureTable, ⟨true, false⟩, fun _ => true, 0, by decide +kernel⟩

end PrimJs.Accounted
