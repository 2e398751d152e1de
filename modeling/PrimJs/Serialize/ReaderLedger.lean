import PrimJs.Foundation.Accounting
import PrimJs.Serialize.Reader

/-! What the reader of the binary object format acquires, and what it releases when it fails. -/

namespace PrimJs

open Accounting

inductive Resource where
  | atom (a : Nat)
  | block (id : Nat)
  deriving DecidableEq, Repr

/-- Where something stays held without an owner. -/
inductive LossSite where
  /-- `func_name`, until the function object exists. -/
  | functionName
  /-- The function's block with the names read so far, before the bytecode. -/
  | functionTables
  /-- The variable names past `arg_count + var_count`. -/
  | surplusLocals
  /-- The number whose limbs are read. -/
  | bigIntLimbs
  /-- A module that was read stays in `loaded_modules`. -/
  | loadedModule
  deriving DecidableEq, Repr

abbrev BCAcquire (α : Type) := Acquire LossSite Resource BCError BCReaderState α

def atomRef (atom : Nat) : Multiset Resource :=
  if jsAtomIsTaggedInt atom ∨ atom < jsAtomEnd then 0 else {.atom atom}

def atomRefs (atoms : List Nat) : Multiset Resource := (atoms.map atomRef).sum

def blockRef (block : Option Nat) : Multiset Resource :=
  match block with
  | some id => {.block id}
  | none => 0

@[simp] theorem atomRefs_nil : atomRefs [] = 0 := rfl

@[simp] theorem atomRefs_cons (atom : Nat) (atoms : List Nat) :
    atomRefs (atom :: atoms) = atomRef atom + atomRefs atoms := by
  simp [atomRefs]

@[simp] theorem atomRefs_append (a b : List Nat) : atomRefs (a ++ b) = atomRefs a + atomRefs b := by
  simp [atomRefs]

@[simp] theorem blockRef_none : blockRef none = 0 := rfl

@[simp] theorem blockRef_some (id : Nat) : blockRef (some id) = {.block id} := rfl

@[simp] theorem atomRef_null : atomRef jsAtomNull = 0 := by decide

section Primitives

variable {owned : Multiset Resource}

/-- `bc_get_atom`: the reference it returns is counted. -/
def acquireAtom : BCAcquire Nat := do
  let atom ← lift bcGetAtom
  take (atomRef atom)
  pure atom

theorem accounts_acquireAtom : Accounts 0 acquireAtom atomRef :=
  (accounts_lift bcGetAtom).bind fun atom =>
    (((settles_take (atomRef atom)).congr rfl fun _ => zero_add _).bind fun _ =>
      settles_pure rfl).accounts

def freeAtom (atom : Nat) : BCAcquire Unit := release (atomRef atom)

theorem settles_freeAtom (atom : Nat) : Settles (atomRef atom) (freeAtom atom) fun _ => 0 :=
  settles_release _

def freeAtoms : List Nat → BCAcquire Unit
  | [] => pure ()
  | atom :: atoms => do
      freeAtom atom
      freeAtoms atoms

theorem settles_freeAtoms (atoms : List Nat) :
    Settles (atomRefs atoms) (freeAtoms atoms) fun _ => 0 := by
  induction atoms with
  | nil => exact settles_pure rfl
  | cons atom atoms ih =>
      rw [atomRefs_cons]
      exact Settles.andThen (settles_freeAtom atom) ih

def lepusMallocz : BCAcquire (Option Nat) := do
  let block ← ask
  take (blockRef block)
  pure block

theorem settles_lepusMallocz : Settles 0 lepusMallocz blockRef :=
  settles_ask.bind fun block =>
    ((settles_take (blockRef block)).congr rfl fun _ => zero_add _).bind fun _ =>
      settles_pure rfl

/-- A negative size is refused as one too large. -/
def lepusMalloczSized (size : Int) : BCAcquire (Option Nat) :=
  if size < 0 then pure none else lepusMallocz

theorem settles_lepusMalloczSized (size : Int) : Settles 0 (lepusMalloczSized size) blockRef := by
  unfold lepusMalloczSized
  split
  · exact settles_pure rfl
  · exact settles_lepusMallocz

def lepusFree (block : Option Nat) : BCAcquire Unit := release (blockRef block)

theorem settles_lepusFree (block : Option Nat) :
    Settles (blockRef block) (lepusFree block) fun _ => 0 :=
  settles_release _

def failAfter {α : Type} (cleanup : BCAcquire Unit) (error : BCError) : BCAcquire α := do
  cleanup
  fail error

theorem accounts_failAfter {α : Type} {cleanup : BCAcquire Unit} (error : BCError)
    {own : α → Multiset Resource} (settles : Settles owned cleanup fun _ => 0) :
    Accounts owned (failAfter cleanup error) own :=
  settles.accounts.bind fun _ => accounts_fail error

end Primitives

/-- A value that was read: what it holds, and what `LEPUS_FreeValue` does with it. -/
structure Held where
  isUndefined : Bool
  /-- The closure variables of a function. -/
  closureVar : List LEPUSClosureVar
  owned : Multiset Resource
  free : BCAcquire Unit
  settles : Settles owned free fun _ => 0
  undefined_owned : isUndefined = true → owned = 0

namespace Held

def plain (isUndefined : Bool) : Held where
  isUndefined
  closureVar := []
  owned := 0
  free := pure ()
  settles := settles_pure rfl
  undefined_owned := fun _ => rfl

def ofBlock (id : Nat) : Held where
  isUndefined := false
  closureVar := []
  owned := {.block id}
  free := lepusFree (some id)
  settles := settles_lepusFree (some id)
  undefined_owned := fun never => absurd never (by decide)

def freeAll : List Held → BCAcquire Unit
  | [] => pure ()
  | v :: vs => do
      v.free
      freeAll vs

def ownedAll (vs : List Held) : Multiset Resource := (vs.map owned).sum

@[simp] theorem ownedAll_nil : ownedAll [] = 0 := rfl

@[simp] theorem ownedAll_cons (v : Held) (vs : List Held) :
    ownedAll (v :: vs) = v.owned + ownedAll vs := by
  simp [ownedAll]

@[simp] theorem ownedAll_append (vs ws : List Held) :
    ownedAll (vs ++ ws) = ownedAll vs + ownedAll ws := by
  simp [ownedAll]

theorem settles_freeAll (vs : List Held) : Settles (ownedAll vs) (freeAll vs) fun _ => 0 := by
  induction vs with
  | nil => exact settles_pure rfl
  | cons v vs ih =>
      rw [ownedAll_cons]
      exact Settles.andThen v.settles ih

end Held

structure DebugBlock where
  filename : Nat
  pc2lineBuf : Option Nat

/-- A function while it is read. -/
structure FunctionBlock where
  block : Nat
  fields : LEPUSFunctionBytecode
  vardefs : List Nat
  closureVar : List (Nat × LEPUSClosureVar)
  byteCodeBuf : List UInt8
  byteCodeLen : Nat
  debug : Option DebugBlock
  cpool : List Held

/-- The atom operand of the instruction at `pos`. -/
def operandAtom (bcBuf : List UInt8) (pos : Nat) : List Nat :=
  if bytecodeHasAtom (getU8 bcBuf pos) then [getU32 bcBuf (pos + 1)] else []

/-- The atoms `free_bytecode_atoms` meets from `pos` on. -/
def bytecodeAtoms (bcBuf : List UInt8) (bcLen : Nat) : Nat → Nat → List Nat
  | 0, _ => []
  | fuel + 1, pos =>
      if pos < bcLen then
        operandAtom bcBuf pos ++
          bytecodeAtoms bcBuf bcLen fuel (pos + opSize (getU8 bcBuf pos))
      else []

def freeBytecodeAtoms (bcBuf : List UInt8) (bcLen : Nat) : BCAcquire Unit :=
  freeAtoms (bytecodeAtoms bcBuf bcLen bcLen 0)

/-- The first `count` names are released, and the block goes with the others in it. -/
def freeVardefs (names : List Nat) (count : Nat) : BCAcquire Unit :=
  if names = [] then pure ()
  else if count ≤ names.length then do
    freeAtoms (names.take count)
    lose .surplusLocals (atomRefs (names.drop count))
  else throw .outside

def freeDebug : Option DebugBlock → BCAcquire Unit
  | some debug => do
      freeAtom debug.filename
      lepusFree debug.pc2lineBuf
  | none => pure ()

theorem settles_freeVardefs (names : List Nat) (count : Nat) :
    Settles (atomRefs names) (freeVardefs names count) fun _ => 0 := by
  unfold freeVardefs
  split
  · subst names
    exact settles_pure rfl
  · split
    · have split_ : atomRefs names =
          atomRefs (names.take count) + atomRefs (names.drop count) := by
        rw [← atomRefs_append, List.take_append_drop]
      rw [split_]
      exact Settles.andThen (settles_freeAtoms _) (settles_lose _ _)
    · exact settles_outside

def DebugBlock.owned : Option DebugBlock → Multiset Resource
  | some debug => atomRef debug.filename + blockRef debug.pc2lineBuf
  | none => 0

theorem settles_freeDebug (debug : Option DebugBlock) :
    Settles (DebugBlock.owned debug) (freeDebug debug) fun _ => 0 := by
  cases debug with
  | none => exact settles_pure rfl
  | some debug => exact Settles.andThen (settles_freeAtom _) (settles_lepusFree _)

namespace FunctionBlock

def names (b : FunctionBlock) : Multiset Resource :=
  atomRefs (b.closureVar.map Prod.fst) + (atomRef b.fields.funcName + {.block b.block})

def codeAtoms (b : FunctionBlock) : List Nat :=
  bytecodeAtoms b.byteCodeBuf b.byteCodeLen b.byteCodeLen 0

def owned (b : FunctionBlock) : Multiset Resource :=
  atomRefs b.codeAtoms + (atomRefs b.vardefs + (Held.ownedAll b.cpool +
    (DebugBlock.owned b.debug + b.names)))

def freeNames (b : FunctionBlock) : BCAcquire Unit := do
  freeAtoms (b.closureVar.map Prod.fst)
  freeAtom b.fields.funcName
  lepusFree (some b.block)

theorem settles_freeNames (b : FunctionBlock) : Settles b.names b.freeNames fun _ => 0 :=
  Settles.andThen (settles_freeAtoms _)
    (Settles.andThen (settles_freeAtom _) (settles_lepusFree (some b.block)))

/-- `free_function_bytecode` on a function that has not run. -/
def freeFunctionBytecode (b : FunctionBlock) : BCAcquire Unit := do
  freeBytecodeAtoms b.byteCodeBuf b.byteCodeLen
  freeVardefs b.vardefs (b.fields.argCount + b.fields.varCount)
  Held.freeAll b.cpool
  freeDebug b.debug
  b.freeNames

theorem settles_freeFunctionBytecode (b : FunctionBlock) :
    Settles b.owned b.freeFunctionBytecode fun _ => 0 :=
  Settles.andThen (settles_freeAtoms _) (Settles.andThen (settles_freeVardefs _ _)
    (Settles.andThen (Held.settles_freeAll _)
      (Settles.andThen (settles_freeDebug _) b.settles_freeNames)))

/-- `JS_FreeFunctionAfterBytecodeReadError`, whose `local_count` names are all there are. -/
def freeAfterBytecodeReadError (b : FunctionBlock) : BCAcquire Unit := do
  freeBytecodeAtoms b.byteCodeBuf b.byteCodeLen
  freeAtoms b.vardefs
  b.freeNames

theorem settles_freeAfterBytecodeReadError (b : FunctionBlock) :
    Settles (atomRefs b.codeAtoms + (atomRefs b.vardefs + b.names)) b.freeAfterBytecodeReadError
      fun _ => 0 :=
  Settles.andThen (settles_freeAtoms _) (Settles.andThen (settles_freeAtoms _) b.settles_freeNames)

def toHeld (b : FunctionBlock) : Held where
  isUndefined := false
  closureVar := b.closureVar.map Prod.snd
  owned := b.owned
  free := b.freeFunctionBytecode
  settles := b.settles_freeFunctionBytecode
  undefined_owned := fun never => absurd never (by decide)

end FunctionBlock

end PrimJs
