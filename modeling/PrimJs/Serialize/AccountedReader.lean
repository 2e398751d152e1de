import PrimJs.Serialize.ReaderLedger
import PrimJs.Serialize.Validation

/-! The reader of the binary object format with the references and allocations it takes. -/

namespace PrimJs.Accounted

open Accounting StateReader

section Functions

def readFunctionFlags : BCRead (Nat × Bool × Nat) := do
  let v16 ← bcGetU16
  let s ← get
  let jsMode ← bcGetU8
  pure (v16, s.isRomData, jsMode)

/-- The rest of `readFunctionHeader`, after the function's name. -/
def readFunctionSizes (flags : Nat × Bool × Nat) (funcName : Nat) : BCRead FunctionHeader := do
  let (v16, isRomData, jsMode) := flags
  let argCount ← bcGetLeb128U16
  let varCount ← bcGetLeb128U16
  let definedArgCount ← bcGetLeb128U16
  let stackSize ← bcGetLeb128U16
  let closureVarCount ← bcGetLeb128Int
  let cpoolCount ← bcGetLeb128Int
  let byteCodeLen ← bcGetLeb128Int
  let localCount ← bcGetLeb128Int
  require (0 ≤ closureVarCount ∧ 0 ≤ cpoolCount ∧ 0 ≤ byteCodeLen ∧ 0 ≤ localCount) .rejected
  pure {
    fields := {
      jsMode
      hasPrototype := flagBit v16 0
      hasSimpleParameterList := flagBit v16 1
      isDerivedClassConstructor := flagBit v16 2
      needHomeObject := flagBit v16 3
      funcKind := bcGetFlags v16 4 2
      newTargetAllowed := flagBit v16 6
      superCallAllowed := flagBit v16 7
      superAllowed := flagBit v16 8
      argumentsAllowed := flagBit v16 9
      readOnlyBytecode := isRomData
      hasEvalCall := false
      byteCodeBuf := []
      funcName
      vardefs := []
      closureVar := []
      argCount
      varCount
      definedArgCount
      stackSize
      cpoolCount := cpoolCount.toNat
      functionId := 0
      runtimeId := 0
      debug := none }
    hasDebug := flagBit v16 10
    closureVarCount := closureVarCount.toNat
    byteCodeLen := byteCodeLen.toNat
    localCount := localCount.toNat }

def varDefFields (varName : Nat) : BCRead JSBytecodeVarDef := do
  let scopeLevel ← bcGetLeb128Int
  let scopeNext ← bcGetLeb128Int
  require (0 ≤ scopeLevel ∧ scopeLevel ≤ 0xffffff) .rejected
  let v8 ← bcGetU8
  pure {
    varName
    scopeNext := toInt32 (ofInt32 (scopeNext - 1))
    scopeLevel := scopeLevel.toNat
    varKind := bcGetFlags v8 0 4
    isConst := flagBit v8 4
    isLexical := flagBit v8 5
    isCaptured := flagBit v8 6 }

def closureVarFields (varName : Nat) : BCRead LEPUSClosureVar := do
  let varIdx ← bcGetLeb128
  let v8 ← bcGetU8
  pure {
    varName
    varIdx := varIdx % 2^16
    isLocal := flagBit v8 0
    isArg := flagBit v8 1
    isConst := flagBit v8 2
    isLexical := flagBit v8 3
    varKind := bcGetFlags v8 4 4 }

/-- Nothing refers to a name of a table whose function is given up. -/
def loseEntry (name : Nat) : BCAcquire Unit := lose .functionTables (atomRef name)

theorem settles_loseEntry (name : Nat) : Settles (atomRef name) (loseEntry name) fun _ => 0 :=
  settles_lose _ _

/-- A table of records that start with a name. A failure leaves the names read so far in the
function's block, which nothing refers to. -/
def readNamed {α : Type} (fields : Nat → BCRead α) : Nat → BCAcquire (List (Nat × α))
  | 0 => pure []
  | n + 1 => do
      let name ← acquireAtom
      let entry ← onFail (lift (fields name)) (loseEntry name)
      let rest ← onFail (readNamed fields n) (loseEntry name)
      pure ((name, entry) :: rest)

theorem accounts_readNamed {α : Type} (fields : Nat → BCRead α) (n : Nat) :
    Accounts 0 (readNamed fields n) fun table => atomRefs (table.map Prod.fst) := by
  induction n with
  | zero => exact accounts_pure rfl
  | succ n ih =>
      refine accounts_acquireAtom.bind fun name => ?_
      have lost := settles_loseEntry name
      have entry := ((accounts_lift (fields name)).guarded lost).congr rfl fun _ => add_zero _
      exact entry.bind fun entry => (ih.guarded lost).bind fun table =>
        accounts_pure (atomRefs_cons _ _).symm

/-- The sizes, and the function's block, zeroed but for the header. -/
def readFunctionBlock (flags : Nat × Bool × Nat) (funcName : Nat) :
    BCAcquire (FunctionHeader × Nat) := do
  let s ← get
  let h ← lift (readFunctionSizes flags funcName)
  lift (require (functionSize s.state.ctx.layout h ≤ 2^31 - 1) .rejected)
  match ← lepusMallocz with
  | some block => pure (h, block)
  | none => fail .outOfMemory

theorem accounts_readFunctionBlock (flags : Nat × Bool × Nat) (funcName : Nat) :
    Accounts 0 (readFunctionBlock flags funcName) fun read => {.block read.2} := by
  refine settles_get.accounts.bind fun s => ?_
  refine (accounts_lift _).bind fun h => ?_
  refine (accounts_lift _).bind fun _ => ?_
  refine settles_lepusMallocz.accounts.bind fun block => ?_
  cases block with
  | some block => exact accounts_pure rfl
  | none => exact accounts_fail _

end Functions

section Bytecode

variable {b : LEPUSFunctionBytecode} {bcBuf fixed : List UInt8} {pos : Nat} {atoms : List Nat}

def checkInstruction (b : LEPUSFunctionBytecode) (bcBuf : List UInt8) (pos : Nat) :
    BCRead (List UInt8) := do
  let op := getU8 bcBuf pos
  require (op ≠ opInvalid ∧ op < opShippableCount) (.invalidOpcode op pos)
  let len := opSize op
  require (len ≠ 0 ∧ len ≤ bcBuf.length - pos) .readAfterEnd
  checkBytecodeIndex b bcBuf pos
  fixupAtom bcBuf pos

/-- The loop of `JS_ReadFunctionBytecode`, with `byte_code_len` and the error it stops at. -/
def readBytecodeLoop (b : LEPUSFunctionBytecode) :
    Nat → Nat → List UInt8 → BCAcquire (List UInt8 × Nat × Option BCError)
  | 0, _, bcBuf => pure (bcBuf, bcBuf.length, none)
  | fuel + 1, pos, bcBuf =>
      if pos < bcBuf.length then do
        match ← attempt (checkInstruction b bcBuf pos) with
        | .error e => pure (bcBuf, pos, some e)
        | .ok fixed => do
            -- the atom is counted in ROM data too
            take (atomRefs (operandAtom fixed pos))
            readBytecodeLoop b fuel (pos + opSize (getU8 bcBuf pos)) fixed
      else pure (bcBuf, bcBuf.length, none)

def jsReadFunctionBytecode (b : LEPUSFunctionBytecode) (bcLen : Nat) :
    BCAcquire (List UInt8 × Nat × Option BCError) := do
  match ← attempt (bcGetBuf bcLen) with
  | .error e => pure ([], 0, some e)
  | .ok bcBuf => readBytecodeLoop b bcBuf.length 0 bcBuf

/-- Whole instructions lie from one position to another, with these atom operands. -/
inductive Walks (code : List UInt8) : Nat → Nat → List Nat → Prop where
  | done {p : Nat} : Walks code p p []
  | step {p q : Nat} {atoms : List Nat} (shippable : getU8 code p < opShippableCount)
      (rest : Walks code (p + opSize (getU8 code p)) q atoms) :
      Walks code p q (operandAtom code p ++ atoms)

theorem size_pos {op : Nat} (shippable : op < opShippableCount) : 0 < opSize op :=
  opSize_pos op (shippable.trans (by decide))

namespace Walks

variable {code code' : List UInt8} {p q : Nat}

section

variable (walk : Walks code p q atoms)

include walk

theorem le : p ≤ q := by
  induction walk with
  | done => exact Nat.le_refl _
  | step shippable rest ih => omega

theorem snoc (shippable : getU8 code q < opShippableCount) :
    Walks code p (q + opSize (getU8 code q)) (atoms ++ operandAtom code q) := by
  induction walk with
  | done =>
      have one := Walks.step shippable .done
      rwa [List.append_nil] at one
  | step first rest ih =>
      rw [List.append_assoc]
      exact .step first (ih shippable)

theorem bytecodeAtoms_eq {fuel : Nat} (enough : q ≤ p + fuel) :
    bytecodeAtoms code q fuel p = atoms := by
  induction walk generalizing fuel with
  | done => cases fuel with
    | zero => rfl
    | succ fuel => simp [bytecodeAtoms]
  | step shippable rest ih =>
      have positive := size_pos shippable
      have later := rest.le
      cases fuel with
      | zero => omega
      | succ fuel =>
          rw [bytecodeAtoms, if_pos (by omega), ih (by omega)]

/-- The atoms before a position depend on the bytes before it. -/
theorem congr (same : ∀ i < q, byteAt code' i = byteAt code i) : Walks code' p q atoms := by
  induction walk with
  | done => exact .done
  | @step p q atoms shippable rest ih =>
      have later := rest.le
      have positive := size_pos shippable
      have opcode : getU8 code' p = getU8 code p := same p (by omega)
      have operand : operandAtom code' p = operandAtom code p := by
        unfold operandAtom
        rw [opcode]
        split
        next hasAtom =>
          have fits := (atomOperand_fits _ shippable hasAtom).1
          rw [getU32_congr fun i low high => same i (by omega)]
        next => rfl
      have rest' := ih same
      rw [← opcode] at rest' shippable
      exact operand ▸ .step shippable rest'

end

end Walks

theorem reads_checkInstruction {s t : BCReaderState}
    (run : Reads (checkInstruction b bcBuf pos) s fixed t) :
    getU8 bcBuf pos < opShippableCount ∧ opSize (getU8 bcBuf pos) ≤ bcBuf.length - pos ∧
      (fixed = bcBuf ∨ bytecodeHasAtom (getU8 bcBuf pos) = true ∧
        ∃ atom, fixed = putU32 bcBuf (pos + 1) atom) := by
  obtain ⟨_, _, opcode, afterOpcode⟩ := reads_bind.mp run
  obtain ⟨_, _, size, afterSize⟩ := reads_bind.mp afterOpcode
  obtain ⟨_, _, -, fixRun⟩ := reads_bind.mp afterSize
  refine ⟨(reads_require.mp opcode).1.2, (reads_require.mp size).1.2, ?_⟩
  obtain ⟨u, v, -, later⟩ := reads_bind.mp fixRun
  split at later
  next hasAtom =>
    obtain ⟨atom, w, -, last⟩ := reads_bind.mp later
    exact .inr ⟨hasAtom.1, atom, (reads_pure.mp last).1⟩
  next => exact .inl (reads_pure.mp later).1

/-- A checked instruction adds its own operand to the atoms walked so far. -/
theorem Walks.checked {s t : BCReaderState} (walk : Walks bcBuf 0 pos atoms)
    (run : Reads (checkInstruction b bcBuf pos) s fixed t) :
    fixed.length = bcBuf.length ∧
      Walks fixed 0 (pos + opSize (getU8 bcBuf pos)) (atoms ++ operandAtom fixed pos) := by
  obtain ⟨shippable, -, fixes⟩ := reads_checkInstruction run
  rcases fixes with rfl | ⟨-, atom, rfl⟩
  · exact ⟨rfl, walk.snoc shippable⟩
  · have before : ∀ i < pos + 1, byteAt (putU32 bcBuf (pos + 1) atom) i = byteAt bcBuf i :=
      fun i low => byteAt_putU32_outside (by omega) atom
    have opcode : getU8 (putU32 bcBuf (pos + 1) atom) pos = getU8 bcBuf pos := before pos (by omega)
    have kept := walk.congr fun i low => before i (by omega)
    have next := kept.snoc (by rwa [opcode])
    rw [opcode] at next
    exact ⟨putU32_length _ _ _, next⟩

/-- The atoms up to the place where the loop stops are the ones that were counted. -/
theorem settles_readBytecodeLoop (walk : Walks bcBuf 0 pos atoms) (within : pos ≤ bcBuf.length)
    {fuel : Nat} (enough : bcBuf.length ≤ pos + fuel) :
    Settles (atomRefs atoms) (readBytecodeLoop b fuel pos bcBuf)
      fun read => atomRefs (bytecodeAtoms read.1 read.2.1 read.2.1 0) := by
  have all : bcBuf.length ≤ pos →
      atomRefs atoms = atomRefs (bytecodeAtoms bcBuf bcBuf.length bcBuf.length 0) := by
    intro ends
    obtain rfl : pos = bcBuf.length := by omega
    rw [walk.bytecodeAtoms_eq (by omega)]
  induction fuel generalizing pos bcBuf atoms with
  | zero => exact settles_pure (all (by omega))
  | succ fuel ih =>
      unfold readBytecodeLoop
      split
      next inside =>
        refine Settles.attempt_bind (fun fixed s t run => ?_) fun e => ?_
        · obtain ⟨sameLength, next⟩ := walk.checked run
          obtain ⟨shippable, fits, -⟩ := reads_checkInstruction run
          have positive := size_pos shippable
          refine (settles_take _).bind fun _ => ?_
          rw [← atomRefs_append]
          refine ih next (by omega) (by omega) fun ends => ?_
          obtain same : pos + opSize (getU8 bcBuf pos) = fixed.length := by omega
          rw [← same, next.bytecodeAtoms_eq (by omega)]
        · exact settles_pure (congrArg atomRefs
            (walk.bytecodeAtoms_eq (Nat.le_add_left pos 0)).symm)
      next past => exact settles_pure (all (by omega))

theorem settles_jsReadFunctionBytecode (b : LEPUSFunctionBytecode) (bcLen : Nat) :
    Settles 0 (jsReadFunctionBytecode b bcLen)
      fun read => atomRefs (bytecodeAtoms read.1 read.2.1 read.2.1 0) :=
  Settles.attempt_bind
    (fun _ _ _ _ => settles_readBytecodeLoop .done (Nat.zero_le _) (Nat.le_add_left _ _))
    fun _ => settles_pure rfl

end Bytecode

section Debug

/-- `LEPUS_NewAtom(ctx, lepusjs_filename)`; `JS_ATOM_NULL` when the allocator refuses. -/
def acquireFilenameAtom : BCAcquire Nat := do
  match ← ask with
  | none => pure jsAtomNull
  | some _ => do
      match ← attempt newFilenameAtom with
      | .error _ => pure jsAtomNull
      | .ok atom => do
          take (atomRef atom)
          pure atom

theorem settles_acquireFilenameAtom : Settles 0 acquireFilenameAtom atomRef := by
  refine settles_ask.bind fun granted => ?_
  cases granted with
  | none => exact settles_pure atomRef_null.symm
  | some id =>
      refine (settles_attempt newFilenameAtom).bind fun result => ?_
      cases result with
      | error e => exact settles_pure atomRef_null.symm
      | ok atom => exact (settles_take (atomRef atom)).bind fun _ => settles_pure (zero_add _)

def setDebuginfoOutside (value : Nat) : BCAcquire Unit :=
  update fun s => { s with ctx := { s.ctx with debuginfoOutside := value } }

def renameFile (filename : Nat) : BCAcquire Nat := do
  freeAtom filename
  acquireFilenameAtom

theorem settles_renameFile (filename : Nat) :
    Settles (atomRef filename) (renameFile filename) atomRef :=
  (settles_freeAtom filename).bind fun _ => settles_acquireFilenameAtom

/-- What the comparison with `lepusng_functionid_str` decides. -/
def settleDebuginfo (isFunctionid : Bool) (filename : Nat) : BCAcquire Nat :=
  if isFunctionid then do
    setDebuginfoOutside 1
    renameFile filename
  else do
    setDebuginfoOutside 0
    pure filename

theorem settles_settleDebuginfo (isFunctionid : Bool) (filename : Nat) :
    Settles (atomRef filename) (settleDebuginfo isFunctionid filename) atomRef := by
  cases isFunctionid with
  | true => exact (settles_update _).bind fun _ => settles_renameFile filename
  | false => exact (settles_update _).bind fun _ => settles_pure rfl

/-- The file name under the three settings of `debuginfo_outside`. -/
def adjustFilename (filename : Nat) : BCAcquire Nat := do
  let s ← get
  let ctx := s.state.ctx
  if ctx.debuginfoOutside = 1 then
    if ctx.binaryVersion / newDebuginfoFlag % 2 = 0 then renameFile filename
    else pure filename
  else if ctx.debuginfoOutside = 2 then do
    -- the string of `LEPUS_AtomToCString`, null when it is refused
    let str ← lepusMallocz
    let isFunctionid := str.isSome &&
      decide (ctx.atoms.keyCodes filename = (asciiString lepusngFunctionidStr).codes)
    let filename ← settleDebuginfo isFunctionid filename
    lepusFree str
    pure filename
  else pure filename

theorem settles_adjustFilename (filename : Nat) :
    Settles (atomRef filename) (adjustFilename filename) atomRef := by
  refine settles_get.bind fun s => ?_
  dsimp only
  split
  · split
    · exact settles_renameFile filename
    · exact settles_pure rfl
  · split
    · have string := settles_lepusMallocz.beside (atomRef filename)
      refine (string.congr rfl fun str => add_comm _ _).bind fun str => ?_
      refine (settles_settleDebuginfo _ filename).frame.bind fun filename => ?_
      have freed : Settles (atomRef filename + blockRef str) (lepusFree str)
          fun _ => atomRef filename + 0 := (settles_lepusFree str).frame
      exact (freed.congr (add_comm _ _) fun _ => add_zero _).bind fun _ => settles_pure rfl
    · exact settles_pure rfl

variable {b : FunctionBlock}

/-- A read whose failure frees the function made so far. -/
theorem accounts_orFree {α : Type} {m : BCAcquire α} {own : α → Multiset Resource}
    (accounts : Accounts 0 m own) :
    Accounts b.owned (onFail m b.freeFunctionBytecode) fun a => b.owned + own a :=
  accounts.guarded b.settles_freeFunctionBytecode

theorem owned_debug (b : FunctionBlock) (debug : Option DebugBlock) (none_ : b.debug = none) :
    ({ b with debug } : FunctionBlock).owned = b.owned + DebugBlock.owned debug := by
  simp only [FunctionBlock.owned, FunctionBlock.codeAtoms, FunctionBlock.names, none_,
    DebugBlock.owned, zero_add]
  ac_rfl

def readDebug (b : FunctionBlock) : BCAcquire FunctionBlock := do
  let filename ← onFail acquireAtom b.freeFunctionBytecode
  let named : FunctionBlock := { b with debug := some ⟨filename, none⟩ }
  let _ ← onFail (lift bcGetLeb128Int) named.freeFunctionBytecode
  let filename ← adjustFilename filename
  let named : FunctionBlock := { b with debug := some ⟨filename, none⟩ }
  let pc2lineLen ← onFail (lift bcGetLeb128Int) named.freeFunctionBytecode
  if pc2lineLen = 0 then pure named
  else do
    match ← lepusMalloczSized pc2lineLen with
    | none => failAfter named.freeFunctionBytecode .outOfMemory
    | some id => do
        let lined : FunctionBlock := { b with debug := some ⟨filename, some id⟩ }
        let _ ← onFail (lift (bcGetBuf pc2lineLen.toNat)) lined.freeFunctionBytecode
        pure lined

theorem owned_named (none_ : b.debug = none) (filename : Nat) :
    ({ b with debug := some ⟨filename, none⟩ } : FunctionBlock).owned =
      b.owned + atomRef filename := by
  rw [owned_debug b _ none_, DebugBlock.owned, blockRef_none, add_zero]

theorem owned_lined (none_ : b.debug = none) (filename id : Nat) :
    ({ b with debug := some ⟨filename, some id⟩ } : FunctionBlock).owned =
      b.owned + atomRef filename + {.block id} := by
  rw [owned_debug b _ none_, DebugBlock.owned, blockRef_some, add_assoc]

/-- A step that acquires nothing keeps the function; its failure frees it. -/
theorem accounts_liftOrFree {α : Type} (b : FunctionBlock) (read : BCRead α) :
    Accounts b.owned (onFail (lift read) b.freeFunctionBytecode) fun _ => b.owned :=
  (accounts_orFree (accounts_lift read)).congr rfl fun _ => add_zero _

theorem accounts_readDebug (none_ : b.debug = none) :
    Accounts b.owned (readDebug b) FunctionBlock.owned := by
  refine (accounts_orFree accounts_acquireAtom).bind fun filename => ?_
  rw [← owned_named none_]
  refine (accounts_liftOrFree _ _).bind fun _ => ?_
  rw [owned_named none_]
  refine (settles_adjustFilename filename).frame.accounts.bind fun filename => ?_
  rw [← owned_named none_]
  refine (accounts_liftOrFree _ _).bind fun pc2lineLen => ?_
  dsimp only
  split
  · exact accounts_pure rfl
  · generalize named : ({ b with debug := some ⟨filename, none⟩ } : FunctionBlock) = c
    refine ((settles_lepusMalloczSized pc2lineLen).beside c.owned).accounts.bind fun block => ?_
    subst named
    cases block with
    | none =>
        rw [blockRef_none, add_zero]
        exact accounts_failAfter _ (FunctionBlock.settles_freeFunctionBytecode _)
    | some id =>
        rw [owned_named none_, blockRef_some, ← owned_lined none_]
        exact (accounts_liftOrFree _ _).bind fun _ => accounts_pure rfl

end Debug

section Function

variable {readRec : BCAcquire Held}

/-- The constant pool; every constant is in the function before it is validated. -/
def readCpool (readRec : BCAcquire Held) : Nat → FunctionBlock → BCAcquire FunctionBlock
  | 0, b => pure b
  | n + 1, b => do
      let val ← onFail readRec b.freeFunctionBytecode
      let stored : FunctionBlock := { b with cpool := b.cpool ++ [val] }
      onFail (lift (checkClosureVars b.fields val.closureVar)) stored.freeFunctionBytecode
      readCpool readRec n stored

theorem owned_stored (b : FunctionBlock) (val : Held) :
    ({ b with cpool := b.cpool ++ [val] } : FunctionBlock).owned = b.owned + val.owned := by
  simp only [FunctionBlock.owned, FunctionBlock.codeAtoms, FunctionBlock.names,
    Held.ownedAll_append, Held.ownedAll_cons, Held.ownedAll_nil, add_zero]
  ac_rfl

theorem accounts_readCpool (reads : Accounts 0 readRec Held.owned) (n : Nat) :
    ∀ b : FunctionBlock, Accounts b.owned (readCpool readRec n b) FunctionBlock.owned := by
  induction n with
  | zero => exact fun b => accounts_pure rfl
  | succ n ih =>
      intro b
      refine (accounts_orFree reads).bind fun val => ?_
      rw [← owned_stored]
      exact (accounts_liftOrFree _ _).bind fun _ => ih _

def functionBlock (h : FunctionHeader) (funcName block : Nat)
    (vardefs : List (Nat × JSBytecodeVarDef)) (closureVar : List (Nat × LEPUSClosureVar))
    (code : List UInt8 × Nat) : FunctionBlock where
  block
  fields := { h.fields with
    funcName, vardefs := vardefs.map Prod.snd, closureVar := closureVar.map Prod.snd }
  vardefs := vardefs.map Prod.fst
  closureVar
  byteCodeBuf := code.1
  byteCodeLen := code.2
  debug := none
  cpool := []

def readDebugIf (hasDebug : Bool) (b : FunctionBlock) : BCAcquire FunctionBlock :=
  if hasDebug then readDebug b else pure b

def loseName (funcName : Nat) : BCAcquire Unit := lose .functionName (atomRef funcName)

def loseBlock (funcName block : Nat) : BCAcquire Unit := do
  lose .functionTables {.block block}
  loseName funcName

theorem settles_loseName (funcName : Nat) :
    Settles (atomRef funcName) (loseName funcName) fun _ => 0 :=
  settles_lose _ _

theorem settles_loseBlock (funcName block : Nat) :
    Settles ({.block block} + atomRef funcName) (loseBlock funcName block) fun _ => 0 :=
  (settles_lose _ _).andThen (settles_loseName funcName)

def loseTables (funcName block : Nat) (names : List Nat) : BCAcquire Unit := do
  lose .functionTables (atomRefs names)
  loseBlock funcName block

theorem settles_loseTables (funcName block : Nat) (names : List Nat) :
    Settles (atomRefs names + ({.block block} + atomRef funcName))
      (loseTables funcName block names) fun _ => 0 :=
  (settles_lose _ _).andThen (settles_loseBlock funcName block)

def jsReadFunction (readRec : BCAcquire Held) : BCAcquire Held := do
  let s ← get
  lift (require (s.state.allowBytecode = true) .rejected)
  let flags ← lift readFunctionFlags
  let funcName ← acquireAtom
  let (h, block) ← onFail (readFunctionBlock flags funcName) (loseName funcName)
  let vardefs ← onFail (readNamed varDefFields h.localCount) (loseBlock funcName block)
  let closureVar ← onFail (readNamed closureVarFields h.closureVarCount)
    (loseTables funcName block (vardefs.map Prod.fst))
  let b := functionBlock h funcName block vardefs closureVar ([], 0)
  let (bcBuf, byteCodeLen, error) ← jsReadFunctionBytecode b.fields h.byteCodeLen
  let b := functionBlock h funcName block vardefs closureVar (bcBuf, byteCodeLen)
  match error with
  | some e => failAfter b.freeAfterBytecodeReadError e
  | none => do
      let b ← readDebugIf h.hasDebug b
      let b ← readCpool readRec h.fields.cpoolCount b
      pure b.toHeld

theorem accounts_readDebugIf {b : FunctionBlock} (hasDebug : Bool) (none_ : b.debug = none) :
    Accounts b.owned (readDebugIf hasDebug b) FunctionBlock.owned := by
  cases hasDebug with
  | true => exact accounts_readDebug none_
  | false => exact accounts_pure rfl

theorem accounts_jsReadFunction (reads : Accounts 0 readRec Held.owned) :
    Accounts 0 (jsReadFunction readRec) Held.owned := by
  refine settles_get.accounts.bind fun s => ?_
  refine (accounts_lift _).bind fun _ => ?_
  refine (accounts_lift _).bind fun flags => ?_
  refine accounts_acquireAtom.bind fun funcName => ?_
  refine ((accounts_readFunctionBlock flags funcName).guarded
    (settles_loseName funcName)).bind fun read => ?_
  obtain ⟨h, block⟩ := read
  have locals := (accounts_readNamed varDefFields h.localCount).guarded
    (settles_loseBlock funcName block)
  refine (locals.congr (add_comm _ _) fun _ => rfl).bind fun vardefs => ?_
  have closures := (accounts_readNamed closureVarFields h.closureVarCount).guarded
    (settles_loseTables funcName block (vardefs.map Prod.fst))
  refine (closures.congr (add_comm _ _) fun _ => rfl).bind fun closureVar => ?_
  have code := settles_jsReadFunctionBytecode
    (functionBlock h funcName block vardefs closureVar ([], 0)).fields h.byteCodeLen
  refine (code.beside _).accounts.bind fun read => ?_
  obtain ⟨bcBuf, byteCodeLen, error⟩ := read
  have all : atomRefs (vardefs.map Prod.fst) + ({.block block} + atomRef funcName) +
      atomRefs (closureVar.map Prod.fst) +
        atomRefs (bytecodeAtoms bcBuf byteCodeLen byteCodeLen 0) =
      atomRefs (functionBlock h funcName block vardefs closureVar (bcBuf, byteCodeLen)).codeAtoms +
        (atomRefs (vardefs.map Prod.fst) +
          (functionBlock h funcName block vardefs closureVar (bcBuf, byteCodeLen)).names) := by
    simp only [FunctionBlock.codeAtoms, FunctionBlock.names, functionBlock]
    ac_rfl
  dsimp only at all ⊢
  rw [all]
  cases error with
  | some e => exact accounts_failAfter e (FunctionBlock.settles_freeAfterBytecodeReadError _)
  | none =>
      generalize made : functionBlock h funcName block vardefs closureVar (bcBuf, byteCodeLen) = b
      have owned : b.owned =
          atomRefs b.codeAtoms + (atomRefs (vardefs.map Prod.fst) + b.names) := by
        subst made
        simp only [FunctionBlock.owned, functionBlock, DebugBlock.owned, Held.ownedAll_nil, zero_add]
      rw [← owned]
      refine (accounts_readDebugIf h.hasDebug (by subst made; rfl)).bind fun b => ?_
      exact (accounts_readCpool reads _ b).bind fun b => accounts_pure rfl

end Function

end PrimJs.Accounted
