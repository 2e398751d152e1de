import PrimJs.Bytecode.Bytes
import PrimJs.Bytecode.Opcode
import PrimJs.Foundation.StateReader
import PrimJs.Serialize.Value

/-! The binary object reader. Allocation succeeds within the limits the source states. -/

namespace PrimJs

open StateReader

inductive BCTag where
  | null | undefined | boolFalse | boolTrue | int32 | float64 | string | object | array
  | bigInt | bigFloat | templateObject | functionBytecode | module
  deriving DecidableEq, Repr

namespace BCTag

def number : BCTag → Nat
  | null => 1
  | undefined => 2
  | boolFalse => 3
  | boolTrue => 4
  | int32 => 5
  | float64 => 6
  | string => 7
  | object => 8
  | array => 9
  | bigInt => 10
  | bigFloat => 11
  | templateObject => 12
  | functionBytecode => 13
  | module => 14

def ofNumber (n : Nat) : Option BCTag :=
  [null, undefined, boolFalse, boolTrue, int32, float64, string, object, array, bigInt, bigFloat,
    templateObject, functionBytecode, module].find? fun tag => tag.number = n

end BCTag

def bcVersion : Nat := 1
def bcNewPrefix : Nat := 0x8
def versionPlaceholder : Nat := 0xCAB00000
def newDebuginfoFlag : Nat := 0x100000000
def stripVarinfoFlag : Nat := 0x200000000

def lepusjsFilename : String := "file://lepus.js"
def lepusngFunctionidStr : String := "__lepusNG_function_id__"

def jsStringLenMax : Nat := 2^30 - 1

def lepusGetPrimjsVersion : Nat :=
  (opShippableCount + 16 + (jsAtomEnd - 1)) ||| versionPlaceholder

/-- The build's structure sizes and limb width. -/
structure JSLayout where
  sizeofFunctionBytecode : Nat
  offsetofDebug : Nat
  sizeofValue : Nat
  sizeofVarDef : Nat
  sizeofClosureVar : Nat
  limbBytes : Nat
  deriving DecidableEq, Repr

structure LEPUSContext where
  layout : JSLayout
  atoms : AtomTable
  debuginfoOutside : Nat
  binaryVersion : Nat
  varinfoOutside : Bool

structure BCReaderState where
  ctx : LEPUSContext
  /-- The bytes from `ptr` to `buf_end`. -/
  rest : List UInt8
  /-- `ptr - buf_start`. -/
  pos : Nat
  firstAtom : Nat
  idxToAtom : List Nat
  allowBytecode : Bool
  isRomData : Bool

inductive BCError where
  | readAfterEnd
  | invalidAtomIndex (pos : Nat)
  | invalidOpcode (op pc : Nat)
  | invalidBytecodeIndex (index pc : Nat)
  | invalidClosureVariableIndex (index limit : Nat)
  | invalidTag (tag pos : Nat)
  | invalidVersion (version : Nat)
  | versionHigherThanRuntime
  | bigIntTooLarge
  | outOfMemory
  /-- A `goto fail` that sets no exception of its own. -/
  | rejected
  deriving DecidableEq, Repr

namespace BCError

def message : BCError → String
  | readAfterEnd => "read after the end of the buffer"
  | invalidAtomIndex pos => "invalid atom index (pos=" ++ toString pos ++ ")"
  | invalidOpcode op pc => "invalid opcode (op=" ++ toString op ++ " pc=" ++ toString pc ++ ")"
  | invalidBytecodeIndex index pc =>
      "invalid bytecode index (index=" ++ toString index ++ " pc=" ++ toString pc ++ ")"
  | invalidClosureVariableIndex index limit =>
      "invalid closure variable index (index=" ++ toString index ++ " limit=" ++
        toString limit ++ ")"
  | invalidTag tag pos => "invalid tag (tag=" ++ toString tag ++ " pos=" ++ toString pos ++ ")"
  | invalidVersion version =>
      "invalid version (" ++ toString version ++ " expected=" ++ toString bcVersion ++ ")"
  | versionHigherThanRuntime => "the binary version is higher than runtime"
  | bigIntTooLarge => "BigInt is too large to allocate"
  | outOfMemory => "out of memory"
  | rejected => ""

end BCError

abbrev BCRead (α : Type) := EStateM BCError BCReaderState α

def BCReaderState.advance (s : BCReaderState) (n : Nat) : BCReaderState :=
  { s with rest := s.rest.drop n, pos := s.pos + n }

/-- Takes the next `n` bytes, the common part of the fixed-width readers. -/
def bcTake (n : Nat) : BCRead (List UInt8) := do
  let s ← get
  require (n ≤ s.rest.length) .readAfterEnd
  set (s.advance n)
  pure (s.rest.take n)

def bcGetU8 : BCRead Nat := (getU8 · 0) <$> bcTake 1

def bcGetU16 : BCRead Nat := (getU16 · 0) <$> bcTake 2

def bcGetU32 : BCRead Nat := (getU32 · 0) <$> bcTake 4

def bcGetU64 : BCRead Nat := (getU64 · 0) <$> bcTake 8

def bcGetBuf (bufLen : Nat) : BCRead (List UInt8) := bcTake bufLen

def bcGetLeb128 : BCRead Nat := do
  let s ← get
  match getLeb128 s.rest with
  | some (v, rest) => do
      set { s with rest, pos := s.pos + (s.rest.length - rest.length) }
      pure v
  | none => throw .readAfterEnd

def bcGetSleb128 : BCRead Int := sleb128Value <$> bcGetLeb128

def bcGetLeb128Int : BCRead Int := toInt32 <$> bcGetLeb128

def bcGetLeb128U16 : BCRead Nat := (· % 2^16) <$> bcGetLeb128

def bcIdxToAtom (idx : Nat) : BCRead Nat := do
  let s ← get
  if jsAtomIsTaggedInt idx then pure idx
  else if idx < s.firstAtom then pure idx
  else
    match s.idxToAtom[idx - s.firstAtom]? with
    | some atom => pure atom
    | none => throw (.invalidAtomIndex s.pos)

def bcGetAtom : BCRead Nat := do
  let v ← bcGetLeb128
  if v % 2 = 1 then pure (jsAtomFromUInt32 (v / 2)) else bcIdxToAtom (v / 2)

def decodeString (isWideChar : Bool) (bytes : List UInt8) : JSString :=
  if isWideChar then
    .str16 ((List.range (bytes.length / 2)).map fun i => UInt16.ofNat (getU16 bytes (2 * i)))
  else .str8 bytes

def stringSize (isWideChar : Bool) (len : Nat) : Nat := if isWideChar then 2 * len else len

def jsReadString : BCRead JSString := do
  let encodedLen ← bcGetLeb128
  let isWideChar := encodedLen % 2 = 1
  let len := encodedLen / 2
  require (len ≤ jsStringLenMax) .outOfMemory
  decodeString isWideChar <$> bcTake (stringSize isWideChar len)

/-- `JS_NewAtomRawString` and `LEPUS_NewAtom` on the runtime's table. -/
def bcNewAtom (str : JSString) : BCRead Nat := do
  let s ← get
  match s.ctx.atoms.jsNewAtomStr str with
  | some (atom, atoms) => do
      set { s with ctx := { s.ctx with atoms } }
      pure atom
  | none => throw .outOfMemory

def jsReadAtomString : BCRead Nat := do
  let encodedLen ← bcGetLeb128
  let isWideChar := encodedLen % 2 = 1
  let len := encodedLen / 2
  let str ← bcTake (stringSize isWideChar len)
  require (len ≤ jsStringLenMax) .outOfMemory
  bcNewAtom (decodeString isWideChar str)

def bcGetFlags (flags idx n : Nat) : Nat := flags / 2^idx % 2^n

def flagBit (flags idx : Nat) : Bool := bcGetFlags flags idx 1 = 1

inductive BytecodeIndexKind where
  | none | implicitLocal | implicitArg | implicitClosure | u8Local | u8Cpool | u16Local
  | u16Arg | u16Closure | u32Cpool | u16At5Local | u16At5Arg | u16At5Closure
  deriving DecidableEq, Repr

/-- The `BC_INDEX_*` macros. -/
def bytecodeIndexKind (op : Nat) : BytecodeIndexKind :=
  match (shortOpcodeInfo op).fmt with
  | .noneLoc => .implicitLocal
  | .noneArg => .implicitArg
  | .noneVarRef => .implicitClosure
  | .loc8 => .u8Local
  | .const8 => .u8Cpool
  | .loc => .u16Local
  | .arg => .u16Arg
  | .varRef => .u16Closure
  | .const => .u32Cpool
  | .atomU16 =>
      if op = opMakeLocRef then .u16At5Local
      else if op = opMakeArgRef then .u16At5Arg
      else if op = opMakeVarRefRef then .u16At5Closure
      else .none
  | _ => .none

def bytecodeHasAtom (op : Nat) : Bool :=
  match (shortOpcodeInfo op).fmt with
  | .atom | .atomU8 | .atomU16 | .atomLabelU8 | .atomLabelU16 => true
  | _ => false

/-- The index an instruction carries and the count it must stay below. -/
def bytecodeIndex (b : LEPUSFunctionBytecode) (bcBuf : List UInt8) (pos : Nat) :
    Option (Nat × Nat) :=
  let op := getU8 bcBuf pos
  match bytecodeIndexKind op with
  | .none => none
  | .implicitLocal => some ((op - opGetLoc0) % 4, b.varCount)
  | .u8Local => some (getU8 bcBuf (pos + 1), b.varCount)
  | .u16Local => some (getU16 bcBuf (pos + 1), b.varCount)
  | .implicitArg => some ((op - opGetArg0) % 4, b.argCount)
  | .u16Arg => some (getU16 bcBuf (pos + 1), b.argCount)
  | .implicitClosure => some ((op - opGetVarRef0) % 4, b.closureVarCount)
  | .u16Closure => some (getU16 bcBuf (pos + 1), b.closureVarCount)
  | .u8Cpool => some (getU8 bcBuf (pos + 1), b.cpoolCount)
  | .u32Cpool => some (getU32 bcBuf (pos + 1), b.cpoolCount)
  | .u16At5Local => some (getU16 bcBuf (pos + 5), b.varCount)
  | .u16At5Arg => some (getU16 bcBuf (pos + 5), b.argCount)
  | .u16At5Closure => some (getU16 bcBuf (pos + 5), b.closureVarCount)

def checkBytecodeIndex (b : LEPUSFunctionBytecode) (bcBuf : List UInt8) (pos : Nat) :
    BCRead Unit :=
  match bytecodeIndex b bcBuf pos with
  | some (idx, limit) => require (idx < limit) (.invalidBytecodeIndex idx pos)
  | none => pure ()

/-- Replaces the atom operand of the instruction at `pos` by the runtime's atom. -/
def fixupAtom (bcBuf : List UInt8) (pos : Nat) : BCRead (List UInt8) := do
  let s ← get
  if bytecodeHasAtom (getU8 bcBuf pos) ∧ s.isRomData = false then do
    let atom ← bcIdxToAtom (getU32 bcBuf (pos + 1))
    pure (putU32 bcBuf (pos + 1) atom)
  else pure bcBuf

/-- The loop of `JS_ReadFunctionBytecode`; an instruction has at least one byte, so `bc_len`
rounds are enough. -/
def checkBytecodeLoop (b : LEPUSFunctionBytecode) : Nat → Nat → List UInt8 → BCRead (List UInt8)
  | 0, _, bcBuf => pure bcBuf
  | fuel + 1, pos, bcBuf =>
      if pos < bcBuf.length then do
        let op := getU8 bcBuf pos
        require (op ≠ opInvalid ∧ op < opShippableCount) (.invalidOpcode op pos)
        let len := opSize op
        require (len ≠ 0 ∧ len ≤ bcBuf.length - pos) .readAfterEnd
        checkBytecodeIndex b bcBuf pos
        let bcBuf ← fixupAtom bcBuf pos
        checkBytecodeLoop b fuel (pos + len) bcBuf
      else pure bcBuf

def jsReadFunctionBytecode (b : LEPUSFunctionBytecode) (bcLen : Nat) : BCRead (List UInt8) := do
  let bcBuf ← bcGetBuf bcLen
  checkBytecodeLoop b bcLen 0 bcBuf

def parentCount (parent : LEPUSFunctionBytecode) (closure : LEPUSClosureVar) : Nat :=
  if !closure.isLocal then parent.closureVarCount
  else if closure.isArg then parent.argCount
  else parent.varCount

def checkClosureVars (parent : LEPUSFunctionBytecode) : List LEPUSClosureVar → BCRead Unit
  | [] => pure ()
  | closure :: rest => do
      require (closure.varIdx < parentCount parent closure)
        (.invalidClosureVariableIndex closure.varIdx (parentCount parent closure))
      checkClosureVars parent rest

def jsValidateChildClosureVars (parent : LEPUSFunctionBytecode) : BCValue → BCRead Unit
  | .functionBytecode child _ => checkClosureVars parent child.closureVar
  | _ => pure ()

def readVarDef : BCRead JSBytecodeVarDef := do
  let varName ← bcGetAtom
  let scopeLevel ← bcGetLeb128Int
  let scopeNext ← bcGetLeb128Int
  require (0 ≤ scopeLevel ∧ scopeLevel ≤ 0xffffff) .rejected
  let v8 ← bcGetU8
  pure {
    varName
    -- `scope_next--` wraps as the machine's 32-bit decrement does
    scopeNext := toInt32 (ofInt32 (scopeNext - 1))
    scopeLevel := scopeLevel.toNat
    varKind := bcGetFlags v8 0 4
    isConst := flagBit v8 4
    isLexical := flagBit v8 5
    isCaptured := flagBit v8 6 }

def readClosureVar : BCRead LEPUSClosureVar := do
  let varName ← bcGetAtom
  let varIdx ← bcGetLeb128
  let v8 ← bcGetU8
  pure {
    varName
    varIdx := varIdx % 2^16
    isLocal := flagBit v8 0
    isArg := flagBit v8 1
    isConst := flagBit v8 2
    isLexical := flagBit v8 3
    varKind := bcGetFlags v8 4 4 }

structure FunctionHeader where
  fields : LEPUSFunctionBytecode
  hasDebug : Bool
  closureVarCount : Nat
  byteCodeLen : Nat
  localCount : Nat

/-- The record a serialized function starts with, up to `local_count`. -/
def readFunctionHeader : BCRead FunctionHeader := do
  let v16 ← bcGetU16
  let s ← get
  let jsMode ← bcGetU8
  let funcName ← bcGetAtom
  let argCount ← bcGetLeb128U16
  let varCount ← bcGetLeb128U16
  let definedArgCount ← bcGetLeb128U16
  let stackSize ← bcGetLeb128U16
  let closureVarCount ← bcGetLeb128Int
  let cpoolCount ← bcGetLeb128Int
  let byteCodeLen ← bcGetLeb128Int
  let localCount ← bcGetLeb128Int
  require (0 ≤ closureVarCount ∧ 0 ≤ cpoolCount ∧ 0 ≤ byteCodeLen ∧ 0 ≤ localCount) .rejected
  pure {
    fields := {
      jsMode
      hasPrototype := flagBit v16 0
      hasSimpleParameterList := flagBit v16 1
      isDerivedClassConstructor := flagBit v16 2
      needHomeObject := flagBit v16 3
      funcKind := bcGetFlags v16 4 2
      newTargetAllowed := flagBit v16 6
      superCallAllowed := flagBit v16 7
      superAllowed := flagBit v16 8
      argumentsAllowed := flagBit v16 9
      readOnlyBytecode := s.isRomData
      hasEvalCall := false
      byteCodeBuf := []
      funcName
      vardefs := []
      closureVar := []
      argCount
      varCount
      definedArgCount
      stackSize
      cpoolCount := cpoolCount.toNat
      functionId := 0
      runtimeId := 0
      debug := none }
    hasDebug := flagBit v16 10
    closureVarCount := closureVarCount.toNat
    byteCodeLen := byteCodeLen.toNat
    localCount := localCount.toNat }

/-- `function_size`; a sum that would pass `SIZE_MAX` is also above `INT32_MAX`. -/
def functionSize (layout : JSLayout) (h : FunctionHeader) : Nat :=
  (if h.hasDebug then layout.sizeofFunctionBytecode else layout.offsetofDebug) +
    h.fields.cpoolCount * layout.sizeofValue + h.localCount * layout.sizeofVarDef +
    h.closureVarCount * layout.sizeofClosureVar +
    (if h.fields.readOnlyBytecode then 0 else h.byteCodeLen)

/-- `LEPUS_NewAtom(ctx, lepusjs_filename)`; its failure leaves `JS_ATOM_NULL` behind. -/
def newFilenameAtom : BCRead Nat := do
  let s ← get
  match s.ctx.atoms.jsNewAtomStr (asciiString lepusjsFilename) with
  | some (atom, atoms) => do
      set { s with ctx := { s.ctx with atoms } }
      pure atom
  | none => pure jsAtomNull

/-- The file name and function id under the three settings of `debuginfo_outside`. -/
def adjustDebugInfo (filename : Nat) (lineNum : Int) : BCRead (Nat × Nat) := do
  let s ← get
  let functionId := ofInt32 (lineNum + 1)
  if s.ctx.debuginfoOutside = 1 then
    if s.ctx.binaryVersion / newDebuginfoFlag % 2 = 0 then do
      let filename ← newFilenameAtom
      pure (filename, functionId)
    else pure (filename, functionId)
  else if s.ctx.debuginfoOutside = 2 then
    if s.ctx.atoms.keyCodes filename = (asciiString lepusngFunctionidStr).codes then do
      set { s with ctx := { s.ctx with debuginfoOutside := 1 } }
      let filename ← newFilenameAtom
      pure (filename, functionId)
    else do
      set { s with ctx := { s.ctx with debuginfoOutside := 0 } }
      pure (filename, 0)
  else pure (filename, 0)

def readDebug (b : LEPUSFunctionBytecode) : BCRead LEPUSFunctionBytecode := do
  let filename ← bcGetAtom
  let lineNum ← bcGetLeb128Int
  let (filename, functionId) ← adjustDebugInfo filename lineNum
  let pc2lineLen ← bcGetLeb128Int
  require (0 ≤ pc2lineLen) .outOfMemory
  let pc2lineBuf ← bcGetBuf pc2lineLen.toNat
  pure { b with functionId, debug := some { filename, lineNum, pc2lineBuf } }

def readConstant (readRec : BCRead BCValue) (b : LEPUSFunctionBytecode) : BCRead BCValue := do
  let val ← readRec
  jsValidateChildClosureVars b val
  pure val

def readCpool (readRec : BCRead BCValue) (b : LEPUSFunctionBytecode) : BCRead (List BCValue) :=
  readN b.cpoolCount (readConstant readRec b)

def jsReadFunction (readRec : BCRead BCValue) : BCRead BCValue := do
  let s ← get
  require (s.allowBytecode = true) .rejected
  let h ← readFunctionHeader
  require (functionSize s.ctx.layout h ≤ 2^31 - 1) .rejected
  let vardefs ← readN h.localCount readVarDef
  let closureVar ← readN h.closureVarCount readClosureVar
  let b := { h.fields with vardefs, closureVar }
  let byteCodeBuf ← jsReadFunctionBytecode b h.byteCodeLen
  let b := { b with byteCodeBuf }
  let b ← if h.hasDebug then readDebug b else pure b
  let cpool ← readCpool readRec b
  pure (.functionBytecode b cpool)

def readCount : BCRead Nat := do
  let count ← bcGetLeb128Int
  -- the table of a negative count is refused by the allocator
  require (0 ≤ count) .outOfMemory
  pure count.toNat

def readExportEntry : BCRead JSExportEntry := do
  let exportType ← bcGetU8
  let idx ← bcGetLeb128Int
  let localName ← if exportType = jsExportTypeLocal then pure jsAtomNull else bcGetAtom
  let exportName ← bcGetAtom
  pure { exportType, idx, localName, exportName }

def readImportEntry : BCRead JSImportEntry := do
  let varIdx ← bcGetLeb128Int
  let importName ← bcGetAtom
  let reqModuleIdx ← bcGetLeb128Int
  pure { varIdx, importName, reqModuleIdx }

def readTable {α : Type} (read : BCRead α) : BCRead (List α) := do
  let count ← readCount
  readN count read

def jsReadModule (readRec : BCRead BCValue) : BCRead BCValue := do
  let s ← get
  require (s.allowBytecode = true) .rejected
  let moduleName ← bcGetAtom
  let reqModuleEntries ← readTable bcGetAtom
  let exportEntries ← readTable readExportEntry
  let starExportEntries ← readTable bcGetLeb128Int
  let importEntries ← readTable readImportEntry
  let funcObj ← readRec
  pure (.module
    { moduleName, reqModuleEntries, exportEntries, starExportEntries, importEntries } funcObj)

/-- `LEPUS_DefinePropertyValue` on an extensible plain object. -/
def definePropertyValue : List (Nat × BCValue) → Nat → BCValue → List (Nat × BCValue)
  | [], atom, val => [(atom, val)]
  | (a, v) :: props, atom, val =>
      if a = atom then (a, val) :: props else (a, v) :: definePropertyValue props atom val

def readProps (readRec : BCRead BCValue) :
    Nat → List (Nat × BCValue) → BCRead (List (Nat × BCValue))
  | 0, props => pure props
  | n + 1, props => do
      let atom ← bcGetAtom
      let val ← readRec
      readProps readRec n (definePropertyValue props atom val)

def jsReadObjectTag (readRec : BCRead BCValue) : BCRead BCValue := do
  let propCount ← bcGetLeb128
  let props ← readProps readRec propCount []
  pure (.object props)

def jsReadArray (readRec : BCRead BCValue) (isTemplate : Bool) : BCRead BCValue := do
  let len ← bcGetLeb128
  let elems ← readN len readRec
  if isTemplate then do
    let raw ← readRec
    pure (.templateObject elems raw)
  else pure (.array elems)

def bcGetLimb (limbBytes : Nat) : BCRead Nat := if limbBytes = 4 then bcGetU32 else bcGetU64

def readPartialLimb (limbBytes n : Nat) : BCRead Nat := do
  let bytes ← readN n bcGetU8
  let v := bytes.foldr (fun v8 v => v8 + 256 * v) 0
  pure (if v ≥ 2^(8 * n - 1) then v + 2^(8 * limbBytes) - 2^(8 * n) else v)

def jsBigintMaxSize (limbBytes : Nat) : Nat := 1024 * 1024 / (8 * limbBytes)

def jsReadBigInt : BCRead BCValue := do
  let s ← get
  let limbBytes := s.ctx.layout.limbBytes
  let len ← bcGetLeb128
  require (((len + 2^32 - 1) % 2^32) / limbBytes + 1 ≤ jsBigintMaxSize limbBytes) .bigIntTooLarge
  let limbs ← readN (len / limbBytes) (bcGetLimb limbBytes)
  if len % limbBytes ≠ 0 then do
    let last ← readPartialLimb limbBytes (len % limbBytes)
    pure (.bigInt (limbs ++ [last]))
  else pure (.bigInt limbs)

/-- `JS_ReadObjectRec`. Every call reads a tag first, so as many nested calls as there are bytes
left are enough, and the call after them fails at the end of the buffer. -/
def jsReadObjectRec : Nat → BCRead BCValue
  | 0 => throw .readAfterEnd
  | fuel + 1 => do
      let tag ← bcGetU8
      let s ← get
      match BCTag.ofNumber tag with
      | some .null => pure .null
      | some .undefined => pure .undefined
      | some .boolFalse => pure (.bool false)
      | some .boolTrue => pure (.bool true)
      | some .int32 => BCValue.int32 <$> bcGetSleb128
      | some .float64 => BCValue.float64 <$> bcGetU64
      | some .string => BCValue.string <$> jsReadString
      | some .functionBytecode => jsReadFunction (jsReadObjectRec fuel)
      | some .module => jsReadModule (jsReadObjectRec fuel)
      | some .object => jsReadObjectTag (jsReadObjectRec fuel)
      | some .array => jsReadArray (jsReadObjectRec fuel) false
      | some .templateObject => jsReadArray (jsReadObjectRec fuel) true
      | some .bigInt => jsReadBigInt
      | some .bigFloat | none => throw (.invalidTag tag s.pos)

def jsCheckBytecodeVersion (v64 : Nat) : Bool := lepusGetPrimjsVersion % 2^32 < v64 % 2^32

def readVersion : BCRead Unit := do
  let v8 ← bcGetU8
  if v8 ≠ bcVersion then
    if v8 = bcVersion + bcNewPrefix then do
      let v64 ← bcGetU64
      require (jsCheckBytecodeVersion v64 = false) .versionHigherThanRuntime
      modify fun s => { s with ctx := { s.ctx with
        binaryVersion := v64
        debuginfoOutside :=
          if v64 / newDebuginfoFlag % 2 = 1 then 1 else s.ctx.debuginfoOutside
        varinfoOutside := v64 / stripVarinfoFlag % 2 = 1 || s.ctx.varinfoOutside } }
    else throw (.invalidVersion v8)
  else pure ()

/-- Atoms that do not land on their own numbers have to be relocated, in ROM data too. -/
def relocatesRom (firstAtom : Nat) (idxToAtom : List Nat) : Bool :=
  idxToAtom ≠ List.range' firstAtom idxToAtom.length

def jsReadObjectAtoms : BCRead Unit := do
  readVersion
  let idxToAtomCount ← bcGetLeb128
  let idxToAtom ← readN idxToAtomCount jsReadAtomString
  modify fun s => { s with
    idxToAtom
    isRomData := s.isRomData && !relocatesRom s.firstAtom idxToAtom }

structure ReadFlags where
  bytecode : Bool
  romData : Bool
  deriving DecidableEq, Repr

def firstAtomOf (allowBytecode : Bool) : Nat := if allowBytecode then jsAtomEnd else 1

def initReader (ctx : LEPUSContext) (buf : List UInt8) (flags : ReadFlags) : BCReaderState where
  ctx
  rest := buf
  pos := 0
  firstAtom := firstAtomOf flags.bytecode
  idxToAtom := []
  allowBytecode := flags.bytecode
  isRomData := flags.romData

def lepusReadObject : BCRead BCValue := do
  jsReadObjectAtoms
  let s ← get
  jsReadObjectRec s.rest.length

end PrimJs
