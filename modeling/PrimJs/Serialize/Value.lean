import PrimJs.Runtime.AtomTable

/-! The values of the binary object format. -/

namespace PrimJs

structure JSBytecodeVarDef where
  varName : Nat
  scopeNext : Int
  scopeLevel : Nat
  isConst : Bool
  isLexical : Bool
  isCaptured : Bool
  varKind : Nat
  deriving DecidableEq, Repr

structure LEPUSClosureVar where
  isLocal : Bool
  isArg : Bool
  isConst : Bool
  isLexical : Bool
  varKind : Nat
  varIdx : Nat
  varName : Nat
  deriving DecidableEq, Repr

structure JSDebugInfo where
  filename : Nat
  lineNum : Int
  pc2lineBuf : List UInt8
  deriving DecidableEq, Repr

/-- A function's own data; its constant pool is kept by `BCValue.functionBytecode`. No
variable definitions is the null `vardefs` pointer. -/
structure LEPUSFunctionBytecode where
  jsMode : Nat
  hasPrototype : Bool
  hasSimpleParameterList : Bool
  isDerivedClassConstructor : Bool
  needHomeObject : Bool
  funcKind : Nat
  newTargetAllowed : Bool
  superCallAllowed : Bool
  superAllowed : Bool
  argumentsAllowed : Bool
  readOnlyBytecode : Bool
  hasEvalCall : Bool
  byteCodeBuf : List UInt8
  funcName : Nat
  vardefs : List JSBytecodeVarDef
  closureVar : List LEPUSClosureVar
  argCount : Nat
  varCount : Nat
  definedArgCount : Nat
  stackSize : Nat
  cpoolCount : Nat
  functionId : Nat
  runtimeId : Int
  debug : Option JSDebugInfo
  deriving DecidableEq, Repr

namespace LEPUSFunctionBytecode

def hasDebug (b : LEPUSFunctionBytecode) : Bool := b.debug.isSome

def closureVarCount (b : LEPUSFunctionBytecode) : Nat := b.closureVar.length

end LEPUSFunctionBytecode

def jsExportTypeLocal : Nat := 0

structure JSExportEntry where
  exportType : Nat
  /-- `u.local.var_idx` of a local export, `u.req_module_idx` of an indirect one. -/
  idx : Int
  localName : Nat
  exportName : Nat
  deriving DecidableEq, Repr

structure JSImportEntry where
  varIdx : Int
  importName : Nat
  reqModuleIdx : Int
  deriving DecidableEq, Repr

structure LEPUSModuleDef where
  moduleName : Nat
  reqModuleEntries : List Nat
  exportEntries : List JSExportEntry
  starExportEntries : List Int
  importEntries : List JSImportEntry
  deriving DecidableEq, Repr

inductive BCValue where
  | null
  | undefined
  | bool (b : Bool)
  | int32 (v : Int)
  | float64 (bits : Nat)
  | string (str : JSString)
  | bigInt (tab : List Nat)
  | array (elems : List BCValue)
  | templateObject (elems : List BCValue) (raw : BCValue)
  | object (props : List (Nat × BCValue))
  | functionBytecode (b : LEPUSFunctionBytecode) (cpool : List BCValue)
  | module (m : LEPUSModuleDef) (funcObj : BCValue)
  deriving Repr

namespace BCValue

/-- `v` occurs in a value, itself included. -/
inductive Inside (v : BCValue) : BCValue → Prop where
  | self : Inside v v
  | elem {w : BCValue} {elems : List BCValue} (member : w ∈ elems) (inside : Inside v w) :
      Inside v (array elems)
  | templateElem {w raw : BCValue} {elems : List BCValue} (member : w ∈ elems)
      (inside : Inside v w) : Inside v (templateObject elems raw)
  | templateRaw {raw : BCValue} {elems : List BCValue} (inside : Inside v raw) :
      Inside v (templateObject elems raw)
  | prop {w : BCValue} {a : Nat} {props : List (Nat × BCValue)} (member : (a, w) ∈ props)
      (inside : Inside v w) : Inside v (object props)
  | constant {w : BCValue} {b : LEPUSFunctionBytecode} {cpool : List BCValue}
      (member : w ∈ cpool) (inside : Inside v w) : Inside v (functionBytecode b cpool)
  | moduleFunc {m : LEPUSModuleDef} {funcObj : BCValue} (inside : Inside v funcObj) :
      Inside v (module m funcObj)

end BCValue

end PrimJs
