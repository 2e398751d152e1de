import PrimJs.Inspector.PcLine

/-! The breakpoints of the debugger: the list, the map from bytecode locations and the counters
of the functions, with the requests that change them. Allocation succeeds. -/

namespace PrimJs

structure LEPUSScriptSource where
  id : Int
  url : Option String
  hash : Option String
  deriving DecidableEq, Repr

/-- What the debugger reads of a function in `bytecode_list`; `script` is the script's id. -/
structure DebuggerBytecode where
  script : Option Int
  hasDebug : Bool
  lineNum : Int
  endLineNum : Int
  pc2lineBuf : List UInt8
  bpNum : Int
  deriving DecidableEq, Repr

/-- The string object of a breakpoint id: its address and its text. -/
structure BreakpointId where
  ptr : Nat
  text : String
  deriving DecidableEq, Repr

/-- An address in the bytecode of a function of `bytecode_list`. -/
structure BytecodePc where
  function : Nat
  offset : Int
  deriving DecidableEq, Repr

structure LEPUSBreakpoint where
  breakpointId : BreakpointId
  scriptUrl : String
  scriptId : Int
  line : Int
  column : Int
  condition : Option String
  pc : Option BytecodePc
  specificLocation : Bool
  b : Option Nat
  deriving DecidableEq, Repr

/-- `bps` holds the written slots; those from `breakpoints_num` on are left over. -/
structure LEPUSDebuggerInfo where
  scriptList : List LEPUSScriptSource
  bytecodeList : List DebuggerBytecode
  bps : List LEPUSBreakpoint
  breakpointsNum : Nat
  nextBreakpointId : Nat
  breakBytecodeMap : List (BytecodePc × BreakpointId)
  breakpointsIsActive : Bool
  nextScriptId : Nat
  deriving DecidableEq, Repr

namespace DebuggerBytecode

variable (b : DebuggerBytecode)

def notInCurrentFunc (scriptId bpLine : Int) : Bool :=
  !b.hasDebug || b.script ≠ some scriptId || bpLine < b.lineNum - 1 ||
    (0 < b.endLineNum && b.endLineNum - 1 < bpLine)

def lines : List (Int × LineCol) := pcLines b.lineNum b.pc2lineBuf

/-- The offset of the first round at this line and column, behind `byte_code_buf`. -/
def breakOffset (bp : LEPUSBreakpoint) : Option Int :=
  (b.lines.find? fun round =>
    !(round.2.line = -1 && round.2.column = -1) &&
      (bp.line = round.2.line && bp.column = round.2.column)).map fun round => round.1 + 1

end DebuggerBytecode

def adjustSatisfy (at_ bp closed : LineCol) : Bool :=
  closed.line = -1 ||
    (at_.line ≠ bp.line && at_.line - bp.line < closed.line - bp.line) ||
    (at_.line = bp.line && at_.line = closed.line &&
      at_.column - bp.column < closed.column - bp.column) ||
    (at_.line = bp.line && bp.line ≠ closed.line)

def adjustRound (b : DebuggerBytecode) (bp closed at_ : LineCol) : LineCol :=
  if at_.line < bp.line || at_.line < b.lineNum - 1 ||
      (closed.line ≠ -1 && closed.line < at_.line) ||
      (at_.line = bp.line && at_.column < bp.column) then closed
  else if adjustSatisfy at_ bp closed then at_ else closed

namespace LEPUSDebuggerInfo

variable (info : LEPUSDebuggerInfo)

def getScriptByHash (hash : String) : Option LEPUSScriptSource :=
  info.scriptList.find? fun script => script.hash = some hash

def getScriptByScriptURL (url : String) : Option LEPUSScriptSource :=
  info.scriptList.find? fun script => script.url = some url

def getScriptURLByScriptId (scriptId : Int) : Option String :=
  (info.scriptList.find? fun script => script.id = scriptId).bind LEPUSScriptSource.url

def breakpointSource (url : String) (hash : Option String) : Option LEPUSScriptSource :=
  if url ≠ "" then info.getScriptByScriptURL url
  else match hash with
    | some hash => if hash ≠ "" then info.getScriptByHash hash else none
    | none => none

/-- `AdjustBreakpoint`: the breakpoint moves to the nearest location of its script. -/
def adjustBreakpoint (url : String) (hash : Option String) (bp : LEPUSBreakpoint) :
    LEPUSBreakpoint :=
  match info.breakpointSource url hash with
  | none => bp
  | some bsrc =>
      let bpAt : LineCol := ⟨bp.line, wrapInt32 bp.column⟩
      let functions := info.bytecodeList.filter fun b =>
        b.hasDebug && b.script = some bsrc.id && !b.notInCurrentFunc bp.scriptId bp.line
      let closed : LineCol := functions.foldl (fun closed b =>
        b.lines.foldl (fun closed round => adjustRound b bpAt closed round.2) closed) ⟨-1, -1⟩
      let bp := if 0 ≤ closed.column ∧ 0 ≤ closed.line then
          { bp with line := closed.line, column := closed.column } else bp
      { bp with scriptId := if bp.scriptId = -1 then -1 else bsrc.id }

/-- The first location in `functions` that a breakpoint names, counting from function `n` on. -/
def findIn (bp : LEPUSBreakpoint) : List DebuggerBytecode → Nat → Option BytecodePc
  | [], _ => none
  | b :: rest, n =>
      match if b.notInCurrentFunc bp.scriptId bp.line then none else b.breakOffset bp with
      | some offset => some ⟨n, offset⟩
      | none => findIn bp rest (n + 1)

/-- The location `FindBreakpointBytecode` returns. -/
def breakpointPc (bp : LEPUSBreakpoint) : Option BytecodePc :=
  if bp.scriptId = -1 then none else findIn bp info.bytecodeList 0

def addBpNum (delta : Int) (function : Nat) (functions : List DebuggerBytecode) :
    List DebuggerBytecode :=
  functions.modify function fun b => { b with bpNum := b.bpNum + delta }

def writeBreakpoint (i : Nat) (bp : LEPUSBreakpoint) : LEPUSDebuggerInfo :=
  { info with bps := info.bps.take i ++ bp :: info.bps.drop (i + 1) }

def tryEmplace (pc : BytecodePc) (id : BreakpointId) : LEPUSDebuggerInfo :=
  { info with breakBytecodeMap :=
      if (info.breakBytecodeMap.lookup pc).isSome then info.breakBytecodeMap
      else info.breakBytecodeMap ++ [(pc, id)] }

/-- `FindBreakpointBytecode` with what its callers do next: the function counts the breakpoint,
the map gets its entry and slot `i` the breakpoint. -/
def bindBreakpoint (i : Nat) (bp : LEPUSBreakpoint) : LEPUSDebuggerInfo :=
  match info.breakpointPc bp with
  | some pc =>
      let info := { info with bytecodeList := addBpNum 1 pc.function info.bytecodeList }
      (info.tryEmplace pc bp.breakpointId).writeBreakpoint i
        { bp with b := some pc.function, pc := some pc }
  | none => info.writeBreakpoint i bp

/-- The parameters of `Debugger.setBreakpointByUrl`, converted. -/
structure SetBreakpointParams where
  lineNumber : Int
  columnNumber : Option Int
  scriptId : Option Int
  scriptHash : Option String
  url : Option String
  condition : Option String
  deriving DecidableEq, Repr

/-- The script id of `GetSetBpByURLParams`: the one given, else that of the hash, else that of
the url. -/
def paramScriptId (params : SetBreakpointParams) : Int :=
  let byHash := (params.scriptHash.bind info.getScriptByHash).map LEPUSScriptSource.id
  let byUrl := (params.url.bind info.getScriptByScriptURL).map LEPUSScriptSource.id
  let scriptId := params.scriptId.getD (-1)
  let scriptId := if scriptId = -1 then byHash.getD (-1) else scriptId
  if scriptId = -1 then byUrl.getD (-1) else scriptId

def paramUrl (params : SetBreakpointParams) : String :=
  params.url.getD ((info.getScriptURLByScriptId (info.paramScriptId params)).getD "")

def paramCondition (params : SetBreakpointParams) : Option String :=
  params.condition.filter (· ≠ "")

def isBreakpointEqual (a : LEPUSBreakpoint) (scriptId : Int) (scriptUrl : String)
    (lineNumber columnNumber : Int) (condition : Option String) : Bool :=
  a.scriptId = scriptId && a.scriptUrl = scriptUrl && a.line = lineNumber &&
    a.column = columnNumber && a.condition = condition

def generateBreakpointId (url : String) (scriptHash : Option String)
    (lineNumber columnNumber : Int) : String :=
  let str := if url = "" then scriptHash.getD "" else url
  "1:" ++ toString lineNumber ++ ":" ++ toString columnNumber ++ ":" ++ str

def liveBreakpoints : List LEPUSBreakpoint := info.bps.take info.breakpointsNum

def equalIndex (params : SetBreakpointParams) : Option Nat :=
  info.liveBreakpoints.findIdx? fun bp =>
    isBreakpointEqual bp (info.paramScriptId params) (info.paramUrl params) params.lineNumber
      (params.columnNumber.getD (-1)) (paramCondition params)

/-- The record `AddBreakpoint` fills when no equal breakpoint exists. -/
def newBreakpoint (params : SetBreakpointParams) : LEPUSBreakpoint :=
  let url := info.paramUrl params
  let columnNumber := params.columnNumber.getD (-1)
  info.adjustBreakpoint url params.scriptHash {
    breakpointId := ⟨info.nextBreakpointId,
      generateBreakpointId url params.scriptHash params.lineNumber columnNumber⟩
    scriptUrl := url
    scriptId := info.paramScriptId params
    line := params.lineNumber
    column := columnNumber
    condition := paramCondition params
    pc := none
    specificLocation := false
    b := none }

/-- `AddBreakpoint`: the slot of the breakpoint, new or equal, and the state. -/
def addBreakpoint (params : SetBreakpointParams) : Nat × LEPUSDebuggerInfo :=
  match info.equalIndex params with
  | some i => (i, info)
  | none =>
      (info.breakpointsNum, { info.writeBreakpoint info.breakpointsNum (info.newBreakpoint params) with
        breakpointsNum := info.breakpointsNum + 1
        nextBreakpointId := info.nextBreakpointId + 1 })

/-- `SetBreakpointByURL` and `ProcessSetBreakpoint`: an equal breakpoint is looked up again. -/
def setBreakpointByURL (params : SetBreakpointParams) : LEPUSDebuggerInfo :=
  let (i, info) := info.addBreakpoint params
  match info.bps[i]? with
  | some bp => info.bindBreakpoint i { bp with pc := none }
  | none => info

/-- `DeleteBreakpoint` on slot contents `bp`. -/
def deleteBreakpoint (bp : LEPUSBreakpoint) : LEPUSDebuggerInfo :=
  { info with
    breakBytecodeMap := info.breakBytecodeMap.filter fun entry => entry.2.ptr ≠ bp.breakpointId.ptr
    bytecodeList := match bp.b with
      | some function => addBpNum (-1) function info.bytecodeList
      | none => info.bytecodeList
    breakpointsNum := info.breakpointsNum - 1 }

/-- The loop of `DeleteBreakpointById` from slot `i` with `left` slots to go: kept breakpoints
move down to `curIndex`. -/
def deleteLoop (text : String) : Nat → Nat → Nat → LEPUSDebuggerInfo → LEPUSDebuggerInfo
  | 0, _, _, info => info
  | left + 1, i, curIndex, info =>
      match info.bps[i]? with
      | none => deleteLoop text left (i + 1) curIndex info
      | some bp =>
          if bp.breakpointId.text = text then
            deleteLoop text left (i + 1) curIndex (info.deleteBreakpoint bp)
          else deleteLoop text left (i + 1) (curIndex + 1) (info.writeBreakpoint curIndex bp)

def deleteBreakpointById (text : String) : LEPUSDebuggerInfo :=
  deleteLoop text info.breakpointsNum 0 0 info

/-- One round of `AdjustBreakpoints`. -/
def adjustSlot (script : LEPUSScriptSource) (i : Nat) (info : LEPUSDebuggerInfo) :
    LEPUSDebuggerInfo :=
  match info.bps[i]? with
  | none => info
  | some bp =>
      if bp.pc.isNone ∧ script.url = some bp.scriptUrl then
        info.bindBreakpoint i
          (info.adjustBreakpoint bp.scriptUrl none { bp with scriptId := script.id })
      else info

def adjustBreakpoints (script : LEPUSScriptSource) : LEPUSDebuggerInfo :=
  (List.range info.breakpointsNum).foldl (fun info i => info.adjustSlot script i) info

/-- A function of a script that is being loaded: its line table. -/
structure LoadedFunction where
  hasDebug : Bool
  lineNum : Int
  endLineNum : Int
  pc2lineBuf : List UInt8
  deriving DecidableEq, Repr

/-- `DebuggerParseScript`, the functions of the script and `AdjustBreakpoints`. -/
def loadScript (url hash : Option String) (functions : List LoadedFunction) : LEPUSDebuggerInfo :=
  let script : LEPUSScriptSource := ⟨info.nextScriptId + 1, url, hash⟩
  let loaded := functions.map fun f => {
    script := some script.id
    hasDebug := f.hasDebug
    lineNum := f.lineNum
    endLineNum := f.endLineNum
    pc2lineBuf := f.pc2lineBuf
    bpNum := 0 : DebuggerBytecode }
  let info := { info with
    scriptList := info.scriptList ++ [script]
    bytecodeList := info.bytecodeList ++ loaded
    nextScriptId := info.nextScriptId + 1 }
  info.adjustBreakpoints script

/-- The breakpoint an instruction at `pc` stops at, when its condition is `satisfied`:
`DebuggerCallEachOp` and the breakpoint part of `DebuggerNeedProcess`. -/
def hitBreakpoint (satisfied : LEPUSBreakpoint → Bool) (pc : BytecodePc) :
    Option LEPUSBreakpoint := do
  let b ← info.bytecodeList[pc.function]?
  let id ← info.breakBytecodeMap.lookup pc
  if b.bpNum ≠ 0 ∧ info.breakpointsIsActive then
    info.liveBreakpoints.find? fun bp => bp.breakpointId.ptr = id.ptr && satisfied bp
  else none

end LEPUSDebuggerInfo

end PrimJs
