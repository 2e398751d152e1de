import PrimJs.Bytecode.Bytes

/-! The line table of a function: which line and column a bytecode offset belongs to. -/

namespace PrimJs

def pc2lineBase : Int := -1
def pc2lineRange : Nat := 5
def pc2lineOpFirst : Nat := 1

def lineNumberBitsCount : Nat := 24
def oldLineNumberBitsCount : Nat := 12
def lineColumnTypeShift : Nat := 62

def toInt64 (v : Nat) : Int :=
  if v % 2^64 < 2^63 then (v % 2^64 : Nat) else (v % 2^64 : Nat) - 2^64

def wrapInt32 (v : Int) : Int := toInt32 (ofInt32 v)

def wrapInt64 (v : Int) : Int := toInt64 (v % 2^64).toNat

def getLeb128U64Loop : Nat → Nat → Nat → List UInt8 → Option (Nat × List UInt8)
  | 0, _, _, _ => none
  | _ + 1, _, _, [] => none
  | fuel + 1, i, v, a :: rest =>
      if a.toNat < 128 then some ((v + a.toNat * 2^(i * 7)) % 2^64, rest)
      else getLeb128U64Loop fuel (i + 1) ((v + (a.toNat - 128) * 2^(i * 7)) % 2^64) rest

def getLeb128U64 (buf : List UInt8) : Option (Nat × List UInt8) := getLeb128U64Loop 10 0 0 buf

def sleb128U64Value (v : Nat) : Int := toInt64 (v / 2 ^^^ (if v % 2 = 1 then 2^64 - 1 else 0))

/-- A line and a column, both from 0 on; -1 and -1 before the first one is known. -/
structure LineCol where
  line : Int
  column : Int
  deriving DecidableEq, Repr

def computeLineCol (lineColNum : Int) (old : LineCol) : LineCol :=
  let type := lineColNum / 2^lineColumnTypeShift
  let packed : LineCol :=
    if type = 1 then
      ⟨lineColNum % 2^lineNumberBitsCount,
        (lineColNum - 2^lineColumnTypeShift) / 2^lineNumberBitsCount⟩
    else if type = 0 then
      ⟨lineColNum % 2^oldLineNumberBitsCount, lineColNum / 2^oldLineNumberBitsCount⟩
    else old
  let line := packed.line - 1
  let column := packed.column - 1
  if line < 0 ∨ column < 0 then ⟨0, 0⟩ else ⟨line, column⟩

/-- The variables of a walk over `pc2line_buf`; `rest` are the bytes from `p` to `p_end`. -/
structure PcLineWalk where
  rest : List UInt8
  pc : Int
  lineColNum : Int
  at_ : LineCol
  deriving DecidableEq, Repr

/-- `GetPCLineColumn`. A value cut short by the end of the buffer leaves the line as it was. -/
def getPCLineColumn (w : PcLineWalk) : PcLineWalk :=
  let known (w : PcLineWalk) (diff : Int) : PcLineWalk :=
    { w with lineColNum := wrapInt64 (w.lineColNum + diff), at_ := computeLineCol w.lineColNum w.at_ }
  match w.rest with
  | [] => known w 0
  | op :: rest =>
      if op = 0 then
        match getLeb128U64 rest with
        | none => { w with rest }
        | some (val, rest) =>
            let w := { w with rest, pc := wrapInt32 (w.pc + val) }
            match getLeb128U64 rest with
            | none => w
            | some (diff, rest) => known { w with rest } (sleb128U64Value diff)
      else
        let op := op.toNat - pc2lineOpFirst
        known { w with rest, pc := wrapInt32 (w.pc + (op / pc2lineRange : Nat)) }
          ((op % pc2lineRange : Nat) + pc2lineBase)

/-- What each round of a `while (p_prev < p_end)` loop sees: the offset before the round and the
line and column after it. A round consumes a byte, so one more than there are bytes is enough. -/
def pcLineRounds : Nat → PcLineWalk → List (Int × LineCol)
  | 0, _ => []
  | fuel + 1, w =>
      let next := getPCLineColumn w
      (w.pc, next.at_) :: if w.rest = [] then [] else pcLineRounds fuel next

def pcLines (lineNum : Int) (pc2lineBuf : List UInt8) : List (Int × LineCol) :=
  if pc2lineBuf = [] then []
  else pcLineRounds (pc2lineBuf.length + 1) ⟨pc2lineBuf, 0, lineNum, ⟨-1, -1⟩⟩

/-- Two one-byte steps: the last round sees the line after the second. -/
example : pcLines (2 + 4096 * 3) [3, 8] = [(0, ⟨1, 2⟩), (0, ⟨2, 2⟩), (1, ⟨3, 2⟩)] := by decide

end PrimJs
