import PrimJs.Bytecode.LineTable
import PrimJs.Bytecode.Machine

/-! Checked stores to local variables: what the interpreter does with them, and how
`resolve_labels` writes them out together with a read that follows. -/

namespace PrimJs.CheckedStore

open LineTable

section Interpreter

inductive JSValue (V : Type) where
  | uninitialized
  | plain (v : V)
  deriving DecidableEq, Repr

variable {V : Type}

def JSValue.isUninitialized : JSValue V → Bool
  | .uninitialized => true
  | .plain _ => false

structure Frame (V : Type) where
  varBuf : Nat → JSValue V
  stack : List (JSValue V)

inductive Outcome (V : Type) where
  | next (f : Frame V)
  | referenceError

/-- `set_value` on a local variable -/
def Frame.setLoc (f : Frame V) (idx : Nat) (v : JSValue V) : Nat → JSValue V :=
  Function.update f.varBuf idx v

/-- The opcodes that load, store or drop; `none` is any other opcode and an empty stack. -/
def step (op : Nat) (operands : List UInt8) (f : Frame V) : Option (Outcome V) :=
  if op = opGetLocCheck then
    let idx := getU16 operands 0
    if (f.varBuf idx).isUninitialized then some .referenceError
    else some (.next ⟨f.varBuf, f.varBuf idx :: f.stack⟩)
  else match varAccess? op operands, f.stack with
    | some (.get, ⟨.loc, idx⟩), stack => some (.next ⟨f.varBuf, f.varBuf idx :: stack⟩)
    | some (.put, ⟨.loc, idx⟩), v :: rest => some (.next ⟨f.setLoc idx v, rest⟩)
    | some (.set, ⟨.loc, idx⟩), v :: rest => some (.next ⟨f.setLoc idx v, v :: rest⟩)
    | none, v :: rest =>
        if op = opPutLocCheck then
          let idx := getU16 operands 0
          if (f.varBuf idx).isUninitialized then some .referenceError
          else some (.next ⟨f.setLoc idx v, rest⟩)
        else if op = opPutLocCheckInit then
          let idx := getU16 operands 0
          if !(f.varBuf idx).isUninitialized then some .referenceError
          else some (.next ⟨f.setLoc idx v, rest⟩)
        else if op = opDrop then some (.next ⟨f.varBuf, rest⟩)
        else none
    | _, _ => none

def run : List (Nat × List UInt8) → Frame V → Option (Outcome V)
  | [], f => some (.next f)
  | (op, operands) :: later, f =>
      match step op operands f with
      | some (.next f') => run later f'
      | other => other

end Interpreter

section Pattern

/-- What `code_match` leaves in its context. -/
structure CodeContext where
  pos : Nat
  lineNum : Int
  op : Nat
  idx : Nat
  label : Int
  val : Nat
  atom : Nat
  deriving DecidableEq, Repr

/-- One opcode of a pattern, or the several that `M2`, `M3` and `M4` pack; `idx` is the argument
after it, `none` standing for -1 and for no argument. -/
structure OpPattern where
  ops : List Nat
  idx : Option Nat
  deriving DecidableEq, Repr

def int64 (v : Nat) : Int := Int.bmod v (2 ^ 64)

/-- The next opcode that is no line number, and the last line number before it. -/
def skipLineNums (bcBuf : List UInt8) : Nat → Nat → Int → Option (Nat × Int)
  | 0, _, _ => none
  | fuel + 1, pos, lineNum =>
      if bcBuf.length ≤ pos then none
      else
        let posNext := pos + (opcodeInfo (byteAt bcBuf pos)).size
        if bcBuf.length < posNext then none
        else if byteAt bcBuf pos = opLineNum then
          skipLineNums bcBuf fuel posNext (int64 (getU64 bcBuf (pos + 1)))
        else some (pos, lineNum)

/-- The operands of the opcode at `pos`; `none` where its index is not the one of the pattern. -/
def matchOperands (bcBuf : List UInt8) (pos : Nat) (arg : Option Nat) (cc : CodeContext) :
    Option CodeContext :=
  let index (idx : Nat) : Option CodeContext :=
    match arg with
    | none => some { cc with idx := idx }
    | some expected => if expected ≠ idx then none else some cc
  let label := toInt32 (getU32 bcBuf (pos + 1))
  let atom := getU32 bcBuf (pos + 1)
  match (opcodeInfo (byteAt bcBuf pos)).fmt with
  | .loc8 | .u8 => index (byteAt bcBuf (pos + 1))
  | .u16 | .npop | .loc | .arg | .varRef => index (getU16 bcBuf (pos + 1))
  | .i32 | .u32 | .label | .const | .u64 => some { cc with label := label }
  | .labelU16 => some { cc with label := label, val := getU16 bcBuf (pos + 5) }
  | .atom => some { cc with atom := atom }
  | .atomU8 => some { cc with atom := atom, val := getU8 bcBuf (pos + 5) }
  | .atomU16 => some { cc with atom := atom, val := getU16 bcBuf (pos + 5) }
  | .atomLabelU8 => some { cc with
      atom := atom, label := toInt32 (getU32 bcBuf (pos + 5)), val := getU8 bcBuf (pos + 9) }
  | _ => some cc

/-- `code_match` from the current position on -/
def codeMatchFrom (bcBuf : List UInt8) : List OpPattern → Nat → Int → CodeContext →
    Bool × CodeContext
  | [], pos, lineNum, cc => (true, { cc with pos := pos, lineNum := lineNum })
  | p :: later, pos, lineNum, cc =>
      match skipLineNums bcBuf bcBuf.length pos lineNum with
      | none => (false, cc)
      | some (pos, lineNum) =>
          let op := byteAt bcBuf pos
          if op ∉ p.ops ∨ (p.ops.length ≠ 1 ∧ op = opInvalid) then (false, cc)
          else
            let cc := if p.ops.length = 1 then cc else { cc with op := op }
            match matchOperands bcBuf pos p.idx cc with
            | none => (false, cc)
            | some cc => codeMatchFrom bcBuf later (pos + (opcodeInfo op).size) lineNum cc

def codeMatch (bcBuf : List UInt8) (cc : CodeContext) (pos : Nat) (pattern : List OpPattern) :
    Bool × CodeContext :=
  codeMatchFrom bcBuf pattern pos (-1) cc

end Pattern

section Emission

def putShortCode (op idx : Nat) : List UInt8 :=
  let one (op0 : Nat) : List UInt8 := [UInt8.ofNat (op0 + idx)]
  let two (op8 : Nat) : List UInt8 := [UInt8.ofNat op8, UInt8.ofNat idx]
  let long : List UInt8 := UInt8.ofNat op :: u16Bytes idx
  if idx < 4 then
    if op = opGetLoc then one opGetLoc0
    else if op = opPutLoc then one opPutLoc0
    else if op = opSetLoc then one opSetLoc0
    else if op = opGetArg then one opGetArg0
    else if op = opPutArg then one opPutArg0
    else if op = opSetArg then one opSetArg0
    else if op = opGetVarRef then one opGetVarRef0
    else if op = opPutVarRef then one opPutVarRef0
    else if op = opSetVarRef then one opSetVarRef0
    else if op = opCall then one opCall0
    else long
  else if idx < 256 then
    if op = opGetLoc then two opGetLoc8
    else if op = opPutLoc then two opPutLoc8
    else if op = opSetLoc then two opSetLoc8
    else long
  else long

/-- What the functions below read of a `JSFunctionDef`. -/
structure FunctionDef where
  varCount : Nat
  isCaptured : Nat → Bool
  thisVarIdx : Int
  isDerivedClassConstructor : Bool

/-- The arrays of a `BytecodeOptCtx`, where `none` is `NULL`. -/
structure OptCtx where
  locPermanentlyInit : List Bool
  locPermWritten : Option (List Bool)
  varIsRead : Option (List Bool)
  locInitialized : Option (List Bool)
  deriving DecidableEq, Repr

/-- The output of `resolve_labels` and its position in the input. -/
structure Emitter where
  bcOut : List UInt8
  lines : LineNumbers
  ctx : OptCtx
  cc : CodeContext
  posNext : Nat
  lineNum : Int
  deriving DecidableEq, Repr

namespace Emitter

def addLine (E : Emitter) : Emitter :=
  { E with lines := addPc2lineInfo E.lines (.ofNat 32 E.bcOut.length) (.ofInt 64 E.lineNum) }

def put (E : Emitter) (bytes : List UInt8) : Emitter := { E with bcOut := E.bcOut ++ bytes }

/-- `if (cc->line_num >= 0) line_num = cc->line_num;` -/
def takeLine (E : Emitter) : Emitter :=
  if 0 ≤ E.cc.lineNum then { E with lineNum := E.cc.lineNum } else E

def matchAt (E : Emitter) (bcBuf : List UInt8) (pos : Nat) (pattern : List OpPattern) :
    Bool × Emitter :=
  let (found, cc) := codeMatch bcBuf E.cc pos pattern
  (found, { E with cc := cc })

end Emitter

def markLocWritten (ctx : OptCtx) (beforeFirstBackwardLabel : Bool) (idx varCount : Nat) : OptCtx :=
  let ctx := { ctx with
    locInitialized := ctx.locInitialized.map fun bits =>
      if idx < varCount then bits.set idx true else bits }
  if beforeFirstBackwardLabel then
    { ctx with
      locPermWritten := ctx.locPermWritten.map fun bits =>
        if idx < varCount ∧ ctx.locPermanentlyInit[idx]? = some true then bits.set idx true
        else bits }
  else ctx

def getLocOps : List Nat := [opGetLocCheck, opGetLoc]

def tryDowngradePutLocCheck (s : FunctionDef) (bcBuf : List UInt8) (idx : Nat)
    (beforeFirstBackwardLabel markPermInit : Bool) (E : Emitter) : Emitter :=
  let posNext := E.posNext
  let trackPerm := markPermInit && beforeFirstBackwardLabel
  let mark (E : Emitter) : Emitter :=
    { E with ctx := markLocWritten E.ctx trackPerm idx s.varCount }
  let (found, E) := E.matchAt bcBuf posNext [⟨getLocOps, some idx⟩, ⟨[opDrop], none⟩]
  if found then
    mark { (E.takeLine.addLine.put (putShortCode opPutLoc idx)) with posNext := E.cc.pos }
  else
    let (found, E) := E.matchAt bcBuf posNext [⟨getLocOps, some idx⟩]
    if found then
      mark { (E.takeLine.addLine.put (putShortCode opSetLoc idx)) with posNext := E.cc.pos }
    else mark (E.addLine.put (putShortCode opPutLoc idx))

def tryFoldPutCheckPeephole (bcBuf : List UInt8) (idx : Nat) (E : Emitter) : Nat × Emitter :=
  let posNext := E.posNext
  let (found, E) := E.matchAt bcBuf posNext [⟨[opGetLocCheck], some idx⟩, ⟨[opDrop], none⟩]
  if found then (1, { E.takeLine with posNext := E.cc.pos })
  else
    let (found, E) := E.matchAt bcBuf posNext [⟨[opGetLocCheck], some idx⟩]
    if found then
      (2, { (E.takeLine.addLine.put (putShortCode opSetLoc idx)) with posNext := E.cc.pos })
    else (0, E)

/-- The variable is never read. -/
def OptCtx.neverRead (ctx : OptCtx) (s : FunctionDef) (idx : Nat) : Bool :=
  match ctx.varIsRead with
  | none => false
  | some bits => idx < s.varCount && bits[idx]? = some false

def OptCtx.downgrades (ctx : OptCtx) (s : FunctionDef) (op idx : Nat) : Bool :=
  match ctx.locInitialized with
  | none => false
  | some bits =>
      idx < s.varCount &&
        if op = opPutLocCheckInit then
          bits[idx]? = some false && !s.isCaptured idx &&
            !(s.thisVarIdx = idx && s.isDerivedClassConstructor)
        else bits[idx]? = some true

def tryHandlePutLocCheck (s : FunctionDef) (bcBuf : List UInt8) (op idx : Nat)
    (beforeFirstBackwardLabel : Bool) (E : Emitter) : Nat × Emitter :=
  if E.ctx.neverRead s idx then (1, E.addLine.put [UInt8.ofNat opDrop])
  else if E.ctx.downgrades s op idx then
    (2, tryDowngradePutLocCheck s bcBuf idx beforeFirstBackwardLabel (op = opPutLocCheckInit) E)
  else
    let E := { E with ctx := markLocWritten E.ctx beforeFirstBackwardLabel idx s.varCount }
    match tryFoldPutCheckPeephole bcBuf idx E with
    | (1, E) => (3, E)
    | (2, E) => (4, E)
    | (_, E) => (0, E)

/-- The turn of `resolve_labels` at a checked store: where `lepusng_opt_dispatch_opcode` has not
written it, the instruction is copied. -/
def resolveCheckedStore (s : FunctionDef) (bcBuf : List UInt8) (pos : Nat)
    (beforeFirstBackwardLabel : Bool) (E : Emitter) : Emitter :=
  let op := byteAt bcBuf pos
  let idx := getU16 bcBuf (pos + 1)
  let size := (opcodeInfo op).size
  match tryHandlePutLocCheck s bcBuf op idx beforeFirstBackwardLabel
      { E with posNext := pos + size } with
  | (1, E) | (2, E) | (4, E) => E
  | (_, E) =>
      let E := { E with ctx := markLocWritten E.ctx beforeFirstBackwardLabel idx s.varCount }
      E.addLine.put ((bcBuf.drop pos).take size)

end Emission

section Windows

/-- The opcodes of the input from `pos` up to `stop`, less the line numbers. -/
def windowInstrs (bcBuf : List UInt8) : Nat → Nat → Nat → List (Nat × List UInt8)
  | 0, _, _ => []
  | fuel + 1, pos, stop =>
      if stop ≤ pos then []
      else
        let op := byteAt bcBuf pos
        let size := (opcodeInfo op).size
        let later := windowInstrs bcBuf fuel (pos + size) stop
        if op = opLineNum then later
        else (op, (bcBuf.drop (pos + 1)).take (size - 1)) :: later

def finalInstrs : Nat → List UInt8 → List (Nat × List UInt8)
  | 0, _ => []
  | _ + 1, [] => []
  | fuel + 1, op :: rest =>
      let size := opSize op.toNat
      (op.toNat, rest.take (size - 1)) :: finalInstrs fuel (rest.drop (size - 1))

inductive Window (bcBuf : List UInt8) : Nat → Nat → List (Nat × List UInt8) → Prop where
  | done (pos : Nat) : Window bcBuf pos pos []
  | line {pos stop : Nat} {later : List (Nat × List UInt8)} (here : byteAt bcBuf pos = opLineNum)
      (rest : Window bcBuf (pos + 9) stop later) : Window bcBuf pos stop later
  | instr {pos stop : Nat} {later : List (Nat × List UInt8)} (op : Nat)
      (here : byteAt bcBuf pos = op) (code : op ≠ opLineNum) (size : 0 < (opcodeInfo op).size)
      (rest : Window bcBuf (pos + (opcodeInfo op).size) stop later) :
      Window bcBuf pos stop
        ((op, (bcBuf.drop (pos + 1)).take ((opcodeInfo op).size - 1)) :: later)

variable {bcBuf : List UInt8} {pos stop here : Nat} {line line' : Int} {cc cc' : CodeContext}
  {instrs later : List (Nat × List UInt8)} {p : OpPattern} {patterns : List OpPattern}

theorem Window.le (window : Window bcBuf pos stop instrs) : pos ≤ stop := by
  induction window with
  | done => exact le_rfl
  | line _ _ ih => omega
  | instr _ _ _ _ _ ih => omega

theorem Window.instrs_eq (window : Window bcBuf pos stop instrs) {fuel : Nat}
    (enough : stop - pos ≤ fuel) : windowInstrs bcBuf fuel pos stop = instrs := by
  induction window generalizing fuel with
  | done pos =>
      cases fuel with
      | zero => rfl
      | succ fuel => rw [windowInstrs, if_pos le_rfl]
  | line here rest ih =>
      have before := rest.le
      cases fuel with
      | zero => omega
      | succ fuel =>
          rw [windowInstrs, if_neg (by omega)]
          dsimp only
          rw [if_pos here, here]
          exact ih (by omega)
  | instr op here code size rest ih =>
      have before := rest.le
      cases fuel with
      | zero => omega
      | succ fuel =>
          rw [windowInstrs, if_neg (by omega)]
          dsimp only
          rw [here, if_neg code, ih (by omega)]

theorem window_skip {fuel : Nat} (skip : skipLineNums bcBuf fuel pos line = some (here, line')) :
    byteAt bcBuf here ≠ opLineNum ∧
      ∀ {stop instrs}, Window bcBuf here stop instrs → Window bcBuf pos stop instrs := by
  induction fuel generalizing pos line with
  | zero => cases skip
  | succ fuel ih =>
      rw [skipLineNums] at skip
      dsimp only at skip
      split at skip
      · cases skip
      · split at skip
        · cases skip
        · split at skip
          · next isLine =>
            rw [isLine] at skip
            have ⟨code, back⟩ := ih skip
            exact ⟨code, fun window => .line isLine (back window)⟩
          · next code =>
            obtain ⟨rfl, -⟩ := Prod.mk.inj (Option.some.inj skip)
            exact ⟨code, id⟩

theorem codeMatchFrom_cons : codeMatchFrom bcBuf (p :: patterns) pos line cc = (true, cc') ↔
    ∃ here line' cc1, skipLineNums bcBuf bcBuf.length pos line = some (here, line') ∧
      byteAt bcBuf here ∈ p.ops ∧ (p.ops.length ≠ 1 → byteAt bcBuf here ≠ opInvalid) ∧
      matchOperands bcBuf here p.idx
        (if p.ops.length = 1 then cc else { cc with op := byteAt bcBuf here }) = some cc1 ∧
      codeMatchFrom bcBuf patterns (here + (opcodeInfo (byteAt bcBuf here)).size) line' cc1 =
        (true, cc') := by
  rw [codeMatchFrom]
  cases skip : skipLineNums bcBuf bcBuf.length pos line with
  | none => simp
  | some found =>
      have ⟨here, line'⟩ := found
      dsimp only
      by_cases other : byteAt bcBuf here ∉ p.ops ∨ (p.ops.length ≠ 1 ∧ byteAt bcBuf here = opInvalid)
      · rw [if_pos other]
        constructor
        · intro wrong
          cases wrong
        · rintro ⟨_, _, _, same, inside, valid, _⟩
          obtain ⟨rfl, rfl⟩ := Prod.mk.inj (Option.some.inj same)
          exact other.elim (absurd inside ·) fun wrong => absurd wrong.2 (valid wrong.1)
      · rw [if_neg other]
        have ⟨inside, valid⟩ := not_or.mp other
        constructor
        · intro run
          split at run
          · cases run
          · next cc1 operands =>
            exact ⟨here, line', cc1, rfl, not_not.mp inside, fun several isInvalid =>
              valid ⟨several, isInvalid⟩, operands, run⟩
        · rintro ⟨_, _, cc1, same, _, _, operands, run⟩
          obtain ⟨rfl, rfl⟩ := Prod.mk.inj (Option.some.inj same)
          rw [operands]
          exact run

theorem matchOperands_isSome (arg : Option Nat) (cc cc' : CodeContext) :
    (matchOperands bcBuf pos arg cc).isSome = (matchOperands bcBuf pos arg cc').isSome := by
  unfold matchOperands
  dsimp only
  split <;> try rfl
  all_goals
    split
    · rfl
    · split <;> rfl

/-- Whether a pattern matches does not depend on what earlier attempts left behind. -/
theorem codeMatchFrom_fst (patterns : List OpPattern) (pos : Nat) (line : Int)
    (cc cc' : CodeContext) : (codeMatchFrom bcBuf patterns pos line cc).1 =
      (codeMatchFrom bcBuf patterns pos line cc').1 := by
  induction patterns generalizing pos line cc cc' with
  | nil => rfl
  | cons p patterns ih =>
      rw [codeMatchFrom, codeMatchFrom]
      cases skipLineNums bcBuf bcBuf.length pos line with
      | none => rfl
      | some found =>
          have ⟨here, line'⟩ := found
          dsimp only
          split
          · rfl
          · have same := @matchOperands_isSome bcBuf here p.idx
              (if p.ops.length = 1 then cc else { cc with op := byteAt bcBuf here })
              (if p.ops.length = 1 then cc' else { cc' with op := byteAt bcBuf here })
            split
            · next absent =>
              rw [absent, Option.isSome_none] at same
              rw [Option.isSome_eq_false_iff.mp same.symm |> Option.isNone_iff_eq_none.mp]
            · next cc1 present =>
              rw [present, Option.isSome_some] at same
              obtain ⟨cc2, present'⟩ := Option.isSome_iff_exists.mp same.symm
              rw [present']
              exact ih _ _ cc1 cc2

/-- A read of the variable `idx`. -/
theorem codeMatchFrom_read {ops : List Nat} {idx : Nat} (reads : ∀ o ∈ ops, o ∈ getLocOps)
    (found : codeMatchFrom bcBuf (⟨ops, some idx⟩ :: patterns) pos line cc = (true, cc')) :
    ∃ here line' cc1, skipLineNums bcBuf bcBuf.length pos line = some (here, line') ∧
      byteAt bcBuf here ∈ ops ∧ getU16 bcBuf (here + 1) = idx ∧
      codeMatchFrom bcBuf patterns (here + 3) line' cc1 = (true, cc') := by
  have ⟨here, line', cc1, skip, inside, _, operands, rest⟩ := codeMatchFrom_cons.mp found
  have table : ∀ o ∈ getLocOps, (opcodeInfo o).fmt = .loc ∧ (opcodeInfo o).size = 3 := by decide
  have ⟨format, size⟩ := table _ (reads _ inside)
  refine ⟨here, line', cc1, skip, inside, ?_, ?_⟩
  · unfold matchOperands at operands
    rw [format] at operands
    dsimp only at operands
    split at operands
    · cases operands
    · next same => exact (not_not.mp same).symm
  · rw [size] at rest
    exact rest

theorem codeMatchFrom_read_iff {ops : List Nat} {idx : Nat} (reads : ∀ o ∈ ops, o ∈ getLocOps)
    (cc : CodeContext) : (codeMatchFrom bcBuf (⟨ops, some idx⟩ :: []) pos line cc).1 = true ↔
      ∃ here line', skipLineNums bcBuf bcBuf.length pos line = some (here, line') ∧
        byteAt bcBuf here ∈ ops ∧ getU16 bcBuf (here + 1) = idx := by
  constructor
  · intro found
    have ⟨here, line', _, skip, inside, same, _⟩ :=
      codeMatchFrom_read reads (Prod.ext found rfl : _ = (true, _))
    exact ⟨here, line', skip, inside, same⟩
  · rintro ⟨here, line', skip, inside, same⟩
    have table : ∀ o ∈ getLocOps, (opcodeInfo o).fmt = .loc ∧ o ≠ opInvalid := by decide
    have ⟨format, valid⟩ := table _ (reads _ inside)
    have operands : ∀ cc1, matchOperands bcBuf here (some idx) cc1 = some cc1 := by
      intro cc1
      unfold matchOperands
      rw [format]
      dsimp only
      rw [if_neg (not_not.mpr same.symm)]
    have found : codeMatchFrom bcBuf (⟨ops, some idx⟩ :: []) pos line cc = (true, _) :=
      codeMatchFrom_cons.mpr ⟨here, line', _, skip, inside, fun _ => valid, operands _, rfl⟩
    rw [found]

theorem codeMatchFrom_drop
    (found : codeMatchFrom bcBuf [⟨[opDrop], none⟩] pos line cc = (true, cc')) :
    Window bcBuf pos cc'.pos [(opDrop, [])] := by
  have ⟨here, line', cc1, skip, inside, _, _, rest⟩ := codeMatchFrom_cons.mp found
  have isDrop := List.mem_singleton.mp inside
  have last : cc'.pos = here + 1 := by
    rw [isDrop] at rest
    exact congrArg CodeContext.pos (Prod.mk.inj rest).2.symm
  rw [last]
  exact (window_skip skip).2 (.instr opDrop isDrop (by decide) (by decide) (.done _))

/-- The operands of an instruction of three bytes. -/
theorem getU16_operands (bcBuf : List UInt8) (pos : Nat) :
    getU16 ((bcBuf.drop (pos + 1)).take 2) 0 = getU16 bcBuf (pos + 1) := by
  have low : byteAt ((bcBuf.drop (pos + 1)).take 2) 0 = byteAt bcBuf (pos + 1) := by
    simp [byteAt]
  have high : byteAt ((bcBuf.drop (pos + 1)).take 2) 1 = byteAt bcBuf (pos + 2) := by
    simp [byteAt]
  rw [getU16, getU16, low, high]

theorem window_read {op : Nat} (skip : skipLineNums bcBuf bcBuf.length pos line = some (here, line'))
    (read : byteAt bcBuf here = op) (isRead : op ∈ getLocOps)
    (rest : Window bcBuf (here + 3) stop later) :
    Window bcBuf pos stop ((op, (bcBuf.drop (here + 1)).take 2) :: later) := by
  have table : ∀ o ∈ getLocOps, o ≠ opLineNum ∧ (opcodeInfo o).size = 3 := by decide
  have ⟨code, size⟩ := table op isRead
  have window := Window.instr op read code (by rw [size]; decide) (by rw [size]; exact rest)
  rw [size] at window
  exact (window_skip skip).2 window

end Windows

section Execution

variable {V : Type} {f : Frame V} {v : JSValue V} {rest : List (JSValue V)}
  {operands bcBuf : List UInt8} {later : List (Nat × List UInt8)} {op idx : Nat}

def passes (op : Nat) (x : JSValue V) : Bool :=
  if op = opPutLocCheckInit then x.isUninitialized else !x.isUninitialized

def checkedStores : List Nat := [opPutLocCheck, opPutLocCheckInit]

theorem run_store (isStore : op ∈ checkedStores) (index : getU16 operands 0 = idx)
    (stack : f.stack = v :: rest) : run ((op, operands) :: later) f =
      if passes op (f.varBuf idx) then run later ⟨f.setLoc idx v, rest⟩
      else some .referenceError := by
  obtain rfl | rfl : op = opPutLocCheck ∨ op = opPutLocCheckInit := by
    simpa [checkedStores] using isStore
  · have access : varAccess? opPutLocCheck operands = none := rfl
    rw [run, step, if_neg (by decide), access, stack]
    dsimp only
    have check : passes opPutLocCheck (f.varBuf idx) = !(f.varBuf idx).isUninitialized := rfl
    rw [if_pos rfl, index, check]
    cases (f.varBuf idx).isUninitialized <;> rfl
  · have access : varAccess? opPutLocCheckInit operands = none := rfl
    rw [run, step, if_neg (by decide), access, stack]
    dsimp only
    have check : passes opPutLocCheckInit (f.varBuf idx) = (f.varBuf idx).isUninitialized := rfl
    rw [if_neg (by decide), if_pos rfl, index, check]
    cases (f.varBuf idx).isUninitialized <;> rfl

theorem run_read (isRead : op ∈ getLocOps) (index : getU16 operands 0 = idx) :
    run ((op, operands) :: later) f =
      if (op = opGetLocCheck && (f.varBuf idx).isUninitialized) = true then some .referenceError
      else run later ⟨f.varBuf, f.varBuf idx :: f.stack⟩ := by
  obtain rfl | rfl : op = opGetLocCheck ∨ op = opGetLoc := by simpa [getLocOps] using isRead
  · rw [run, step, if_pos rfl]
    dsimp only
    rw [index, decide_eq_true rfl, Bool.true_and]
    cases (f.varBuf idx).isUninitialized <;> rfl
  · have access : varAccess? opGetLoc operands = some (.get, ⟨.loc, idx⟩) := by
      rw [← index]
      rfl
    rw [run, step, if_neg (by decide), access]
    rfl

theorem run_drop (stack : f.stack = v :: rest) :
    run ((opDrop, []) :: later) f = run later ⟨f.varBuf, rest⟩ := by
  have access : varAccess? opDrop [] = none := rfl
  rw [run, step, if_neg (by decide), access, stack]
  rfl

/-- `put_short_code` writes one instruction with the access of the long form. -/
theorem putShortCode_access {access : Access} (long : (op, access) ∈
      [(opPutLoc, Access.put), (opSetLoc, Access.set)]) (small : idx < 2 ^ 16) :
    ∃ op' operands, finalInstrs (putShortCode op idx).length (putShortCode op idx) =
        [(op', operands)] ∧ op' ≠ opGetLocCheck ∧
      varAccess? op' operands = some (access, ⟨.loc, idx⟩) := by
  have cases_ : idx = 0 ∨ idx = 1 ∨ idx = 2 ∨ idx = 3 ∨ 4 ≤ idx ∧ idx < 256 ∨ 256 ≤ idx := by
    omega
  have byte : idx < 256 → (UInt8.ofNat idx).toNat = idx := by
    intro below
    rw [UInt8.toNat_ofNat', Nat.mod_eq_of_lt below]
  have word : getU16 (u16Bytes idx) 0 = idx := by
    simpa using getU16_u16Bytes small []
  obtain ⟨rfl, rfl⟩ | ⟨rfl, rfl⟩ : op = opPutLoc ∧ access = .put ∨ op = opSetLoc ∧ access = .set := by
    simpa using long
  all_goals
    obtain rfl | rfl | rfl | rfl | ⟨large, below⟩ | beyond := cases_
    · exact ⟨_, _, rfl, by decide, rfl⟩
    · exact ⟨_, _, rfl, by decide, rfl⟩
    · exact ⟨_, _, rfl, by decide, rfl⟩
    · exact ⟨_, _, rfl, by decide, rfl⟩
    · unfold putShortCode
      rw [if_neg (by omega), if_pos below]
      refine ⟨_, _, rfl, by decide, ?_⟩
      exact congrArg (fun i => some (_, (⟨.loc, i⟩ : Var))) (byte below)
    · unfold putShortCode
      rw [if_neg (by omega), if_neg (by omega)]
      refine ⟨_, _, rfl, by decide, ?_⟩
      exact congrArg (fun i => some (_, (⟨.loc, i⟩ : Var))) word

/-- What the instructions written in place of a store leave, the value kept or not. -/
theorem run_emitted (keeps : Bool) (small : idx < 2 ^ 16) (stack : f.stack = v :: rest) :
    run (finalInstrs (putShortCode (if keeps then opSetLoc else opPutLoc) idx).length
      (putShortCode (if keeps then opSetLoc else opPutLoc) idx)) f =
        some (.next ⟨f.setLoc idx v, if keeps then v :: rest else rest⟩) := by
  cases keeps with
  | true =>
      have ⟨op, operands, instr, plain, access⟩ :=
        @putShortCode_access opSetLoc idx .set (by simp) small
      rw [if_pos rfl, instr, run, step, if_neg plain, access, stack]
      rfl
  | false =>
      have ⟨op, operands, instr, plain, access⟩ :=
        @putShortCode_access opPutLoc idx .put (by simp) small
      rw [if_neg Bool.false_ne_true, instr, run, step, if_neg plain, access, stack]
      rfl

/-- The instructions after a store that go with it: whether they check the variable they read,
and whether they keep its value on the stack. -/
def IsTail (idx : Nat) (checked keeps : Bool) (tail : List (Nat × List UInt8)) : Prop :=
  ∀ (V : Type) (f : Frame V) (v : JSValue V), f.varBuf idx = v → run tail f =
    if (checked && v.isUninitialized) = true then some .referenceError
    else some (.next ⟨f.varBuf, if keeps then v :: f.stack else f.stack⟩)

theorem isTail_nil (idx : Nat) : IsTail idx false false [] := fun _ _ _ _ => rfl

theorem isTail_read (isRead : op ∈ getLocOps) (index : getU16 operands 0 = idx) :
    IsTail idx (op = opGetLocCheck) true [(op, operands)] := by
  rintro V f v rfl
  rw [run_read isRead index]
  rfl

theorem isTail_dropped (isRead : op ∈ getLocOps) (index : getU16 operands 0 = idx) :
    IsTail idx (op = opGetLocCheck) false [(op, operands), (opDrop, [])] := by
  rintro V f v rfl
  rw [run_read isRead index, run_drop rfl]
  rfl

end Execution

section Specs

variable {s : FunctionDef} {bcBuf : List UInt8} {idx : Nat} {E : Emitter} {pos : Nat}
  {cc cc' : CodeContext}

/-- A checked read of the variable follows at `pos`. -/
def checkedRead (bcBuf : List UInt8) (cc : CodeContext) (pos idx : Nat) : Bool :=
  (codeMatch bcBuf cc pos [⟨[opGetLocCheck], some idx⟩]).1

/-- A checked read follows whose value is dropped at once. -/
def checkedReadDropped (bcBuf : List UInt8) (cc : CodeContext) (pos idx : Nat) : Bool :=
  (codeMatch bcBuf cc pos [⟨[opGetLocCheck], some idx⟩, ⟨[opDrop], none⟩]).1

theorem checkedRead_of_skip {here : Nat} {line' : Int}
    (skip : skipLineNums bcBuf bcBuf.length pos (-1) = some (here, line'))
    (index : getU16 bcBuf (here + 1) = idx) :
    checkedRead bcBuf cc pos idx = decide (byteAt bcBuf here = opGetLocCheck) := by
  have reads : ∀ o ∈ [opGetLocCheck], o ∈ getLocOps := by decide
  by_cases checked : byteAt bcBuf here = opGetLocCheck
  · rw [decide_eq_true checked]
    exact (codeMatchFrom_read_iff reads cc).mpr
      ⟨here, line', skip, List.mem_singleton.mpr checked, index⟩
  · rw [decide_eq_false checked]
    apply Bool.eq_false_iff.mpr
    intro found
    have ⟨here', _, skip', inside, _⟩ := (codeMatchFrom_read_iff reads cc).mp found
    rw [skip] at skip'
    obtain ⟨rfl, -⟩ := Prod.mk.inj (Option.some.inj skip')
    exact checked (List.mem_singleton.mp inside)

section

variable {ops : List Nat} (reads : ∀ o ∈ ops, o ∈ getLocOps)

include reads

/-- A read that a pattern finds is the whole tail of the store. -/
theorem tail_of_read (found : codeMatch bcBuf cc pos [⟨ops, some idx⟩] = (true, cc'))
    (cc0 : CodeContext) :
    ∃ tail, Window bcBuf pos cc'.pos tail ∧ IsTail idx (checkedRead bcBuf cc0 pos idx) true tail := by
  have ⟨here, _, _, skip, inside, index, last⟩ := codeMatchFrom_read reads found
  have stop : cc'.pos = here + 3 := congrArg CodeContext.pos (Prod.mk.inj last).2.symm
  have window := window_read skip rfl (reads _ inside) (.done (here + 3))
  rw [← stop] at window
  refine ⟨_, window, ?_⟩
  rw [checkedRead_of_skip skip index]
  exact isTail_read (reads _ inside) (by rw [getU16_operands, index])

theorem tail_of_dropped
    (found : codeMatch bcBuf cc pos [⟨ops, some idx⟩, ⟨[opDrop], none⟩] = (true, cc'))
    (cc0 : CodeContext) :
    ∃ tail, Window bcBuf pos cc'.pos tail ∧
      IsTail idx (checkedRead bcBuf cc0 pos idx) false tail := by
  have ⟨here, _, _, skip, inside, index, last⟩ := codeMatchFrom_read reads found
  refine ⟨_, window_read skip rfl (reads _ inside) (codeMatchFrom_drop last), ?_⟩
  rw [checkedRead_of_skip skip index]
  exact isTail_dropped (reads _ inside) (by rw [getU16_operands, index])

theorem tail_of_none (check : opGetLocCheck ∈ ops)
    (missed : (codeMatch bcBuf cc pos [⟨ops, some idx⟩]).1 = false) (cc0 : CodeContext) :
    IsTail idx (checkedRead bcBuf cc0 pos idx) false [] := by
  have none_ : checkedRead bcBuf cc0 pos idx = false := by
    apply Bool.eq_false_iff.mpr
    intro found
    have ⟨here, line', skip, inside, index⟩ :=
      (codeMatchFrom_read_iff (by decide : ∀ o ∈ [opGetLocCheck], o ∈ getLocOps) cc0).mp found
    have hit := (codeMatchFrom_read_iff reads cc).mpr
      ⟨here, line', skip, List.mem_singleton.mp inside ▸ check, index⟩
    rw [codeMatch, hit] at missed
    cases missed
  rw [none_]
  exact isTail_nil idx

end

/-- What a function has written for a store and how far it has read: the tail of the store and
whether its value stays on the stack. -/
structure Written (bcBuf : List UInt8) (idx : Nat) (E R : Emitter) (keeps : Bool)
    (bytes : List UInt8) : Prop where
  out : R.bcOut = E.bcOut ++ bytes
  tail : ∃ tail, Window bcBuf E.posNext R.posNext tail ∧
    IsTail idx (checkedRead bcBuf E.cc E.posNext idx) keeps tail

@[simp] theorem takeLine_bcOut (E : Emitter) : E.takeLine.bcOut = E.bcOut := by
  unfold Emitter.takeLine
  split <;> rfl

theorem tryDowngradePutLocCheck_spec (before mark : Bool) : ∃ keeps : Bool,
    Written bcBuf idx E (tryDowngradePutLocCheck s bcBuf idx before mark E) keeps
      (putShortCode (if keeps then opSetLoc else opPutLoc) idx) := by
  have reads : ∀ o ∈ getLocOps, o ∈ getLocOps := fun _ => id
  unfold tryDowngradePutLocCheck Emitter.matchAt
  dsimp only
  rcases first : codeMatch bcBuf E.cc E.posNext
    [⟨getLocOps, some idx⟩, ⟨[opDrop], none⟩] with ⟨_ | _, cc1⟩
  · dsimp only
    rw [if_neg Bool.false_ne_true]
    rcases second : codeMatch bcBuf cc1 E.posNext [⟨getLocOps, some idx⟩] with ⟨_ | _, cc2⟩
    · refine ⟨false, ⟨by simp [Emitter.put, Emitter.addLine], [], ?_, ?_⟩⟩
      · exact .done _
      · exact tail_of_none reads (by decide) (by rw [second]) E.cc
    · exact ⟨true, ⟨by simp [Emitter.put, Emitter.addLine], tail_of_read reads second E.cc⟩⟩
  · exact ⟨false, ⟨by simp [Emitter.put, Emitter.addLine], tail_of_dropped reads first E.cc⟩⟩

theorem checkedRead_fst (cc cc' : CodeContext) :
    checkedRead bcBuf cc pos idx = checkedRead bcBuf cc' pos idx :=
  codeMatchFrom_fst _ _ _ cc cc'

/-- A checked read whose value stays on the stack follows at `pos`. -/
def keepsRead (bcBuf : List UInt8) (cc : CodeContext) (pos idx : Nat) : Bool :=
  checkedRead bcBuf cc pos idx && !checkedReadDropped bcBuf cc pos idx

theorem tryFoldPutCheckPeephole_spec : ∃ n R, tryFoldPutCheckPeephole bcBuf idx E = (n, R) ∧
    (if keepsRead bcBuf E.cc E.posNext idx then
      n = 2 ∧ Written bcBuf idx E R true (putShortCode opSetLoc idx)
    else (n = 0 ∨ n = 1) ∧ Written bcBuf idx E R false []) := by
  have reads : ∀ o ∈ [opGetLocCheck], o ∈ getLocOps := by decide
  unfold tryFoldPutCheckPeephole Emitter.matchAt
  dsimp only
  rcases first : codeMatch bcBuf E.cc E.posNext
    [⟨[opGetLocCheck], some idx⟩, ⟨[opDrop], none⟩] with ⟨_ | _, cc1⟩
  · have kept : checkedReadDropped bcBuf E.cc E.posNext idx = false := by
      rw [checkedReadDropped, first]
    dsimp only
    rw [if_neg Bool.false_ne_true]
    rcases second : codeMatch bcBuf cc1 E.posNext [⟨[opGetLocCheck], some idx⟩] with ⟨_ | _, cc2⟩
    · have absent : checkedRead bcBuf E.cc E.posNext idx = false := by
        rw [checkedRead_fst E.cc cc1, checkedRead, second]
      refine ⟨_, _, rfl, ?_⟩
      rw [keepsRead, absent, kept]
      exact ⟨.inl rfl, ⟨(List.append_nil _).symm, [], .done _,
        tail_of_none reads (by decide) (by rw [second]) E.cc⟩⟩
    · have present : checkedRead bcBuf E.cc E.posNext idx = true := by
        rw [checkedRead_fst E.cc cc1, checkedRead, second]
      refine ⟨_, _, rfl, ?_⟩
      rw [keepsRead, present, kept]
      exact ⟨rfl, ⟨by simp [Emitter.put, Emitter.addLine], tail_of_read reads second E.cc⟩⟩
  · have dropped : checkedReadDropped bcBuf E.cc E.posNext idx = true := by
      rw [checkedReadDropped, first]
    refine ⟨_, _, rfl, ?_⟩
    rw [keepsRead, dropped, Bool.not_true, Bool.and_false]
    exact ⟨.inr rfl, ⟨by simp, tail_of_dropped reads first E.cc⟩⟩

/-- The store is written without its check. -/
def dropsCheck (s : FunctionDef) (bcBuf : List UInt8) (pos : Nat) (E : Emitter) : Bool :=
  let idx := getU16 bcBuf (pos + 1)
  E.ctx.downgrades s (byteAt bcBuf pos) idx || keepsRead bcBuf E.cc (pos + 3) idx

theorem storeSize (isStore : byteAt bcBuf pos ∈ checkedStores) :
    byteAt bcBuf pos ≠ opLineNum ∧ (opcodeInfo (byteAt bcBuf pos)).size = 3 := by
  have table : ∀ o ∈ checkedStores, o ≠ opLineNum ∧ (opcodeInfo o).size = 3 := by decide
  exact table _ isStore

theorem resolveCheckedStore_downgraded (before : Bool)
    (isStore : byteAt bcBuf pos ∈ checkedStores)
    (read : E.ctx.neverRead s (getU16 bcBuf (pos + 1)) = false)
    (down : E.ctx.downgrades s (byteAt bcBuf pos) (getU16 bcBuf (pos + 1)) = true) :
    resolveCheckedStore s bcBuf pos before E =
      tryDowngradePutLocCheck s bcBuf (getU16 bcBuf (pos + 1)) before
        (byteAt bcBuf pos = opPutLocCheckInit) { E with posNext := pos + 3 } := by
  have ⟨_, size⟩ := storeSize isStore
  unfold resolveCheckedStore tryHandlePutLocCheck
  dsimp only
  rw [size, if_neg (by rw [read]; exact Bool.false_ne_true), if_pos down]
  rfl

theorem resolveCheckedStore_folded {before : Bool} {n : Nat} {R : Emitter}
    (isStore : byteAt bcBuf pos ∈ checkedStores)
    (read : E.ctx.neverRead s (getU16 bcBuf (pos + 1)) = false)
    (down : E.ctx.downgrades s (byteAt bcBuf pos) (getU16 bcBuf (pos + 1)) = false)
    (fold : tryFoldPutCheckPeephole bcBuf (getU16 bcBuf (pos + 1)) { E with
      posNext := pos + 3
      ctx := markLocWritten E.ctx before (getU16 bcBuf (pos + 1)) s.varCount } = (n, R)) :
    (n = 2 → resolveCheckedStore s bcBuf pos before E = R) ∧
      (n = 0 ∨ n = 1 → (resolveCheckedStore s bcBuf pos before E).posNext = R.posNext ∧
        (resolveCheckedStore s bcBuf pos before E).bcOut =
          R.bcOut ++ (bcBuf.drop pos).take 3) := by
  have ⟨_, size⟩ := storeSize isStore
  unfold resolveCheckedStore tryHandlePutLocCheck
  dsimp only
  rw [size, if_neg (by rw [read]; exact Bool.false_ne_true),
    if_neg (by rw [down]; exact Bool.false_ne_true), fold]
  constructor
  · rintro rfl
    rfl
  · rintro (rfl | rfl) <;> exact ⟨rfl, rfl⟩

/-- What a turn at a checked store reads and writes. -/
theorem resolveCheckedStore_spec (before : Bool) (isStore : byteAt bcBuf pos ∈ checkedStores)
    (read : E.ctx.neverRead s (getU16 bcBuf (pos + 1)) = false) : ∃ keeps tail,
    Window bcBuf pos (resolveCheckedStore s bcBuf pos before E).posNext
      ((byteAt bcBuf pos, (bcBuf.drop (pos + 1)).take 2) :: tail) ∧
    IsTail (getU16 bcBuf (pos + 1))
      (checkedRead bcBuf E.cc (pos + 3) (getU16 bcBuf (pos + 1))) keeps tail ∧
    (if dropsCheck s bcBuf pos E then
      (resolveCheckedStore s bcBuf pos before E).bcOut = E.bcOut ++
        putShortCode (if keeps then opSetLoc else opPutLoc) (getU16 bcBuf (pos + 1))
    else keeps = false ∧ (resolveCheckedStore s bcBuf pos before E).bcOut =
      E.bcOut ++ (bcBuf.drop pos).take 3) := by
  have ⟨code, size⟩ := storeSize isStore
  have window : ∀ {stop tail}, Window bcBuf (pos + 3) stop tail → Window bcBuf pos stop
      ((byteAt bcBuf pos, (bcBuf.drop (pos + 1)).take 2) :: tail) := by
    intro stop tail rest
    have whole := Window.instr (byteAt bcBuf pos) rfl code (by rw [size]; decide)
      (by rw [size]; exact rest)
    rw [size] at whole
    exact whole
  cases down : E.ctx.downgrades s (byteAt bcBuf pos) (getU16 bcBuf (pos + 1)) with
  | true =>
      have ⟨keeps, written⟩ := @tryDowngradePutLocCheck_spec s bcBuf (getU16 bcBuf (pos + 1))
        { E with posNext := pos + 3 } before (byteAt bcBuf pos = opPutLocCheckInit)
      have ⟨tail, rest, isTail⟩ := written.tail
      rw [resolveCheckedStore_downgraded before isStore read down]
      refine ⟨keeps, tail, window rest, isTail, ?_⟩
      rw [if_pos (by rw [dropsCheck, down]; rfl)]
      exact written.out
  | false =>
      have ⟨n, R, fold, result⟩ := @tryFoldPutCheckPeephole_spec bcBuf (getU16 bcBuf (pos + 1))
        { E with
          posNext := pos + 3
          ctx := markLocWritten E.ctx before (getU16 bcBuf (pos + 1)) s.varCount }
      have ⟨set, copy⟩ := resolveCheckedStore_folded isStore read down fold
      dsimp only at result
      by_cases keeps : keepsRead bcBuf E.cc (pos + 3) (getU16 bcBuf (pos + 1)) = true
      · rw [if_pos keeps] at result
        have ⟨count, written⟩ := result
        have ⟨tail, rest, isTail⟩ := written.tail
        rw [set count]
        refine ⟨true, tail, window rest, isTail, ?_⟩
        rw [if_pos (by rw [dropsCheck, keeps, Bool.or_true])]
        exact written.out
      · rw [if_neg keeps] at result
        have ⟨count, written⟩ := result
        have ⟨tail, rest, isTail⟩ := written.tail
        have ⟨stop, out⟩ := copy count
        have same := written.out
        rw [List.append_nil] at same
        rw [stop, out, same]
        refine ⟨false, tail, window rest, isTail, ?_⟩
        rw [if_neg (by rw [dropsCheck, down]; exact keeps)]
        exact ⟨rfl, rfl⟩

end Specs

section Preservation

variable {V : Type} {s : FunctionDef} {bcBuf : List UInt8} {pos : Nat} {E : Emitter} {f : Frame V}
  {v : JSValue V} {rest : List (JSValue V)}

/-- The code written in the turn at `pos` and the code it was made from end alike: with the same
error, or with the same variables and the same stack. -/
def Preserves (s : FunctionDef) (bcBuf : List UInt8) (pos : Nat) (before : Bool) (E : Emitter)
    (f : Frame V) : Prop :=
  let R := resolveCheckedStore s bcBuf pos before E
  let written := R.bcOut.drop E.bcOut.length
  ∃ outcome, run (windowInstrs bcBuf (R.posNext - pos) pos R.posNext) f = some outcome ∧
    run (finalInstrs written.length written) f = some outcome

/-- Where the check of the store passes, the value stored is not the marker that a checked read
after it would refuse; where it does not pass, it is not dropped. -/
def StoreSafe (s : FunctionDef) (bcBuf : List UInt8) (pos : Nat) (E : Emitter) (f : Frame V)
    (v : JSValue V) : Prop :=
  let idx := getU16 bcBuf (pos + 1)
  if passes (byteAt bcBuf pos) (f.varBuf idx) then
    checkedRead bcBuf E.cc (pos + 3) idx = true → v.isUninitialized = false
  else dropsCheck s bcBuf pos E = false

theorem run_copy (isStore : byteAt bcBuf pos ∈ checkedStores) (fits : pos + 3 ≤ bcBuf.length)
    (stack : f.stack = v :: rest) :
    run (finalInstrs ((bcBuf.drop pos).take 3).length ((bcBuf.drop pos).take 3)) f =
      some (if passes (byteAt bcBuf pos) (f.varBuf (getU16 bcBuf (pos + 1))) then
        .next ⟨f.setLoc (getU16 bcBuf (pos + 1)) v, rest⟩ else .referenceError) := by
  have here : pos < bcBuf.length := by omega
  have first : bcBuf[pos].toNat = byteAt bcBuf pos := by
    rw [byteAt, List.getElem?_eq_getElem here]
    rfl
  have table : ∀ o ∈ checkedStores, opSize o = 3 := by decide
  have length : ((bcBuf.drop pos).take 3).length = 3 := by
    rw [List.length_take, List.length_drop]
    omega
  have split : (bcBuf.drop pos).take 3 = bcBuf[pos] :: (bcBuf.drop (pos + 1)).take 2 := by
    rw [List.drop_eq_getElem_cons here, List.take_succ_cons]
  have instrs : finalInstrs 3 ((bcBuf.drop pos).take 3) =
      [(byteAt bcBuf pos, (bcBuf.drop (pos + 1)).take 2)] := by
    have kept : ((bcBuf.drop (pos + 1)).take 2).take (3 - 1) = (bcBuf.drop (pos + 1)).take 2 :=
      List.take_of_length_le (List.length_take_le _ _)
    have gone : ((bcBuf.drop (pos + 1)).take 2).drop (3 - 1) = [] :=
      List.drop_eq_nil_of_le (List.length_take_le _ _)
    rw [split, finalInstrs, first, table _ isStore, kept, gone]
    rfl
  rw [length, instrs, run_store isStore (getU16_operands bcBuf pos) stack]
  split <;> rfl

/-- A store written with the reads after it does what it did in the input exactly if `StoreSafe`
holds of it. -/
theorem resolveCheckedStore_preserves_iff (before : Bool)
    (isStore : byteAt bcBuf pos ∈ checkedStores) (fits : pos + 3 ≤ bcBuf.length)
    (read : E.ctx.neverRead s (getU16 bcBuf (pos + 1)) = false) (stack : f.stack = v :: rest) :
    Preserves s bcBuf pos before E f ↔ StoreSafe s bcBuf pos E f v := by
  have ⟨keeps, tail, window, isTail, out⟩ := resolveCheckedStore_spec before isStore read
  have small : getU16 bcBuf (pos + 1) < 2 ^ 16 := getU16_lt bcBuf (pos + 1)
  have after := isTail V ⟨f.setLoc (getU16 bcBuf (pos + 1)) v, rest⟩ v (Function.update_self _ _ _)
  have original := @run_store V f v rest _ tail _ _ isStore (getU16_operands bcBuf pos) stack
  rw [after, ← window.instrs_eq (Nat.le_refl _)] at original
  unfold Preserves StoreSafe
  dsimp only
  rw [original]
  by_cases drops : dropsCheck s bcBuf pos E = true
  · rw [if_pos drops] at out
    rw [out, List.drop_left, run_emitted keeps small stack, drops]
    by_cases pass : passes (byteAt bcBuf pos) (f.varBuf (getU16 bcBuf (pos + 1))) = true
    · rw [if_pos pass, if_pos pass]
      by_cases refused : (checkedRead bcBuf E.cc (pos + 3) (getU16 bcBuf (pos + 1)) &&
          v.isUninitialized) = true
      · have ⟨checked, marker⟩ := Bool.and_eq_true_iff.mp refused
        rw [if_pos refused]
        simp [checked, marker]
      · rw [if_neg refused]
        simpa using refused
    · rw [if_neg pass, if_neg pass]
      simp
  · rw [if_neg drops] at out
    obtain ⟨rfl, out⟩ := out
    rw [out, List.drop_left, run_copy isStore fits stack, Bool.eq_false_iff.mpr drops]
    by_cases pass : passes (byteAt bcBuf pos) (f.varBuf (getU16 bcBuf (pos + 1))) = true
    · rw [if_pos pass, if_pos pass, if_pos pass]
      by_cases refused : (checkedRead bcBuf E.cc (pos + 3) (getU16 bcBuf (pos + 1)) &&
          v.isUninitialized) = true
      · have ⟨checked, marker⟩ := Bool.and_eq_true_iff.mp refused
        rw [if_pos refused]
        simp [checked, marker]
      · rw [if_neg refused]
        simpa using refused
    · rw [if_neg pass, if_neg pass, if_neg pass]
      simp

def oneVariable : FunctionDef := ⟨1, fun _ => false, -1, false⟩

def knowing (initialized : Bool) : Emitter where
  bcOut := []
  lines := .init false 0 0
  ctx := ⟨[true], some [false], some [true], some [initialized]⟩
  cc := ⟨0, -1, 0, 0, 0, 0, 0⟩
  posNext := 0
  lineNum := 0

/-- `put_loc_check 0`, `get_loc_check 0`, `return` -/
def storeAndRead : List UInt8 := [98, 0, 0, 97, 0, 0, 40]

theorem resolveCheckedStore_preserves_iff_storeAndRead :
    Preserves oneVariable storeAndRead 0 true (knowing true) ⟨fun _ => .plain 0, [.plain 1]⟩ ↔
      StoreSafe oneVariable storeAndRead 0 (knowing true) ⟨fun _ => .plain 0, [.plain 1]⟩
        (.plain 1) :=
  resolveCheckedStore_preserves_iff true (by decide) (by decide) (by decide) rfl

/-- A store to a variable in its temporal dead zone that is read at once no longer throws. -/
theorem storeAndRead_unchecked : ¬ ∀ (s : FunctionDef) (bcBuf : List UInt8) (pos : Nat)
    (before : Bool) (E : Emitter) (f : Frame Nat) (v : Nat) (rest : List (JSValue Nat)),
    byteAt bcBuf pos ∈ checkedStores → pos + 3 ≤ bcBuf.length →
      E.ctx.neverRead s (getU16 bcBuf (pos + 1)) = false → f.stack = .plain v :: rest →
        Preserves s bcBuf pos before E f := by
  intro holds
  have ⟨outcome, original, written⟩ := holds oneVariable storeAndRead 0 true (knowing false)
    ⟨fun _ => .uninitialized, [.plain 1]⟩ 1 [] (by decide) (by decide) (by decide) rfl
  have throws : outcome = .referenceError := (Option.some.inj original).symm
  rw [throws] at written
  cases written

/-- Where the pass takes a variable for initialized, it is. -/
def Knows (ctx : OptCtx) (f : Frame V) : Prop :=
  ∀ bits i, ctx.locInitialized = some bits → bits[i]? = some true →
    (f.varBuf i).isUninitialized = false

end Preservation

end PrimJs.CheckedStore
