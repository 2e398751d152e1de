import PrimJs.Foundation.Machine
import PrimJs.Regexp.Exec

/-! `lre_exec_backtrack`: frames and undo records on one growing stack. -/

namespace PrimJs.Regexp

/-- `REExecStateEnum` -/
inductive ExecStateType where
  | split
  | lookahead
  | negative_lookahead
  | greedy_quant
  deriving DecidableEq, Repr

/-- `StackElem`, one machine word in the source; a position in the stack is an offset. -/
inductive StackElem where
  | ptr (p : Nat)
  | val (n : Nat)
  /-- `FRAME_STATE`: the type and the counter stack length -/
  | state (type : ExecStateType) (stack_len : Nat)
  | slot (slot : Slot)
  | old (value : Word)
  deriving DecidableEq, Repr

/-- The variables of `lre_exec_backtrack`. The length of `stack_buf` is `stack_size`. -/
structure ExecState where
  pc : Nat
  cptr : Nat
  stack_len : Nat
  slots : Slots
  stack_buf : List StackElem
  sp : Nat
  bp : Nat
  la : Nat

def FRAME_SIZE : Nat := 5

structure ExecFrame where
  pc : Nat
  cptr : Nat
  prev_bp : Nat
  type : ExecStateType
  stack_len : Nat
  extra : Nat

/-- The frame that ends at `bp`. -/
def readFrame (stack_buf : List StackElem) (bp : Nat) : Option ExecFrame :=
  match stack_buf[bp - 5]?, stack_buf[bp - 4]?, stack_buf[bp - 3]?, stack_buf[bp - 2]?,
      stack_buf[bp - 1]? with
  | some (.ptr pc), some (.ptr cptr), some (.val prev_bp), some (.state type stack_len),
      some (.val extra) => some { pc, cptr, prev_bp, type, stack_len, extra }
  | _, _, _, _, _ => none

/-! ### Growth -/

/-- `stack_realloc`; `alloc` says which sizes, in elements, can be allocated. The sizes of a run
increase, so that a size stands for a call. -/
def stackRealloc (alloc : Nat → Bool) (n : Nat) (s : ExecState) : Except ExecResult ExecState :=
  let stack_size := s.stack_buf.length
  let new_size := max (stack_size * 3 / 2) n
  if alloc new_size then
    .ok { s with stack_buf := s.stack_buf ++ List.replicate (new_size - stack_size) (.val 0) }
  else .error .noMemory

def checkStackSpace (alloc : Nat → Bool) (n : Nat) (s : ExecState) : Except ExecResult ExecState :=
  if s.stack_buf.length - s.sp < n then stackRealloc alloc (s.sp + n) s else .ok s

/-! ### Undo records and frames -/

def saveSlot (alloc : Nat → Bool) (slot : Slot) (value : Word) (s : ExecState) :
    Except ExecResult ExecState :=
  match s.slots.get? slot with
  | none => .error .stuck
  | some old =>
      if old ≠ value then do
        let s ← checkStackSpace alloc 2 s
        .ok { s with
          stack_buf := (s.stack_buf.set s.sp (.slot slot)).set (s.sp + 1) (.old old)
          sp := s.sp + 2
          slots := s.slots.set slot value }
      else .ok s

def saveSlots (alloc : Nat → Bool) : List (Slot × Word) → ExecState → Except ExecResult ExecState
  | [], s => .ok s
  | (slot, value) :: writes, s => do saveSlots alloc writes (← saveSlot alloc slot value s)

/-- `UNDO_TO`; the height of the stack is fuel enough. -/
def undoTo (limit : Nat) : (fuel : Nat) → ExecState → Except ExecResult ExecState
  | 0, _ => .error .stuck
  | fuel + 1, s =>
      if s.sp > limit then
        match s.stack_buf[s.sp - 2]?, s.stack_buf[s.sp - 1]? with
        | some (.slot slot), some (.old value) =>
            undoTo limit fuel { s with slots := s.slots.set slot value, sp := s.sp - 2 }
        | _, _ => .error .stuck
      else .ok s

def pushFrame (alloc : Nat → Bool) (type : ExecStateType) (pc1 cptr1 extra : Nat) (s : ExecState) :
    Except ExecResult ExecState := do
  let s ← checkStackSpace alloc FRAME_SIZE s
  .ok { s with
    stack_buf := ((((s.stack_buf.set s.sp (.ptr pc1)).set (s.sp + 1) (.ptr cptr1)).set (s.sp + 2)
      (.val s.bp)).set (s.sp + 3) (.state type s.stack_len)).set (s.sp + 4) (.val extra)
    sp := s.sp + FRAME_SIZE
    bp := s.sp + FRAME_SIZE }

/-- The frame that an instruction asks for. A lookahead frame becomes the innermost one. -/
def pushKind (alloc : Nat → Bool) (kind : FrameKind) (pc1 cptr1 : Nat) (s : ExecState) :
    Except ExecResult ExecState :=
  match kind with
  | .split => pushFrame alloc .split pc1 cptr1 0 s
  | .greedy_quant count => pushFrame alloc .greedy_quant pc1 cptr1 count s
  | .lookahead => do
      let s ← pushFrame alloc .lookahead pc1 cptr1 s.la s
      .ok { s with la := s.bp }
  | .negative_lookahead => do
      let s ← pushFrame alloc .negative_lookahead pc1 cptr1 s.la s
      .ok { s with la := s.bp }

/-! ### The label `no_match` -/

/-- Each turn of the loop takes the newest frame, and the height of the stack is fuel enough. -/
def noMatch (x : ExecContext) : (fuel : Nat) → ExecState → Except ExecResult ExecState
  | 0, _ => .error .stuck
  | fuel + 1, s =>
      if s.bp = 0 then do
        let s ← undoTo 0 (s.sp + 1) s
        .error (.noMatch s.slots)
      else do
        let s ← undoTo s.bp (s.sp + 1) s
        match readFrame s.stack_buf s.bp with
        | none => .error .stuck
        | some f =>
            if f.type = .greedy_quant then
              match greedyOperands x f.pc with
              | none => .error .stuck
              | some (pc, char_count) =>
                  -- give back one more match of the quantified atom
                  let cptr := giveBack x char_count f.cptr
                  let extra := f.extra - 1
                  let s := { s with
                    pc := pc
                    cptr := cptr
                    stack_len := f.stack_len
                    stack_buf := (s.stack_buf.set (s.bp - 4) (.ptr cptr)).set (s.bp - 1) (.val extra) }
                  .ok (if extra = 0 then { s with sp := s.bp - FRAME_SIZE, bp := f.prev_bp } else s)
            else
              let s := { s with
                pc := f.pc
                cptr := f.cptr
                stack_len := f.stack_len
                sp := s.bp - FRAME_SIZE
                bp := f.prev_bp
                la := if f.type ≠ .split then f.extra else s.la }
              -- a failed lookahead also fails the enclosing alternative
              if f.type = .lookahead then noMatch x fuel s else .ok s

/-! ### `REOP_match` -/

/-- The first loop: unlink the frames down to the lookahead's, and remember in each where the undo
records above it end. -/
def unlinkFrames (la_bp : Nat) : (fuel : Nat) → ExecState → Except ExecResult ExecState
  | 0, _ => .error .stuck
  | fuel + 1, s =>
      match readFrame s.stack_buf s.bp with
      | none => .error .stuck
      | some f =>
          let s' := { s with
            sp := s.bp - FRAME_SIZE
            bp := f.prev_bp
            stack_buf := s.stack_buf.set (s.bp - 1) (.val s.sp) }
          if s.bp = la_bp then
            .ok { s' with pc := f.pc, cptr := f.cptr, stack_len := f.stack_len, la := f.extra }
          else unlinkFrames la_bp fuel s'

/-- `while (sp1 < next_sp) *sp++ = *sp1++;` for `n` elements -/
def moveDown : (n sp sp1 : Nat) → List StackElem → List StackElem
  | 0, _, _, stack_buf => stack_buf
  | n + 1, sp, sp1, stack_buf =>
      moveDown n (sp + 1) (sp1 + 1) (stack_buf.set sp (stack_buf.getD sp1 (.val 0)))

/-- The second loop: the undo records between the unlinked frames move down. -/
def compactRecords (sp_top : Nat) : (fuel sp1 : Nat) → ExecState → Except ExecResult ExecState
  | 0, _, _ => .error .stuck
  | fuel + 1, sp1, s =>
      if sp1 < sp_top then
        match s.stack_buf[sp1 + 4]? with
        | some (.val next_sp) =>
            let n := next_sp - (sp1 + FRAME_SIZE)
            compactRecords sp_top fuel (sp1 + FRAME_SIZE + n)
              { s with stack_buf := moveDown n s.sp (sp1 + FRAME_SIZE) s.stack_buf, sp := s.sp + n }
        | _ => .error .stuck
      else .ok s

/-- A negative lookahead matched: undo everything since it started. -/
def unwindFrames (la_bp : Nat) : (fuel : Nat) → ExecState → Except ExecResult ExecState
  | 0, _ => .error .stuck
  | fuel + 1, s => do
      let s ← undoTo s.bp (s.sp + 1) s
      match readFrame s.stack_buf s.bp with
      | none => .error .stuck
      | some f =>
          let s' := { s with sp := s.bp - FRAME_SIZE, bp := f.prev_bp }
          if s.bp = la_bp then .ok { s' with la := f.extra } else unwindFrames la_bp fuel s'

/-- `REOP_match` without `no_recurse` -/
def matched (x : ExecContext) (s : ExecState) : Except ExecResult ExecState :=
  if s.la = 0 then .error (.match s.slots)
  else
    match readFrame s.stack_buf s.la with
    | none => .error .stuck
    | some f =>
        if f.type = .lookahead then do
          let s' ← unlinkFrames s.la (s.sp + 1) s
          compactRecords s.sp (s.sp + 1) s'.sp s'
        else do
          let s' ← unwindFrames s.la (s.sp + 1) s
          noMatch x (s'.sp + 1) s'

/-! ### The loop -/

/-- One turn of the loop of `lre_exec_backtrack`. -/
def execStep (x : ExecContext) (alloc : Nat → Bool) (s : ExecState) : Except ExecResult ExecState :=
  match action x s.slots s.stack_len s.pc s.cptr with
  | .stuck => .error .stuck
  | .noMatch => noMatch x (s.sp + 1) s
  | .goOn pc cptr => .ok { s with pc := pc, cptr := cptr }
  | .write writes pc stack_len => do
      let s ← saveSlots alloc writes s
      .ok { s with pc := pc, stack_len := stack_len }
  | .push kind frame_pc pc cptr => do
      let s ← pushKind alloc kind frame_pc cptr s
      .ok { s with pc := pc, cptr := cptr }
  | .matched => matched x s

/-- The state of `lre_exec_backtrack` before its loop. -/
def execStart (slots : Slots) (stack_buf : List StackElem) (pc cptr : Nat) : ExecState where
  pc := pc
  cptr := cptr
  stack_len := 0
  slots := slots
  stack_buf := stack_buf
  sp := 0
  bp := 0
  la := 0

/-- `lre_exec_backtrack` returns `result`. -/
def LreExecBacktrack (x : ExecContext) (alloc : Nat → Bool) (slots : Slots)
    (stack_buf : List StackElem) (pc cptr : Nat) (result : ExecResult) : Prop :=
  Stepping.Returns (execStep x alloc) (execStart slots stack_buf pc cptr) result

/-- The same with the stack as the run leaves it, which returning does not change. -/
def BacktrackLeaves (x : ExecContext) (alloc : Nat → Bool) (slots : Slots)
    (stack_buf : List StackElem) (pc cptr : Nat) (result : ExecResult)
    (stack_buf' : List StackElem) : Prop :=
  ∃ s, Stepping.Reaches (execStep x alloc) (execStart slots stack_buf pc cptr) s ∧
    execStep x alloc s = .error result ∧ s.stack_buf = stack_buf'

end PrimJs.Regexp
