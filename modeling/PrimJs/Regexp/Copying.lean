import PrimJs.Foundation.Machine
import PrimJs.Regexp.Exec

/-! The reference machine: plain backtracking that copies all the captures and counters at every
split and lookahead, and takes the copy back on failure. -/

namespace PrimJs.Regexp

structure CopyFrame where
  kind : FrameKind
  pc : Nat
  cptr : Nat
  stack_len : Nat
  saved : Slots
  deriving DecidableEq, Repr

structure CopyState where
  pc : Nat
  cptr : Nat
  stack_len : Nat
  slots : Slots
  /-- the newest first -/
  frames : List CopyFrame
  deriving DecidableEq, Repr

/-- A failure goes back to the newest frame, and past the lookaheads that fail with it; without a
frame it gives back the copy made at the start. -/
def backtrack (x : ExecContext) (base : Slots) : List CopyFrame → Except ExecResult CopyState
  | [] => .error (.noMatch base)
  | f :: frames =>
      match f.kind with
      | .split | .negative_lookahead => .ok ⟨f.pc, f.cptr, f.stack_len, f.saved, frames⟩
      | .lookahead => backtrack x base frames
      | .greedy_quant count =>
          match greedyOperands x f.pc with
          | none => .error .stuck
          | some (pc, char_count) =>
              let cptr := giveBack x char_count f.cptr
              .ok ⟨pc, cptr, f.stack_len, f.saved,
                if count - 1 = 0 then frames
                else { f with kind := .greedy_quant (count - 1), cptr := cptr } :: frames⟩

def FrameKind.isLookahead : FrameKind → Bool
  | .lookahead | .negative_lookahead => true
  | _ => false

def enclosingLookahead : List CopyFrame → Option (CopyFrame × List CopyFrame)
  | [] => none
  | f :: frames => if f.kind.isLookahead then some (f, frames) else enclosingLookahead frames

/-- A match of the whole expression or of a lookahead, whose inner frames are dropped. -/
def succeed (x : ExecContext) (base : Slots) (s : CopyState) : Except ExecResult CopyState :=
  match enclosingLookahead s.frames with
  | none => .error (.match s.slots)
  | some (f, frames) =>
      if f.kind = .lookahead then .ok ⟨f.pc, f.cptr, f.stack_len, s.slots, frames⟩
      else backtrack x base frames

/-- `none` when a slot does not exist. -/
def Slots.setAll (m : Slots) : List (Slot × Word) → Option Slots
  | [] => some m
  | (slot, value) :: writes =>
      match m.get? slot with
      | none => none
      | some _ => (m.set slot value).setAll writes

def copyStep (x : ExecContext) (base : Slots) (s : CopyState) : Except ExecResult CopyState :=
  match action x s.slots s.stack_len s.pc s.cptr with
  | .stuck => .error .stuck
  | .noMatch => backtrack x base s.frames
  | .goOn pc cptr => .ok { s with pc := pc, cptr := cptr }
  | .write writes pc stack_len =>
      match s.slots.setAll writes with
      | none => .error .stuck
      | some slots => .ok { s with slots := slots, pc := pc, stack_len := stack_len }
  | .push kind frame_pc pc cptr =>
      .ok { s with
        pc := pc
        cptr := cptr
        frames := ⟨kind, frame_pc, cptr, s.stack_len, s.slots⟩ :: s.frames }
  | .matched => succeed x base s

def copyStart (slots : Slots) (pc cptr : Nat) : CopyState := ⟨pc, cptr, 0, slots, []⟩

/-- The reference machine returns `result`. -/
def CopyingExec (x : ExecContext) (slots : Slots) (pc cptr : Nat) (result : ExecResult) : Prop :=
  Stepping.Returns (copyStep x slots) (copyStart slots pc cptr) result

end PrimJs.Regexp
