import PrimJs.Regexp.Compile
import PrimJs.Regexp.CharMatch

/-! What one instruction of `lre_exec_backtrack` does, apart from saving and restoring.

Character positions are indices into the code units of the input. -/

namespace PrimJs.Regexp

inductive CbufType where
  /-- 8 bit chars -/
  | bits8
  /-- 16 bit chars -/
  | bits16
  /-- 16 bit chars, UTF-16 -/
  | utf16
  deriving DecidableEq, Repr

/-- A value of the type `uintptr_t` in a capture or a counter. -/
inductive Word where
  | null
  | num (n : Nat)
  | ptr (p : Nat)
  deriving DecidableEq, Repr

inductive Slot where
  | capture (i : Nat)
  | counter (i : Nat)
  deriving DecidableEq, Repr

/-- The captures and the counters. -/
structure Slots where
  capture : List Word
  stack : List Word
  deriving DecidableEq, Repr

namespace Slots

def get? (m : Slots) : Slot → Option Word
  | .capture i => m.capture[i]?
  | .counter i => m.stack[i]?

def set (m : Slots) : Slot → Word → Slots
  | .capture i, w => { m with capture := m.capture.set i w }
  | .counter i, w => { m with stack := m.stack.set i w }

end Slots

/-- `REExecContext` without the backtracking stack. -/
structure ExecContext where
  unicode : UnicodeData
  code : List REOp
  cbuf : List Nat
  cbuf_type : CbufType
  capture_count : Nat
  stack_size_max : Nat
  multi_line : Bool
  ignore_case : Bool
  is_utf16 : Bool

namespace ExecContext

variable (x : ExecContext)

def cbuf_end : Nat := x.cbuf.length

def unit (i : Nat) : Nat := x.cbuf.getD i 0

end ExecContext

def isHighSurrogate (c : Nat) : Bool := 0xd800 ≤ c && c < 0xdc00

def isLowSurrogate (c : Nat) : Bool := 0xdc00 ≤ c && c < 0xe000

/-! ### Characters -/

/-- `GET_CHAR`: the character and the position after it. -/
def getChar (x : ExecContext) (cptr cbuf_end : Nat) : Nat × Nat :=
  let c := x.unit cptr
  let cptr := cptr + 1
  if isHighSurrogate c && x.cbuf_type = .utf16 && cptr < cbuf_end &&
      isLowSurrogate (x.unit cptr) then
    (surrogatePair c (x.unit cptr) + 0x10000, cptr + 1)
  else (c, cptr)

def peekChar (x : ExecContext) (cptr cbuf_end : Nat) : Nat := (getChar x cptr cbuf_end).1

/-- `GET_PREV_CHAR`: the character before and its position. -/
def getPrevChar (x : ExecContext) (cptr cbuf_start : Nat) : Nat × Nat :=
  let cptr := cptr - 1
  let c := x.unit cptr
  if isLowSurrogate c && x.cbuf_type = .utf16 && cptr > cbuf_start &&
      isHighSurrogate (x.unit (cptr - 1)) then
    (surrogatePair (x.unit (cptr - 1)) c + 0x10000, cptr - 1)
  else (c, cptr)

def peekPrevChar (x : ExecContext) (cptr cbuf_start : Nat) : Nat :=
  (getPrevChar x cptr cbuf_start).1

def prevChar (x : ExecContext) (cptr cbuf_start : Nat) : Nat := (getPrevChar x cptr cbuf_start).2

def isLineTerminator (c : Nat) : Bool := c = 0x0a || c = 0x0d || c = 0x2028 || c = 0x2029

def isWordChar (c : Nat) : Bool :=
  ('0'.toNat ≤ c && c ≤ '9'.toNat) || ('a'.toNat ≤ c && c ≤ 'z'.toNat) ||
    ('A'.toNat ≤ c && c ≤ 'Z'.toNat) || c = '_'.toNat

def canonicalizeIf (x : ExecContext) (c : Nat) : Nat :=
  if x.ignore_case then lreCanonicalize x.unicode c x.is_utf16 else c

def charOpTest (x : ExecContext) (op : REOp) (c : Nat) : Bool :=
  match op with
  | .dot => !isLineTerminator c
  | .any => true
  | op => lreCharOpMatch x.unicode x.ignore_case x.is_utf16 op c

/-- `lre_match_char_op`, and the instruction itself in `lre_exec_backtrack`. -/
def lreMatchCharOp (x : ExecContext) (op : REOp) (cptr : Nat) : Option Nat :=
  if cptr ≥ x.cbuf_end then none
  else
    let (c, cptr) := getChar x cptr x.cbuf_end
    if charOpTest x op c then some cptr else none

/-- `lre_get_char_op_size` is not -1. -/
def isCharOp : REOp → Bool
  | .char _ | .char32 _ | .dot | .any | .range _ | .range32 _ => true
  | _ => false

/-! ### Assertions and back references -/

def lineStartTest (x : ExecContext) (cptr : Nat) : Bool :=
  cptr = 0 || (x.multi_line && isLineTerminator (peekPrevChar x cptr 0))

def lineEndTest (x : ExecContext) (cptr : Nat) : Bool :=
  cptr = x.cbuf_end || (x.multi_line && isLineTerminator (peekChar x cptr x.cbuf_end))

def wordBoundaryTest (x : ExecContext) (cptr : Nat) : Bool :=
  let v1 := cptr ≠ 0 && isWordChar (peekPrevChar x cptr 0)
  let v2 := cptr < x.cbuf_end && isWordChar (peekChar x cptr x.cbuf_end)
  v1 != v2

/-- The loop of `REOP_back_reference`; the length of the capture is fuel enough. -/
def backReferenceLoop (x : ExecContext) (cptr1_end : Nat) :
    (fuel cptr1 cptr : Nat) → Option Nat
  | 0, _, cptr => some cptr
  | fuel + 1, cptr1, cptr =>
      if cptr1 < cptr1_end then
        if cptr ≥ x.cbuf_end then none
        else
          let (c1, cptr1) := getChar x cptr1 cptr1_end
          let (c2, cptr) := getChar x cptr x.cbuf_end
          if canonicalizeIf x c1 ≠ canonicalizeIf x c2 then none
          else backReferenceLoop x cptr1_end fuel cptr1 cptr
      else some cptr

/-- The loop of `REOP_backward_back_reference`. -/
def backwardBackReferenceLoop (x : ExecContext) (cptr1_start : Nat) :
    (fuel cptr1 cptr : Nat) → Option Nat
  | 0, _, cptr => some cptr
  | fuel + 1, cptr1, cptr =>
      if cptr1 > cptr1_start then
        if cptr = 0 then none
        else
          let (c1, cptr1) := getPrevChar x cptr1 cptr1_start
          let (c2, cptr) := getPrevChar x cptr 0
          if canonicalizeIf x c1 ≠ canonicalizeIf x c2 then none
          else backwardBackReferenceLoop x cptr1_start fuel cptr1 cptr
      else some cptr

/-- A back reference to the capture `val`: the position after it, or `none` for no match. -/
def backReference (x : ExecContext) (m : Slots) (backward : Bool) (val cptr : Nat) : Option Nat :=
  if val ≥ x.capture_count then none
  else
    match m.get? (.capture (2 * val)), m.get? (.capture (2 * val + 1)) with
    | some (.ptr cptr1_start), some (.ptr cptr1_end) =>
        if backward then
          backwardBackReferenceLoop x cptr1_start (cptr1_end - cptr1_start) cptr1_end cptr
        else backReferenceLoop x cptr1_end (cptr1_end - cptr1_start) cptr1_start cptr
    | _, _ => some cptr

/-! ### The simple greedy quantifier -/

/-- An instruction that `re_is_simple_quantifier` accepts: `none` for another one, `some none` when
the test fails. -/
def simpleTest (x : ExecContext) (op : REOp) (cptr : Nat) : Option (Option Nat) :=
  match op with
  | .line_start => some (if lineStartTest x cptr then some cptr else none)
  | .line_end => some (if lineEndTest x cptr then some cptr else none)
  | .word_boundary => some (if wordBoundaryTest x cptr then some cptr else none)
  | .not_word_boundary => some (if wordBoundaryTest x cptr then none else some cptr)
  | op => if isCharOp op then some (lreMatchCharOp x op cptr) else none

/-- `lre_exec_backtrack` with `no_recurse`: the atom of a simple quantifier at `pc`, up to its
`REOP_match`. The size of the code is fuel enough for straight-line code. -/
def execAtom (x : ExecContext) : (fuel pc cptr : Nat) → Option (Option Nat)
  | 0, _, _ => none
  | fuel + 1, pc, cptr =>
      match fetch x.code pc with
      | none => none
      | some .match => some (some cptr)
      | some op =>
          match simpleTest x op cptr with
          | none => none
          | some none => some none
          | some (some cptr) => execAtom x fuel (pc + op.size) cptr

/-- The loop of `REOP_simple_greedy_quant` after `q` matches: the number of matches and the last
position. A match moves on in the input, whose length is fuel enough. -/
def simpleGreedyLoop (x : ExecContext) (pc1 quant_max : Nat) :
    (fuel q cptr : Nat) → Option (Nat × Nat)
  | 0, _, _ => none
  | fuel + 1, q, cptr =>
      match execAtom x (codeSize x.code + 1) pc1 cptr with
      | none => none
      | some none => some (q, cptr)
      | some (some cptr) =>
          if q + 1 ≥ quant_max && quant_max ≠ INT32_MAX then some (q + 1, cptr)
          else simpleGreedyLoop x pc1 quant_max fuel (q + 1) cptr

def simpleCharLoop (x : ExecContext) (op : REOp) (quant_max : Nat) :
    (fuel q cptr : Nat) → Option (Nat × Nat)
  | 0, _, _ => none
  | fuel + 1, q, cptr =>
      if q < quant_max || quant_max = INT32_MAX then
        match lreMatchCharOp x op cptr with
        | some cptr => simpleCharLoop x op quant_max fuel (q + 1) cptr
        | none => some (q, cptr)
      else some (q, cptr)

/-- The matches that `REOP_simple_greedy_quant` counts for the atom at `pc1`. -/
def simpleGreedyCount (x : ExecContext) (pc1 next_pos quant_max cptr : Nat) : Option (Nat × Nat) :=
  match fetch x.code pc1 with
  | none => none
  | some op =>
      if isCharOp op && next_pos = op.size + 1 then
        simpleCharLoop x op quant_max (x.cbuf_end + 1) 0 cptr
      else simpleGreedyLoop x pc1 quant_max (x.cbuf_end + 1) 0 cptr

/-! ### Instructions -/

/-- `REExecStateEnum`, with the matches that a greedy quantifier can still give back. -/
inductive FrameKind where
  | split
  | lookahead
  | negative_lookahead
  | greedy_quant (count : Nat)
  deriving DecidableEq, Repr

inductive Action where
  | noMatch
  | goOn (pc cptr : Nat)
  /-- Set the slots in order, then go on. -/
  | write (writes : List (Slot × Word)) (pc stack_len : Nat)
  /-- Push a frame that resumes at `frame_pc`, then go on. -/
  | push (kind : FrameKind) (frame_pc pc cptr : Nat)
  | matched
  /-- What the code never does: a failed assertion, an address out of bounds. -/
  | stuck
  deriving DecidableEq, Repr

/-- The target of a jump relative to `pc`. -/
def jump (pc : Nat) (offset : Int) : Nat := (pc + offset).toNat

def testAction (pc : Nat) : Option Nat → Action
  | some cptr => .goOn pc cptr
  | none => .noMatch

/-- The stores of `REOP_save_reset`. -/
def resetWrites (val val2 : Nat) : List (Slot × Word) :=
  (List.range' val (val2 + 1 - val)).flatMap fun i =>
    [(.capture (2 * i), .null), (.capture (2 * i + 1), .null)]

/-- One turn of the switch of `lre_exec_backtrack`. -/
def action (x : ExecContext) (m : Slots) (stack_len pc cptr : Nat) : Action :=
  match fetch x.code pc with
  | none => .stuck
  | some op =>
      let pc := pc + op.size
      match op with
      | .match => .matched
      | .char _ | .char32 _ | .dot | .any | .range _ | .range32 _ =>
          testAction pc (lreMatchCharOp x op cptr)
      | .split_next_first val => .push .split (jump pc val) pc cptr
      | .split_goto_first val => .push .split pc (jump pc val) cptr
      | .lookahead val => .push .lookahead (jump pc val) pc cptr
      | .negative_lookahead val => .push .negative_lookahead (jump pc val) pc cptr
      | .goto val => .goOn (jump pc val) cptr
      | .line_start => testAction pc (if lineStartTest x cptr then some cptr else none)
      | .line_end => testAction pc (if lineEndTest x cptr then some cptr else none)
      | .save_start val =>
          if val < x.capture_count then .write [(.capture (2 * val), .ptr cptr)] pc stack_len
          else .stuck
      | .save_end val =>
          if val < x.capture_count then .write [(.capture (2 * val + 1), .ptr cptr)] pc stack_len
          else .stuck
      | .save_reset val val2 =>
          if val2 < x.capture_count then .write (resetWrites val val2) pc stack_len else .stuck
      | .push_i32 val => .write [(.counter stack_len, .num val)] pc (stack_len + 1)
      | .drop => if stack_len = 0 then .stuck else .write [] pc (stack_len - 1)
      | .loop val =>
          if stack_len = 0 then .stuck
          else
            match m.get? (.counter (stack_len - 1)) with
            | some (.num n) =>
                let n := (n + (2 ^ 64 - 1)) % 2 ^ 64
                .write [(.counter (stack_len - 1), .num n)] (if n ≠ 0 then jump pc val else pc)
                  stack_len
            | _ => .stuck
      | .push_char_pos => .write [(.counter stack_len, .ptr cptr)] pc (stack_len + 1)
      | .bne_char_pos val =>
          if stack_len = 0 then .stuck
          else
            match m.get? (.counter (stack_len - 1)) with
            | some w => .write [] (if w ≠ .ptr cptr then jump pc val else pc) (stack_len - 1)
            | none => .stuck
      | .word_boundary => testAction pc (if wordBoundaryTest x cptr then some cptr else none)
      | .not_word_boundary => testAction pc (if wordBoundaryTest x cptr then none else some cptr)
      | .back_reference val => testAction pc (backReference x m false val cptr)
      | .backward_back_reference val => testAction pc (backReference x m true val cptr)
      | .prev => testAction pc (if cptr = 0 then none else some (prevChar x cptr 0))
      | .simple_greedy_quant next_pos quant_min quant_max _ =>
          match simpleGreedyCount x pc next_pos quant_max cptr with
          | none => .stuck
          | some (q, cptr) =>
              if q < quant_min then .noMatch
              else if q > quant_min then
                .push (.greedy_quant (q - quant_min)) (pc - 16) (pc + next_pos) cptr
              else .goOn (pc + next_pos) cptr

/-- Giving back one match: the position before the `char_count` characters of the atom. -/
def giveBack (x : ExecContext) : (char_count cptr : Nat) → Nat
  | 0, cptr => cptr
  | n + 1, cptr => giveBack x n (prevChar x cptr 0)

/-- Where a greedy frame with the operands at `frame_pc` goes on, and its character count. -/
def greedyOperands (x : ExecContext) (frame_pc : Nat) : Option (Nat × Nat) :=
  match fetch x.code (frame_pc - 1) with
  | some (.simple_greedy_quant next_pos _ _ char_count) => some (frame_pc + 16 + next_pos, char_count)
  | _ => none

/-- What `lre_exec_backtrack` returns, with the captures and the counters. -/
inductive ExecResult where
  /-- 1 -/
  | «match» (slots : Slots)
  /-- 0 -/
  | noMatch (slots : Slots)
  /-- -1: no memory for the stack -/
  | noMemory
  | stuck
  deriving DecidableEq, Repr

end PrimJs.Regexp
