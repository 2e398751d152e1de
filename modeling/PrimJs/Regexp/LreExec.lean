import PrimJs.Regexp.Backtrack

/-! `lre_exec`, with its search for the first position that matches. -/

namespace PrimJs.Regexp

/-- The context that `lre_exec` sets up. -/
def execContext (u : UnicodeData) (bc : REByteCode) (cbuf : List Nat) (cbuf_type : CbufType) :
    ExecContext where
  unicode := u
  code := bc.code
  cbuf := cbuf
  cbuf_type := if cbuf_type = .bits16 && bc.flags.utf16 then .utf16 else cbuf_type
  capture_count := bc.capture_count
  stack_size_max := bc.stack_size
  multi_line := bc.flags.multi_line
  ignore_case := bc.flags.ignore_case
  is_utf16 := bc.flags.utf16

def initialSlots (capture_count stack_size_max : Nat) : Slots where
  capture := List.replicate (2 * capture_count) .null
  stack := List.replicate stack_size_max (.num 0)

def staticStackBuf : List StackElem := List.replicate 64 (.val 0)

def RE_SEARCH_PREFIX_LEN : Nat := 5 + 1 + 5

def lreHasSearchPrefix (code : List REOp) : Bool :=
  fetch code 0 = some (.split_goto_first (1 + 5)) && fetch code 5 = some .any &&
    fetch code 6 = some (.goto (-(5 + 1 + 5)))

/-- `lre_get_first_char_test`; the size of the code is fuel enough. -/
def lreGetFirstCharTest (code : List REOp) : (fuel pc : Nat) → Option REOp
  | 0, _ => none
  | fuel + 1, pc =>
      match fetch code pc with
      | some (.save_start _) | some (.save_end _) => lreGetFirstCharTest code fuel (pc + 2)
      | some (.simple_greedy_quant _ quant_min _ _) =>
          if quant_min = 0 then none else lreGetFirstCharTest code fuel (pc + 17)
      | some (.char c) => some (.char c)
      | some (.char32 c) => some (.char32 c)
      | some (.range ranges) => some (.range ranges)
      | some (.range32 ranges) => some (.range32 ranges)
      | _ => none

/-- The first code unit equal to `c` from `cptr` on, by `memchr` or by the 16 bit scan. -/
def scanUnit (x : ExecContext) (c : Nat) : (fuel cptr : Nat) → Option Nat
  | 0, _ => none
  | fuel + 1, cptr =>
      if cptr ≥ x.cbuf_end then none
      else if x.unit cptr = c then some cptr
      else scanUnit x c fuel (cptr + 1)

/-- The first character from `cptr` on that passes the test. -/
def scanTest (x : ExecContext) (test : REOp) : (fuel cptr : Nat) → Option Nat
  | 0, _ => none
  | fuel + 1, cptr =>
      if cptr ≥ x.cbuf_end then none
      else
        let (c, cptr1) := getChar x cptr x.cbuf_end
        if lreCharOpMatch x.unicode x.ignore_case x.is_utf16 test c then some cptr
        else scanTest x test fuel cptr1

/-- `scan_char` of `lre_exec_search`: a code unit can be looked for when no match starts in the
middle of a pair. -/
def scanChar (x : ExecContext) : Option REOp → Option Nat
  | some (.char c) =>
      if !x.ignore_case && (x.cbuf_type ≠ .utf16 || c < 0xd800 || c ≥ 0xe000) then some c else none
  | _ => none

/-- The positions that `lre_exec_search` skips, up to the one that it returns; the size of the input
is fuel enough. -/
def searchSkip (x : ExecContext) (pc cptr : Nat) : Option Nat :=
  let test := lreGetFirstCharTest x.code (codeSize x.code) pc
  match scanChar x test with
  | some c =>
      if x.cbuf_type = .bits8 && c > 0xff then none else scanUnit x c (x.cbuf_end + 1) cptr
  | none =>
      match test with
      | some test => scanTest x test (x.cbuf_end + 1) cptr
      | none => some cptr

/-- `lre_exec_search` returns a result: each position left is tried in turn. -/
inductive LreExecSearch (x : ExecContext) (alloc : Nat → Bool) (pc : Nat) :
    Slots → List StackElem → Nat → ExecResult → Prop where
  | exhausted {slots : Slots} {stack_buf : List StackElem} {cptr : Nat} :
      searchSkip x pc cptr = none → LreExecSearch x alloc pc slots stack_buf cptr (.noMatch slots)
  | found {slots : Slots} {stack_buf : List StackElem} {cptr cptr' : Nat} {result : ExecResult} :
      searchSkip x pc cptr = some cptr' → LreExecBacktrack x alloc slots stack_buf pc cptr' result →
      (∀ slots', result ≠ .noMatch slots') → LreExecSearch x alloc pc slots stack_buf cptr result
  | atEnd {slots slots' : Slots} {stack_buf : List StackElem} {cptr cptr' : Nat} :
      searchSkip x pc cptr = some cptr' →
      LreExecBacktrack x alloc slots stack_buf pc cptr' (.noMatch slots') → cptr' ≥ x.cbuf_end →
      LreExecSearch x alloc pc slots stack_buf cptr (.noMatch slots')
  | next {slots slots' : Slots} {stack_buf stack_buf' : List StackElem} {cptr cptr' : Nat}
      {result : ExecResult} : searchSkip x pc cptr = some cptr' →
      BacktrackLeaves x alloc slots stack_buf pc cptr' (.noMatch slots') stack_buf' →
      cptr' < x.cbuf_end →
      LreExecSearch x alloc pc slots' stack_buf' (getChar x cptr' x.cbuf_end).2 result →
      LreExecSearch x alloc pc slots stack_buf cptr result

/-- `lre_exec` returns a result. -/
def LreExec (u : UnicodeData) (bc : REByteCode) (cbuf : List Nat) (cbuf_type : CbufType)
    (cindex : Nat) (alloc : Nat → Bool) (result : ExecResult) : Prop :=
  let x := execContext u bc cbuf cbuf_type
  let slots := initialSlots bc.capture_count bc.stack_size
  if lreHasSearchPrefix bc.code then
    LreExecSearch x alloc RE_SEARCH_PREFIX_LEN slots staticStackBuf cindex result
  else LreExecBacktrack x alloc slots staticStackBuf 0 cindex result

end PrimJs.Regexp
