import PrimJs.Bytecode.Bytes
import PrimJs.Bytecode.Opcode
import PrimJs.Foundation.OperationRun
import PrimJs.Optimizer.ConstFold

/-! Constant folding in the loop that emits the code of a function. The loop remembers where the last
two constants were pushed; it reads the code that it has emitted to learn what they are. -/

namespace PrimJs.ConstFold

/-! The loop -/

/-- The part of the state of `resolve_labels` that folding uses -/
structure Emitter where
  bcOut : List UInt8
  pos1 : Option Nat
  pos2 : Option Nat
  val1 : BitVec 32
  val2 : BitVec 32
  isBool1 : Bool
  isBool2 : Bool
deriving DecidableEq

def Emitter.start : Emitter := ⟨[], none, none, 0, 0, false, false⟩

def pushShortInt (v : BitVec 32) : List UInt8 :=
  if -1 ≤ v.toInt ∧ v.toInt ≤ 7 then [UInt8.ofNat (opPush0 + v.toInt).toNat]
  else if v.toInt = toInt8 v.toNat then [UInt8.ofNat opPushI8, UInt8.ofNat v.toNat]
  else if v.toInt = toInt16 v.toNat then UInt8.ofNat opPushI16 :: u16Bytes v.toNat
  else UInt8.ofNat opPushI32 :: u32Bytes v.toNat

def pushBool (b : Bool) : List UInt8 := [UInt8.ofNat (if b then opPushTrue else opPushFalse)]

/-- The constant that is pushed at `start`, when `size` bytes stand there -/
def constPush (buf : List UInt8) (start size : Nat) : Option (BitVec 32 × Bool) :=
  let op := byteAt buf start
  if opPushMinus1 ≤ op ∧ op ≤ opPush7 then some (BitVec.ofInt 32 (op - opPush0), false)
  else if op = opPushI8 ∧ 2 ≤ size then
    some (BitVec.ofInt 32 (toInt8 (byteAt buf (start + 1))), false)
  else if op = opPushI16 ∧ 3 ≤ size then
    some (BitVec.ofInt 32 (toInt16 (getU16 buf (start + 1))), false)
  else if op = opPushI32 ∧ 5 ≤ size then some (BitVec.ofNat 32 (getU32 buf (start + 1)), false)
  else if op = opPushTrue then some (1, true)
  else if op = opPushFalse then some (0, true)
  else none

def updateTracker (s : Emitter) (start : Nat) : Emitter :=
  if s.bcOut.length ≤ start then s
  else
    match constPush s.bcOut start (s.bcOut.length - start) with
    | some (v, b) => { s with
        pos1 := s.pos2
        val1 := s.val2
        isBool1 := s.isBool2
        pos2 := some start
        val2 := v
        isBool2 := b }
    | none => { s with
        pos1 := none
        pos2 := none }

/-- An iteration that emits `bytes` -/
def append (s : Emitter) (bytes : List UInt8) : Emitter :=
  updateTracker { s with bcOut := s.bcOut ++ bytes } s.bcOut.length

def BinaryOp.code : BinaryOp → Nat
  | add => opAdd
  | sub => opSub
  | mul => opMul
  | div => opDiv
  | mod => opMod
  | and => opAnd
  | or => opOr
  | xor => opXor
  | shl => opShl
  | sar => opSar
  | shr => opShr

def Comparison.code : Comparison → Nat
  | lt => opLt
  | lte => opLte
  | gt => opGt
  | gte => opGte
  | eq => opEq
  | neq => opNeq
  | strictEq => opStrictEq
  | strictNeq => opStrictNeq

def UnaryOp.code : UnaryOp → Nat
  | neg => opNeg
  | not => opNot
  | inc => opInc
  | dec => opDec

def isConstPush (op : Nat) : Bool :=
  op = opPushI32 ∨ op = opPushTrue ∨ op = opPushFalse ∨ opPushMinus1 ≤ op ∧ op ≤ opPushI16

/-- What another instruction emits -/
structure Code where
  op : UInt8
  rest : List UInt8
  plain : isConstPush op.toNat = false

def Code.bytes (code : Code) : List UInt8 := code.op :: code.rest

/-- What one iteration of the loop consumes: an instruction or, where the loop looks ahead, a constant
and the operators after it. `nothing` stands for code that has no effect and for which nothing is
emitted, such as a line number. -/
inductive Instr
  | pushI32 (v : BitVec 32)
  | pushBool (b : Bool)
  | i32Neg (v : BitVec 32)
  | i32Not (v : BitVec 32)
  | i32Lnot (v : BitVec 32)
  | boolLnots (b : Bool) (more : Nat)
  | binary (op : BinaryOp)
  | compare (op : Comparison)
  | unary (op : UnaryOp)
  | lnot
  | label (refCount : Nat)
  | nothing
  | other (code : Code)

def dispatchBinary (s : Emitter) (op : BinaryOp) : Emitter :=
  match s.pos1, s.pos2 with
  | some pos1, some _ =>
      match optConstFoldTryBinary op s.val1 s.val2 with
      | some result =>
          updateTracker { s with
            bcOut := s.bcOut.take pos1 ++ pushShortInt result
            pos2 := some pos1
            val2 := result
            isBool2 := false
            pos1 := none } s.bcOut.length
      | none => append s [UInt8.ofNat op.code]
  | _, _ => append s [UInt8.ofNat op.code]

def dispatchCompare (s : Emitter) (op : Comparison) : Emitter :=
  match s.pos1, s.pos2 with
  | some pos1, some _ =>
      match optConstFoldTryCompare op s.val1 s.val2 s.isBool1 s.isBool2 with
      | some result =>
          updateTracker { s with
            bcOut := s.bcOut.take pos1 ++ pushBool result
            pos1 := none
            pos2 := none } s.bcOut.length
      | none => append s [UInt8.ofNat op.code]
  | _, _ => append s [UInt8.ofNat op.code]

def dispatchUnary (s : Emitter) (op : UnaryOp) : Emitter :=
  match s.pos2 with
  | some pos2 =>
      match optConstFoldTryUnary op s.val2 with
      | some result =>
          updateTracker { s with
            bcOut := s.bcOut.take pos2 ++ pushShortInt result
            val2 := result } s.bcOut.length
      | none => append s [UInt8.ofNat op.code]
  | none => append s [UInt8.ofNat op.code]

/-- `try_fold_lnot_on_const`, where no branch follows; it moves the start of the emission. -/
def dispatchLnot (s : Emitter) : Emitter :=
  match s.pos2 with
  | some pos2 => { s with
      bcOut := s.bcOut.take pos2 ++ pushBool (s.val2 = 0)
      pos1 := none
      pos2 := none }
  | none => append s [UInt8.ofNat opLnot]

/-- `n` times `lnot` -/
def lnots (b : Bool) : Nat → Bool
  | 0 => b
  | n + 1 => lnots (!b) n

def dispatch (s : Emitter) : Instr → Emitter
  | .pushI32 v => append s (pushShortInt v)
  | .pushBool b => append s (pushBool b)
  | .i32Neg v =>
      if v ≠ int32Min ∧ v ≠ 0 then append s (pushShortInt (-v))
      else dispatchUnary (append s (pushShortInt v)) .neg
  | .i32Not v => append s (pushShortInt (~~~v))
  | .i32Lnot v => append s (pushBool (v = 0))
  | .boolLnots b more => append s (pushBool (lnots b (more + 1)))
  | .binary op => dispatchBinary s op
  | .compare op => dispatchCompare s op
  | .unary op => dispatchUnary s op
  | .lnot => dispatchLnot s
  | .label refCount =>
      if 0 < refCount then { s with
        pos1 := none
        pos2 := none }
      else s
  | .nothing => updateTracker s s.bcOut.length
  | .other code => append s code.bytes

example : ([.pushI32 5, .pushI32 17, .binary .shl, .pushI32 3, .binary .and].foldl dispatch
    .start).bcOut = [UInt8.ofNat opPushI32, 0, 0, UInt8.ofNat opPush1] := by decide +kernel

end PrimJs.ConstFold
