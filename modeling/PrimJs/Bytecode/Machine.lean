import Mathlib.Logic.Function.Basic
import PrimJs.Bytecode.Bytes
import PrimJs.Bytecode.Opcode
import PrimJs.Foundation.TraceSimulation

/-! The operand-stack machine of `JS_CallInternal`, as far as the optimizer reasons about it:
stack, variables, jumps, exception handlers and `finally` subroutines are concrete; all other
opcodes are functions of a `Machine`. -/

namespace PrimJs

open TraceSimulation

inductive VarKind where
  | loc | arg | varRef
  deriving DecidableEq, Repr

structure Var where
  kind : VarKind
  idx : Nat
  deriving DecidableEq, Repr

inductive Access where
  | get | put | set
  deriving DecidableEq, Repr

/-- `catchOffset 0` marks an iterator that an exception closes, not a handler. -/
inductive StackEntry (V : Type) where
  | value (v : V)
  | catchOffset (pos : Nat)
  | retPos (pos : Nat)

/-- What a stack permutation leaves, as indices from the top; `dups` and `frees` are the entries
whose reference count it changes. -/
structure Shuffle where
  order : List Nat
  dups : List Nat
  frees : List Nat

inductive Action where
  | nop | push | get (x : Var) | put (x : Var) | set (x : Var) | dup | drop | shuffle (s : Shuffle)
  | lnot | jumpIf (taken : Bool) | goto | catchHandler | gosub | ret | return | returnUndef | throw
  | other

structure Instr where
  op : Nat
  size : Nat
  operands : List UInt8
  target : Option Nat
  deriving DecidableEq, Repr

abbrev Code := Nat → Option Instr

def isConstantPush (op : Nat) : Bool :=
  op == opUndefined || op == opNull || op == opPushThis || op == opPushFalse ||
    op == opPushTrue || op == opObject || (opPushMinus1 ≤ op && op ≤ opPush7) ||
    op == opPushI8 || op == opPushI16 || op == opPushI32 || op == opPushAtomValue ||
    op == opPushConst || op == opPushConst8 || op == opPushEmptyString

def varAccess? (op : Nat) (operands : List UInt8) : Option (Access × Var) :=
  if opGetLoc0 ≤ op ∧ op ≤ opGetLoc3 then some (.get, ⟨.loc, op - opGetLoc0⟩)
  else if opPutLoc0 ≤ op ∧ op ≤ opPutLoc3 then some (.put, ⟨.loc, op - opPutLoc0⟩)
  else if opSetLoc0 ≤ op ∧ op ≤ opSetLoc3 then some (.set, ⟨.loc, op - opSetLoc0⟩)
  else if opGetArg0 ≤ op ∧ op ≤ opGetArg3 then some (.get, ⟨.arg, op - opGetArg0⟩)
  else if opPutArg0 ≤ op ∧ op ≤ opPutArg3 then some (.put, ⟨.arg, op - opPutArg0⟩)
  else if opSetArg0 ≤ op ∧ op ≤ opSetArg3 then some (.set, ⟨.arg, op - opSetArg0⟩)
  else if opGetVarRef0 ≤ op ∧ op ≤ opGetVarRef3 then some (.get, ⟨.varRef, op - opGetVarRef0⟩)
  else if opPutVarRef0 ≤ op ∧ op ≤ opPutVarRef3 then some (.put, ⟨.varRef, op - opPutVarRef0⟩)
  else if opSetVarRef0 ≤ op ∧ op ≤ opSetVarRef3 then some (.set, ⟨.varRef, op - opSetVarRef0⟩)
  else if op = opGetLoc8 then some (.get, ⟨.loc, getU8 operands 0⟩)
  else if op = opPutLoc8 then some (.put, ⟨.loc, getU8 operands 0⟩)
  else if op = opSetLoc8 then some (.set, ⟨.loc, getU8 operands 0⟩)
  else if op = opGetLoc then some (.get, ⟨.loc, getU16 operands 0⟩)
  else if op = opPutLoc then some (.put, ⟨.loc, getU16 operands 0⟩)
  else if op = opSetLoc then some (.set, ⟨.loc, getU16 operands 0⟩)
  else if op = opGetArg then some (.get, ⟨.arg, getU16 operands 0⟩)
  else if op = opPutArg then some (.put, ⟨.arg, getU16 operands 0⟩)
  else if op = opSetArg then some (.set, ⟨.arg, getU16 operands 0⟩)
  else if op = opGetVarRef then some (.get, ⟨.varRef, getU16 operands 0⟩)
  else if op = opPutVarRef then some (.put, ⟨.varRef, getU16 operands 0⟩)
  else if op = opSetVarRef then some (.set, ⟨.varRef, getU16 operands 0⟩)
  else none

def shuffle? (op : Nat) : Option Shuffle :=
  if op = opNip then some ⟨[0], [], [1]⟩
  else if op = opNip1 then some ⟨[0, 1], [], [2]⟩
  else if op = opDup1 then some ⟨[0, 1, 1], [1], []⟩
  else if op = opDup2 then some ⟨[0, 1, 0, 1], [1, 0], []⟩
  else if op = opDup3 then some ⟨[0, 1, 2, 0, 1, 2], [2, 1, 0], []⟩
  else if op = opInsert2 then some ⟨[0, 1, 0], [0], []⟩
  else if op = opInsert3 then some ⟨[0, 1, 2, 0], [0], []⟩
  else if op = opInsert4 then some ⟨[0, 1, 2, 3, 0], [0], []⟩
  else if op = opPerm3 then some ⟨[0, 2, 1], [], []⟩
  else if op = opPerm4 then some ⟨[0, 2, 3, 1], [], []⟩
  else if op = opPerm5 then some ⟨[0, 2, 3, 4, 1], [], []⟩
  else if op = opSwap then some ⟨[1, 0], [], []⟩
  else if op = opSwap2 then some ⟨[2, 3, 0, 1], [], []⟩
  else if op = opRot3l then some ⟨[2, 0, 1], [], []⟩
  else if op = opRot3r then some ⟨[1, 2, 0], [], []⟩
  else if op = opRot4l then some ⟨[3, 0, 1, 2], [], []⟩
  else if op = opRot5l then some ⟨[4, 0, 1, 2, 3], [], []⟩
  else none

def actionOf (op : Nat) (operands : List UInt8) : Action :=
  if op = opNop then .nop
  else if op = opDup then .dup
  else if op = opDrop then .drop
  else if isConstantPush op then .push
  else if op = opLnot then .lnot
  else if op = opIfTrue ∨ op = opIfTrue8 then .jumpIf true
  else if op = opIfFalse ∨ op = opIfFalse8 then .jumpIf false
  else if op = opGoto ∨ op = opGoto8 ∨ op = opGoto16 then .goto
  else if op = opCatch then .catchHandler
  else if op = opGosub then .gosub
  else if op = opRet then .ret
  else if op = opReturn then .return
  else if op = opReturnUndef then .returnUndef
  else if op = opThrow then .throw
  else match varAccess? op operands with
    | some (.get, x) => .get x
    | some (.put, x) => .put x
    | some (.set, x) => .set x
    | none => match shuffle? op with
      | some s => .shuffle s
      | none => .other

abbrev Instr.action (i : Instr) : Action := actionOf i.op i.operands

@[simp] theorem actionOf_nop (operands : List UInt8) : actionOf opNop operands = .nop := rfl

@[simp] theorem actionOf_lnot (operands : List UInt8) : actionOf opLnot operands = .lnot := rfl

/-- The operands an opcode takes from the stack; `for_of_next` reads its iterator below
`offset` further entries. -/
def Instr.popCount (i : Instr) : Nat :=
  let info := shortOpcodeInfo i.op
  match info.fmt with
  | .npop => info.nPop + getU16 i.operands 0
  | .npopx => info.nPop + (i.op - opCall0)
  | _ => if i.op = opForOfNext then info.nPop + getU8 i.operands 0 else info.nPop

def Instr.pushCount (i : Instr) : Nat :=
  if i.op = opForOfNext then (shortOpcodeInfo i.op).nPush + getU8 i.operands 0
  else (shortOpcodeInfo i.op).nPush

/-- What a `with_x` opcode leaves on the stack when it takes its jump. -/
def jumpPushCount (op : Nat) : Nat :=
  if op = opWithGetVar ∨ op = opWithDeleteVar then 1
  else if op = opWithMakeRef ∨ op = opWithGetRef ∨ op = opWithGetRefUndef then 2
  else 0

inductive Effect (V W : Type) where
  | next (pushed : List (StackEntry V)) (world : W)
  | jump (pushed : List (StackEntry V)) (world : W)
  | raise (error : V) (world : W)
  | finish (result : V) (world : W)

def StackEntry.Within {V : Type} (visible : Nat → Prop) : StackEntry V → Prop
  | .value _ => True
  | .catchOffset pos => pos ≠ 0 → visible pos
  | .retPos pos => visible pos

/-- Values, variables and the opcodes whose work the optimizer never looks into. `free` and
`dup` are `LEPUS_FreeValue` and `LEPUS_DupValue`; the laws say that a reference taken and
released at once leaves the world as it was. -/
structure Machine (V W : Type) where
  dup : V → W → W
  free : V → W → W
  push : Nat → List UInt8 → W → V × W
  read : Var → W → V
  put : Var → V → W → W
  lnot : V → W → V × W
  test : V → W → Bool × W
  uncatchable : V → W → Bool
  closeIterator : Option (StackEntry V) → W → W
  exec : Nat → List UInt8 → List (StackEntry V) → W → Effect V W
  free_dup : ∀ v w, free v (dup v w) = w
  free_push : ∀ op operands w, free (push op operands w).1 (push op operands w).2 = w
  push_again : ∀ op operands w, 2 ≤ opSize op → push op operands (push op operands w).2 =
    ((push op operands w).1, dup (push op operands w).1 (push op operands w).2)
  read_dup : ∀ x v w, read x (dup v w) = read x w
  read_put : ∀ x v w, read x (put x v w) = v
  dup_put : ∀ x v w, dup v (put x v w) = put x v (dup v w)
  test_lnot : ∀ v w, test (lnot v w).1 (lnot v w).2 = (!(test v w).1, (test v w).2)
  test_dup : ∀ v w, (test v (dup v w)).1 = (test v w).1
  free_test : ∀ v w, free v (test v (dup v w)).2 = (test v w).2
  exec_within : ∀ op operands args w pushed w', (exec op operands args w = .next pushed w' ∨
    exec op operands args w = .jump pushed w') → ∀ visible : Nat → Prop,
    (∀ e ∈ args, e.Within visible) → ∀ e ∈ pushed, e.Within visible
  exec_next : ∀ i : Instr, ∀ args w pushed w', exec i.op i.operands args w = .next pushed w' →
    pushed.length = i.pushCount
  exec_jump : ∀ op operands args w pushed w', exec op operands args w = .jump pushed w' →
    pushed.length = jumpPushCount op

structure State (V W : Type) where
  pc : Nat
  stack : List (StackEntry V)
  world : W

inductive Event (V : Type) where
  | write (x : Var) (v : V)
  | exec (op : Nat) (operands : List UInt8) (args : List (StackEntry V))
  | closeIterator (iterator : Option (StackEntry V))

inductive Result (V W : Type) where
  | returned (result : V) (world : W)
  | threw (error : V) (world : W)
  | stuck

abbrev StepOutcome (V W : Type) := Outcome (State V W) (Event V) (Result V W)

namespace Machine

variable {V W : Type} (M : Machine V W)

def dupEntry : StackEntry V → W → W
  | .value v, w => M.dup v w
  | _, w => w

def freeEntry : StackEntry V → W → W
  | .value v, w => M.free v w
  | _, w => w

def freeEntries (entries : List (StackEntry V)) (w : W) : W :=
  entries.foldl (fun w e => M.freeEntry e w) w

/-- The search for a handler at the `exception` label. -/
def unwind (error : V) : List (StackEntry V) → List (Event V) → W → StepOutcome V W
  | [], events, w => .halted events (.threw error w)
  | .catchOffset 0 :: next :: rest, events, w =>
      let w := M.freeEntry next w
      unwind error rest (events ++ [.closeIterator rest.head?]) (M.closeIterator rest.head? w)
  | .catchOffset (pos + 1) :: rest, events, w => .running events ⟨pos + 1, .value error :: rest, w⟩
  | e :: rest, events, w => unwind error rest events (M.freeEntry e w)

def raise (error : V) (events : List (Event V)) (stack : List (StackEntry V)) (w : W) :
    StepOutcome V W :=
  if M.uncatchable error w then .halted events (.threw error (M.freeEntries stack w))
  else M.unwind error stack events w

def shuffle (s : Shuffle) (args : List (StackEntry V)) (w : W) : W :=
  let w := s.dups.foldl (fun w i => (args[i]?.map (M.dupEntry · w)).getD w) w
  s.frees.foldl (fun w i => (args[i]?.map (M.freeEntry · w)).getD w) w

def jumpTo (target : Option Nat) (stack : List (StackEntry V)) (w : W) : StepOutcome V W :=
  match target with
  | some pos => .running [] ⟨pos, stack, w⟩
  | none => .halted [] .stuck

/-- One instruction. A stack without the operands the opcode needs has no defined meaning in the
interpreter: the machine is stuck. -/
def execute (i : Instr) (s : State V W) : StepOutcome V W :=
  let next := s.pc + i.size
  match i.action, s.stack with
  | .nop, stack => .running [] ⟨next, stack, s.world⟩
  | .push, stack =>
      let pushed := M.push i.op i.operands s.world
      .running [] ⟨next, .value pushed.1 :: stack, pushed.2⟩
  | .get x, stack =>
      let v := M.read x s.world
      .running [] ⟨next, .value v :: stack, M.dup v s.world⟩
  | .put x, .value v :: stack => .running [.write x v] ⟨next, stack, M.put x v s.world⟩
  | .set x, .value v :: stack =>
      .running [.write x v] ⟨next, .value v :: stack, M.put x v (M.dup v s.world)⟩
  | .dup, e :: stack => .running [] ⟨next, e :: e :: stack, M.dupEntry e s.world⟩
  | .drop, e :: stack => .running [] ⟨next, stack, M.freeEntry e s.world⟩
  | .shuffle f, stack =>
      if stack.length < i.popCount then .halted [] .stuck
      else
        let args := stack.take i.popCount
        .running [] ⟨next, f.order.filterMap (args[·]?) ++ stack.drop i.popCount,
          M.shuffle f args s.world⟩
  | .lnot, .value v :: stack =>
      let negated := M.lnot v s.world
      .running [] ⟨next, .value negated.1 :: stack, negated.2⟩
  | .jumpIf taken, .value v :: stack =>
      let tested := M.test v s.world
      if tested.1 = taken then jumpTo i.target stack tested.2
      else .running [] ⟨next, stack, tested.2⟩
  | .goto, stack => jumpTo i.target stack s.world
  | .catchHandler, stack =>
      match i.target with
      | some pos => .running [] ⟨next, .catchOffset pos :: stack, s.world⟩
      | none => .halted [] .stuck
  | .gosub, stack => jumpTo i.target (.retPos next :: stack) s.world
  | .ret, .retPos pos :: stack => .running [] ⟨pos, stack, s.world⟩
  | .return, .value v :: stack => .halted [] (.returned v (M.freeEntries stack s.world))
  | .returnUndef, stack =>
      let pushed := M.push opUndefined [] s.world
      .halted [] (.returned pushed.1 (M.freeEntries stack pushed.2))
  | .throw, .value v :: stack => M.raise v [] stack s.world
  | .other, stack =>
      if stack.length < i.popCount then .halted [] .stuck
      else
        let args := stack.take i.popCount
        let event := Event.exec i.op i.operands args
        match M.exec i.op i.operands args s.world with
        | .next pushed w => .running [event] ⟨next, pushed ++ stack.drop i.popCount, w⟩
        | .jump pushed w =>
            match i.target with
            | some pos => .running [event] ⟨pos, pushed ++ stack.drop i.popCount, w⟩
            | none => .halted [event] .stuck
        | .raise error w => M.raise error [event] (stack.drop i.popCount) w
        | .finish v w => .halted [event] (.returned v (M.freeEntries (stack.drop i.popCount) w))
  | _, _ => .halted [] .stuck

def step (code : Code) (s : State V W) : StepOutcome V W :=
  match code s.pc with
  | some i => M.execute i s
  | none => .halted [] .stuck

def entry (w : W) : State V W := ⟨0, [], w⟩

end Machine

/-- The next instruction in the code can be reached from `i` without a jump; after `gosub` it is
where `ret` comes back to. -/
def Instr.fallsThrough (i : Instr) : Prop :=
  match i.action with
  | .goto | .ret | .return | .returnUndef | .throw => False
  | _ => True

structure State.Within {V W : Type} (visible : Nat → Prop) (s : State V W) : Prop where
  pc : visible s.pc
  stack : ∀ e ∈ s.stack, e.Within visible

section Within

variable {V W : Type} (M : Machine V W) {visible : Nat → Prop}

variable {trace : List (Event V)}

section

variable {stack : List (StackEntry V)} {w : W} {t : State V W}
  (within : ∀ e ∈ stack, e.Within visible)

include within

theorem Machine.unwind_within {error : V} {events : List (Event V)}
    (run : M.unwind error stack events w = .running trace t) : t.Within visible := by
  induction stack, events, w using Machine.unwind.induct M with
  | case1 events w => cases run
  | case2 events next rest w w' ih =>
      rw [Machine.unwind] at run
      exact ih (fun e member => within e (by simp [member])) run
  | case3 pos rest events w =>
      rw [Machine.unwind] at run
      cases run
      constructor
      · exact within (.catchOffset (pos + 1)) (by simp) (by omega)
      · intro e member
        rcases List.mem_cons.mp member with first | later
        · rw [first]
          trivial
        · exact within e (by simp [later])
  | case4 e rest events w notMarker notHandler ih =>
      rw [Machine.unwind] at run
      · exact ih (fun e member => within e (by simp [member])) run
      · exact notMarker
      · exact notHandler

theorem Machine.raise_within {error : V} {events : List (Event V)}
    (run : M.raise error events stack w = .running trace t) : t.Within visible := by
  unfold Machine.raise at run
  split at run
  · cases run
  · exact M.unwind_within within run

theorem Machine.jumpTo_within {target : Option Nat}
    (jump : ∀ pos, target = some pos → visible pos)
    (run : Machine.jumpTo target stack w = .running trace t) : t.Within visible := by
  cases target with
  | none => cases run
  | some pos =>
      cases run
      exact ⟨jump pos rfl, within⟩

end

/-- One instruction sends control only to the next position, to its own target or to an address
on the stack, and it puts no other address there. -/
theorem Machine.execute_within {i : Instr} {s t : State V W}
    (within : ∀ e ∈ s.stack, e.Within visible) (next : i.fallsThrough → visible (s.pc + i.size))
    (jump : ∀ pos, i.target = some pos → visible pos) (run : M.execute i s = .running trace t) :
    t.Within visible := by
  have dropped : ∀ e ∈ s.stack.drop i.popCount, e.Within visible :=
    fun e member => within e (List.mem_of_mem_drop member)
  have taken : ∀ e ∈ s.stack.take i.popCount, e.Within visible :=
    fun e member => within e (List.mem_of_mem_take member)
  unfold Instr.fallsThrough at next
  unfold Machine.execute at run
  split at run
  case h_1 action => cases run; exact ⟨next (by simp [action]), within⟩
  case h_2 action =>
    cases run
    exact ⟨next (by simp [action]), by simpa [StackEntry.Within] using within⟩
  case h_3 action =>
    cases run
    exact ⟨next (by simp [action]), by simpa [StackEntry.Within] using within⟩
  case h_4 action stack =>
    cases run
    rw [stack] at within
    exact ⟨next (by simp [action]), fun e member => within e (by simp [member])⟩
  case h_5 action stack =>
    cases run
    rw [stack] at within
    exact ⟨next (by simp [action]), within⟩
  case h_6 action stack =>
    cases run
    rw [stack] at within
    exact ⟨next (by simp [action]), fun e member => within e (by simpa using member)⟩
  case h_7 action stack =>
    cases run
    rw [stack] at within
    exact ⟨next (by simp [action]), fun e member => within e (by simp [member])⟩
  case h_8 action =>
    split at run
    · cases run
    · cases run
      refine ⟨next (by simp [action]), fun e member => ?_⟩
      rcases List.mem_append.mp member with moved | rest
      · have ⟨k, _, found⟩ := List.mem_filterMap.mp moved
        exact taken e (List.mem_of_getElem? found)
      · exact dropped e rest
  case h_9 action stack =>
    cases run
    rw [stack] at within
    exact ⟨next (by simp [action]), by simpa [StackEntry.Within] using within⟩
  case h_10 action stack =>
    rw [stack] at within
    have rest := fun e member => within e (List.mem_cons_of_mem _ member)
    dsimp only at run
    split at run
    · exact jumpTo_within rest jump run
    · cases run
      exact ⟨next (by simp [action]), rest⟩
  case h_11 => exact jumpTo_within within jump run
  case h_12 action =>
    split at run
    · rename_i pos target
      cases run
      refine ⟨next (by simp [action]), fun e member => ?_⟩
      rcases List.mem_cons.mp member with first | later
      · rw [first]
        exact fun _ => jump pos target
      · exact within e later
    · cases run
  case h_13 action =>
    refine jumpTo_within (fun e member => ?_) jump run
    rcases List.mem_cons.mp member with first | later
    · rw [first]
      exact next (by simp [action])
    · exact within e later
  case h_14 action stack =>
    cases run
    rw [stack] at within
    exact ⟨within (.retPos _) (by simp), fun e member => within e (by simp [member])⟩
  case h_15 => cases run
  case h_16 => cases run
  case h_17 stack =>
    rw [stack] at within
    exact M.raise_within (fun e member => within e (by simp [member])) run
  case h_18 action =>
    split at run
    · cases run
    · dsimp only at run
      have within_of_exec : ∀ pushed w, (M.exec i.op i.operands (s.stack.take i.popCount) s.world =
          .next pushed w ∨ M.exec i.op i.operands (s.stack.take i.popCount) s.world =
          .jump pushed w) → ∀ e ∈ pushed ++ s.stack.drop i.popCount, e.Within visible := by
        intro pushed w done e member
        rcases List.mem_append.mp member with new | old
        · exact M.exec_within _ _ _ _ _ _ done visible taken e new
        · exact dropped e old
      split at run
      · rename_i pushed w done
        cases run
        exact ⟨next (by simp [action]), within_of_exec pushed w (.inl done)⟩
      · rename_i pushed w done
        split at run
        · rename_i pos target
          cases run
          exact ⟨jump pos target, within_of_exec pushed w (.inr done)⟩
        · cases run
      · exact M.raise_within dropped run
      · cases run
  case h_19 => cases run

theorem Machine.step_within {code : Code} {i : Instr} {s t : State V W}
    (here : code s.pc = some i) (within : ∀ e ∈ s.stack, e.Within visible)
    (next : i.fallsThrough → visible (s.pc + i.size))
    (jump : ∀ pos, i.target = some pos → visible pos) (run : M.step code s = .running trace t) :
    t.Within visible := by
  rw [Machine.step, here] at run
  exact M.execute_within within next jump run

end Within

def pushedInt (op : Nat) (operands : List UInt8) : Int :=
  if opPushMinus1 ≤ op ∧ op ≤ opPush7 then (op : Int) - opPush0
  else if op = opPushI8 then toInt8 (getU8 operands 0)
  else if op = opPushI16 then toInt16 (getU16 operands 0)
  else if op = opPushI32 then toInt32 (getU32 operands 0)
  else if op = opPushTrue then 1
  else 0

/-- Integers with 0 for every false value, and no reference counts. -/
def intMachine : Machine Int (Var → Int) where
  dup _ w := w
  free _ w := w
  push op operands w := (pushedInt op operands, w)
  read x w := w x
  put x v w := Function.update w x v
  lnot v w := (if v = 0 then 1 else 0, w)
  test v w := (decide (v ≠ 0), w)
  uncatchable _ _ := false
  closeIterator _ w := w
  exec _ _ _ w := .finish 0 w
  free_dup _ _ := rfl
  free_push _ _ _ := rfl
  push_again _ _ _ _ := rfl
  read_dup _ _ _ := rfl
  read_put x v w := Function.update_self x v w
  dup_put _ _ _ := rfl
  test_lnot v w := by by_cases zero : v = 0 <;> simp [zero]
  test_dup _ _ := rfl
  free_test _ _ := rfl
  exec_within op operands args w pushed w' done := by rcases done with done | done <;> cases done
  exec_next i args w pushed w' done := by cases done
  exec_jump op operands args w pushed w' done := by cases done

def Result.value? {V W : Type} : Result V W → Option V
  | .returned v _ => some v
  | _ => none

end PrimJs
