import PrimJs.Foundation.StutterSimulation
import PrimJs.Optimizer.CheckedStore

/-! Dead stores: `opt_prescan_tdz_dse` marks the local variables that are read, and
`resolve_labels` drops the stores to the others. -/

namespace PrimJs.DeadStore

open CheckedStore TraceSimulation

structure Instr where
  op : Nat
  operands : List UInt8
  deriving DecidableEq, Repr

namespace Instr

/-- The operand of the format `loc` -/
def idx (i : Instr) : Nat := getU16 i.operands 0

def scanRead? (i : Instr) : Option Nat :=
  if i.op = opGetLoc ∨ i.op = opGetLocCheck ∨ i.op = opPutLocCheck ∨ i.op = opPutLocCheckInit then
    some i.idx
  else if i.op = opGetLoc8 then some (byteAt i.operands 0)
  else if opGetLoc0 ≤ i.op ∧ i.op ≤ opGetLoc3 then some (i.op - opGetLoc0)
  else if i.op = opMakeLocRef then some (getU16 i.operands 4)
  else none

end Instr

/-- What the functions below read of a `LEPUSClosureVar`. -/
structure ClosureVar where
  isLocal : Bool
  isArg : Bool
  varIdx : Nat
  deriving DecidableEq, Repr

def decode (bcBuf : List UInt8) : Nat → Nat → List Instr
  | 0, _ => []
  | fuel + 1, pos =>
      let size := (opcodeInfo (byteAt bcBuf pos)).size
      if bcBuf.length ≤ pos ∨ size = 0 then []
      else ⟨byteAt bcBuf pos, (bcBuf.drop (pos + 1)).take (size - 1)⟩ :: decode bcBuf fuel (pos + size)

/-- The opcodes that read or write a local variable and that only `resolve_labels` emits. -/
def fusedOps : List Nat := [opDecLoc, opIncLoc, opAddLoc]

/-- A `JSFunctionDef` whose child functions have been created and whose variables have been
resolved; `bcBuf` is its code, `childClosureVars` has the closure variables of each child. -/
structure FunctionDef extends CheckedStore.FunctionDef where
  varObjectIdx : Int
  argVarObjectIdx : Int
  argumentsVarIdx : Int
  newTargetVarIdx : Int
  homeObjectVarIdx : Int
  thisActiveFuncVarIdx : Int
  funcVarIdx : Int
  hasEvalCall : Bool
  childClosureVars : List (List ClosureVar)
  bcBuf : List UInt8
  unfused : ∀ i ∈ decode bcBuf bcBuf.length 0, i.op ∉ fusedOps

namespace FunctionDef

def instrs (f : FunctionDef) : List Instr := decode f.bcBuf f.bcBuf.length 0

/-- The code without its line numbers, which `code_match` passes over and nothing executes. -/
def code (f : FunctionDef) : List Instr := f.instrs.filter (·.op != opLineNum)

def captures (f : FunctionDef) (n : Nat) : Bool :=
  f.childClosureVars.any fun vars => vars.any fun cv => cv.isLocal && !cv.isArg && cv.varIdx == n

def specialVars (f : FunctionDef) : List Int :=
  [f.varObjectIdx, f.argVarObjectIdx, f.thisVarIdx, f.argumentsVarIdx, f.newTargetVarIdx,
    f.homeObjectVarIdx, f.thisActiveFuncVarIdx, f.funcVarIdx]

end FunctionDef

section Prescan

structure Scan where
  tdzCount : List Nat
  varIsRead : List Bool

def Scan.instr (s : Scan) (i : Instr) : Scan where
  tdzCount :=
    if i.op = opSetLocUninitialized then
      s.tdzCount.modify i.idx fun count => if count < 255 then count + 1 else count
    else s.tdzCount
  varIsRead :=
    match i.scanRead? with
    | some idx => s.varIsRead.set idx true
    | none => s.varIsRead

def markSpecial (varIsRead : List Bool) (idx : Int) : List Bool :=
  if 0 ≤ idx then varIsRead.set idx.toNat true else varIsRead

/-- `opt_prescan_tdz_dse`; where an allocation fails it leaves the arrays `NULL`. -/
def optPrescanTdzDse (f : FunctionDef) (locInitialized : List Bool) (allocated : Bool) : OptCtx :=
  if !allocated then ⟨[], none, none, some locInitialized⟩
  else
    let scan := f.instrs.foldl Scan.instr
      ⟨List.replicate f.varCount 0, List.replicate f.varCount false⟩
    let varIsRead := scan.varIsRead.mapIdx fun i read => if f.isCaptured i then true else read
    let varIsRead := f.specialVars.foldl markSpecial varIsRead
    let varIsRead := if f.hasEvalCall then List.replicate f.varCount true else varIsRead
    let locPermanentlyInit := scan.tdzCount.map fun count => decide (count ≤ 1)
    ⟨locPermanentlyInit, some (List.zipWith and locPermanentlyInit locInitialized),
      some varIsRead, some locInitialized⟩

/-- The variables whose stores are dropped -/
def FunctionDef.neverRead (f : FunctionDef) (allocated : Bool) (idx : Nat) : Bool :=
  (optPrescanTdzDse f [] allocated).neverRead f.toFunctionDef idx

end Prescan

section Emission

inductive LocOp where
  | get
  | getCheck
  | put
  | set
  | putCheck
  | putCheckInit
  | setUninitialized
  deriving DecidableEq, Repr

def LocOp.reads : LocOp → Bool
  | .get | .getCheck | .putCheck | .putCheckInit => true
  | .put | .set | .setUninitialized => false

def Instr.loc? (i : Instr) : Option (LocOp × Nat) :=
  if i.op = opGetLoc then some (.get, i.idx)
  else if i.op = opGetLocCheck then some (.getCheck, i.idx)
  else if i.op = opPutLoc then some (.put, i.idx)
  else if i.op = opSetLoc then some (.set, i.idx)
  else if i.op = opPutLocCheck then some (.putCheck, i.idx)
  else if i.op = opPutLocCheckInit then some (.putCheckInit, i.idx)
  else if i.op = opSetLocUninitialized then some (.setUninitialized, i.idx)
  else none

/-- The instruction reads the local variable, or takes a reference to it. -/
def Instr.readsLoc (i : Instr) (n : Nat) : Bool :=
  match i.loc? with
  | some (op, idx) => op.reads && idx == n
  | none =>
      i.op == opMakeLocRef && getU16 i.operands 4 == n ||
        fusedOps.contains i.op && byteAt i.operands 0 == n

variable (never : Nat → Bool)

/-- A `put_loc` to a variable that is never read -/
def Instr.isDeadPut (i : Instr) : Bool :=
  match i.loc? with
  | some (.put, idx) => never idx
  | _ => false

/-- A checked store to a variable that is never read -/
def Instr.isDeadPutCheck (i : Instr) : Bool :=
  match i.loc? with
  | some (.putCheck, idx) | some (.putCheckInit, idx) => never idx
  | _ => false

/-- A `set_loc_uninitialized` of a variable that is never read -/
def Instr.isDeadSlu (i : Instr) : Bool :=
  match i.loc? with
  | some (.setUninitialized, idx) => never idx
  | _ => false

def drop : Instr := ⟨opDrop, []⟩

/-- What `resolve_labels` makes of the stores that are never read. -/
def eliminate : List Instr → List Instr
  | [] => []
  | i :: rest =>
      if i.op = opDup then
        match rest with
        | [] => [i]
        | j :: later =>
            if j.isDeadPut never then
              -- `match_dup_put_pattern`
              match later with
              | [] => []
              | k :: after => if k.op = opDrop then drop :: eliminate after else eliminate (k :: after)
            else if j.isDeadPutCheck never then
              -- `try_dup_put_check_drop`
              match later with
              | [] => i :: eliminate [j]
              | k :: after => if k.op = opDrop then drop :: eliminate after else i :: eliminate (j :: k :: after)
            else i :: eliminate (j :: later)
      else if i.isDeadPut never || i.isDeadPutCheck never then drop :: eliminate rest
      else if i.isDeadSlu never then eliminate rest
      else i :: eliminate rest

def Stored (code : List Instr) (n : Nat) : Prop :=
  ∃ i ∈ code, i.loc? = some (.put, n) ∨ i.loc? = some (.setUninitialized, n)

/-- The variables whose stores `resolve_labels` drops -/
def Dropped (code : List Instr) (n : Nat) : Prop := never n = true ∧ Stored code n

end Emission

section Interpreter

/-- Where control goes on: at the next opcode, at a label, or after the `gosub` that has so many
others before it. -/
inductive Target where
  | next
  | label (l : Nat)
  | afterGosub (k : Nat)
  deriving DecidableEq, Repr

inductive Effect (V W ε ρ : Type) where
  | goOn (events : List ε) (world : W) (stack : List (JSValue V)) (shared : Nat → JSValue V)
      (target : Target)
  | finish (events : List ε) (result : ρ)

/-- What the other opcodes do, and what a failed check does. They find the local variables that
closures, `eval` and references share, the number of `gosub`s before them, and the rest of the
state. -/
structure Interpreter (V W ε ρ : Type) where
  exec : Instr → Nat → W → List (JSValue V) → (Nat → Option (JSValue V)) → Effect V W ε ρ
  throwReferenceError : Instr → W → List (JSValue V) → (Nat → Option (JSValue V)) → Effect V W ε ρ
  lost : ρ

structure State (V W : Type) where
  rest : List Instr
  varBuf : Nat → JSValue V
  stack : List (JSValue V)
  world : W

variable {V W ε ρ : Type}

/-- The code after the instruction that satisfies `p` and has `k` of them before it. -/
def after (p : Instr → Bool) : Nat → List Instr → Option (List Instr)
  | _, [] => none
  | k, i :: rest =>
      if p i then
        match k with
        | 0 => some rest
        | k + 1 => after p k rest
      else after p k rest

def Instr.isLabel (l : Nat) (i : Instr) : Bool := i.op == opLabel && getU32 i.operands 0 == l

def Instr.isGosub (i : Instr) : Bool := i.op == opGosub

def resume (code rest : List Instr) : Target → Option (List Instr)
  | .next => some rest
  | .label l => after (Instr.isLabel l) 0 code
  | .afterGosub k => after Instr.isGosub k code

/-- The `gosub`s of the code that come before `rest`. -/
def gosubsBefore (code rest : List Instr) : Nat :=
  code.countP Instr.isGosub - rest.countP Instr.isGosub

/-- The local variables that others than the opcodes of the function can reach: closures of its
children, the code of a direct `eval`, references. -/
def FunctionDef.shared (f : FunctionDef) (idx : Nat) : Bool :=
  f.hasEvalCall || f.captures idx ||
    f.code.any fun i => i.op == opMakeLocRef && getU16 i.operands 4 == idx

variable (M : Interpreter V W ε ρ) (shared : Nat → Bool) (code : List Instr)

def State.view (s : State V W) (idx : Nat) : Option (JSValue V) :=
  if shared idx then some (s.varBuf idx) else none

def apply (s : State V W) (rest : List Instr) : Effect V W ε ρ → Outcome (State V W) ε ρ
  | .finish events result => .halted events result
  | .goOn events world stack vars target =>
      match resume code rest target with
      | none => .halted events M.lost
      | some rest =>
          .running events
            ⟨rest, fun idx => if shared idx then vars idx else s.varBuf idx, stack, world⟩

/-- `sp[-1]` -/
def top (stack : List (JSValue V)) : JSValue V := stack.headD .uninitialized

/-- `set_value` on a local variable -/
def State.setLoc (s : State V W) (idx : Nat) (v : JSValue V) : Nat → JSValue V :=
  Function.update s.varBuf idx v

def stepLoc (s : State V W) (i : Instr) (rest : List Instr) (idx : Nat) :
    LocOp → Outcome (State V W) ε ρ
  | .get => .running [] { s with rest := rest, stack := s.varBuf idx :: s.stack }
  | .getCheck =>
      if (s.varBuf idx).isUninitialized then
        apply M shared code s rest (M.throwReferenceError i s.world s.stack (s.view shared))
      else .running [] { s with rest := rest, stack := s.varBuf idx :: s.stack }
  | .put =>
      .running [] { s with rest := rest, varBuf := s.setLoc idx (top s.stack), stack := s.stack.tail }
  | .set => .running [] { s with rest := rest, varBuf := s.setLoc idx (top s.stack) }
  | .putCheck =>
      if (s.varBuf idx).isUninitialized then
        apply M shared code s rest (M.throwReferenceError i s.world s.stack (s.view shared))
      else .running []
        { s with rest := rest, varBuf := s.setLoc idx (top s.stack), stack := s.stack.tail }
  | .putCheckInit =>
      if !(s.varBuf idx).isUninitialized then
        apply M shared code s rest (M.throwReferenceError i s.world s.stack (s.view shared))
      else .running []
        { s with rest := rest, varBuf := s.setLoc idx (top s.stack), stack := s.stack.tail }
  | .setUninitialized => .running [] { s with rest := rest, varBuf := s.setLoc idx .uninitialized }

def step (s : State V W) : Outcome (State V W) ε ρ :=
  match s.rest with
  | [] => .halted [] M.lost
  | i :: rest =>
      match i.loc? with
      | some (op, idx) => stepLoc M shared code s i rest idx op
      | none =>
          if i.op = opLabel then .running [] { s with rest := rest }
          else if i.op = opDup then .running [] { s with rest := rest, stack := top s.stack :: s.stack }
          else if i.op = opDrop then .running [] { s with rest := rest, stack := s.stack.tail }
          else apply M shared code s rest
            (M.exec i (gosubsBefore code rest) s.world s.stack (s.view shared))

variable {M shared code} {s : State V W} {i : Instr} {rest : List Instr}

theorem step_end (last : s.rest = []) : step M shared code s = .halted [] M.lost := by
  simp [step, last]

section

variable (first : s.rest = i :: rest)

include first

theorem step_loc {op : LocOp} {n : Nat} (loc : i.loc? = some (op, n)) :
    step M shared code s = stepLoc M shared code s i rest n op := by
  simp [step, first, loc]

theorem step_label (label : i.op = opLabel) :
    step M shared code s = .running [] { s with rest := rest } := by
  have other : i.loc? = none := by rw [Instr.loc?, label]; rfl
  simp [step, first, other, label]

theorem step_dup (dup : i.op = opDup) :
    step M shared code s = .running [] { s with rest := rest, stack := top s.stack :: s.stack } := by
  have other : i.loc? = none := by rw [Instr.loc?, dup]; rfl
  have noLabel : opDup ≠ opLabel := by decide
  simp [step, first, other, dup, noLabel]

theorem step_drop (drop : i.op = opDrop) :
    step M shared code s = .running [] { s with rest := rest, stack := s.stack.tail } := by
  have other : i.loc? = none := by rw [Instr.loc?, drop]; rfl
  have noLabel : opDrop ≠ opLabel := by decide
  have noDup : opDrop ≠ opDup := by decide
  simp [step, first, other, drop, noLabel, noDup]

theorem step_exec (loc : i.loc? = none) (other : ¬(i.op = opLabel ∨ i.op = opDup ∨ i.op = opDrop)) :
    step M shared code s =
      apply M shared code s rest
        (M.exec i (gosubsBefore code rest) s.world s.stack (s.view shared)) := by
  have ⟨noLabel, others⟩ := not_or.mp other
  have ⟨noDup, noDrop⟩ := not_or.mp others
  simp [step, first, loc, noLabel, noDup, noDrop]

end

end Interpreter

end PrimJs.DeadStore
