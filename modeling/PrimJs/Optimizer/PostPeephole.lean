import Mathlib.Data.List.Induction
import PrimJs.Bytecode.Peephole
import PrimJs.Bytecode.StackLevel
import PrimJs.Optimizer.Window

/-! `opt_post_peephole`. -/

namespace PrimJs

open TraceSimulation

namespace BcOut

/-- The bytes a pattern writes, and where the scan goes on. -/
structure Rewrite where
  writes : List (Nat × Nat)
  next : Nat
  deriving DecidableEq, Repr

/-- A pattern looks at the instruction at `p` and at the next one that is no `nop`, at `nr`. -/
abbrev Pattern := BcOut → (Nat → Bool) → Nat → Nat → Option Rewrite

/-- The opcodes of a variable kind with the index in the opcode -/
structure ShortVar where
  get : Nat
  put : Nat
  set : Nat
  kind : VarKind

def shortLoc : ShortVar := ⟨opGetLoc0, opPutLoc0, opSetLoc0, .loc⟩
def shortArg : ShortVar := ⟨opGetArg0, opPutArg0, opSetArg0, .arg⟩
def shortVarRef : ShortVar := ⟨opGetVarRef0, opPutVarRef0, opSetVarRef0, .varRef⟩

/-- `put_x(n) get_x(n)`: `set_x(n)`. The position is looked at again. -/
def putGetShort (x : ShortVar) : Pattern := fun P isLabelTarget p nr =>
  let scanOp := P.opAt p
  if x.put ≤ scanOp ∧ scanOp ≤ x.put + 3 ∧ nr < P.size ∧ P.opAt nr = x.get + (scanOp - x.put) ∧
      isLabelTarget nr = false then
    some ⟨[(p, x.set + (scanOp - x.put)), (nr, opNop)], p⟩
  else none

/-- `get_x drop` -/
def getDropShort (x : ShortVar) (unlabelledHead : Bool) : Pattern := fun P isLabelTarget p nr =>
  let scanOp := P.opAt p
  if x.get ≤ scanOp ∧ scanOp ≤ x.get + 3 ∧ nr < P.size ∧ P.opAt nr = opDrop ∧
      (unlabelledHead → isLabelTarget p = false) ∧ isLabelTarget nr = false then
    some ⟨[(p, opNop), (nr, opNop)], nr + 1⟩
  else none

/-- `set_x(n) drop`: `put_x(n)` -/
def setDropShort (x : ShortVar) : Pattern := fun P isLabelTarget p nr =>
  let scanOp := P.opAt p
  if x.set ≤ scanOp ∧ scanOp ≤ x.set + 3 ∧ nr < P.size ∧ P.opAt nr = opDrop ∧
      isLabelTarget nr = false then
    some ⟨[(p, x.put + (scanOp - x.set)), (nr, opNop)], nr + 1⟩
  else none

/-- `dup put_x(n)`: `set_x(n)` -/
def dupPutShort (x : ShortVar) : Pattern := fun P isLabelTarget p nr =>
  if P.opAt p = opDup ∧ nr < P.size ∧ x.put ≤ P.opAt nr ∧ P.opAt nr ≤ x.put + 3 ∧
      isLabelTarget nr = false then
    some ⟨[(p, x.set + (P.opAt nr - x.put)), (nr, opNop)], nr + 1⟩
  else none

/-- `set_x(n) get_x(n)`: `set_x(n) dup` -/
def setGetShort (x : ShortVar) : Pattern := fun P isLabelTarget p nr =>
  let scanOp := P.opAt p
  if x.set ≤ scanOp ∧ scanOp ≤ x.set + 3 ∧ nr < P.size ∧ P.opAt nr = x.get + (scanOp - x.set) ∧
      isLabelTarget nr = false then
    some ⟨[(nr, opDup)], nr + 1⟩
  else none

/-- A push of `size` bytes and a `drop`; no label may stand at the `unlabelled` bytes. -/
def wideDrop (op size : Nat) (unlabelled : List Nat) : Pattern := fun P isLabelTarget p nr =>
  if P.opAt p = op ∧ nr < P.size ∧ P.opAt nr = opDrop ∧
      (∀ k ∈ unlabelled, isLabelTarget (p + k) = false) ∧ isLabelTarget nr = false then
    some ⟨(List.range size).map (fun k => (p + k, opNop)) ++ [(nr, opNop)], nr + 1⟩
  else none

/-- `op(n) get_loc8(n)`: `op(n) dup` -/
def repeatGet (op : Nat) : Pattern := fun P isLabelTarget p nr =>
  if P.opAt p = op ∧ nr + 2 ≤ P.size ∧ P.opAt nr = opGetLoc8 ∧
      P.opAt (p + 1) = P.opAt (nr + 1) ∧ isLabelTarget nr = false then
    some ⟨[(nr, opDup), (nr + 1, opNop)], nr + 2⟩
  else none

def twoOps (first second result : Nat) : Pattern := fun P isLabelTarget p nr =>
  if P.opAt p = first ∧ nr < P.size ∧ P.opAt nr = second ∧ isLabelTarget nr = false then
    some ⟨[(p, result), (nr, opNop)], nr + 1⟩
  else none

def pattern1 : Pattern := fun P isLabelTarget p nr =>
  if P.opAt p = opPutLoc8 ∧ nr + 2 ≤ P.size ∧ P.opAt nr = opGetLoc8 ∧
      P.opAt (p + 1) = P.opAt (nr + 1) ∧ isLabelTarget nr = false then
    some ⟨[(p, opSetLoc8), (nr, opNop), (nr + 1, opNop)], p⟩
  else none

def pattern2 : Pattern := putGetShort shortLoc
def pattern2b : Pattern := putGetShort shortArg
def pattern3 : Pattern := wideDrop opGetLoc8 2 [0]
def pattern4 : Pattern := getDropShort shortLoc true
def pattern4b : Pattern := getDropShort shortArg true
def pattern4c : Pattern := getDropShort shortVarRef true

def pattern5 : Pattern := fun P isLabelTarget p nr =>
  if P.opAt p = opSetLoc8 ∧ nr < P.size ∧ P.opAt nr = opDrop ∧ isLabelTarget nr = false then
    some ⟨[(p, opPutLoc8), (nr, opNop)], nr + 1⟩
  else none

def pattern6 : Pattern := setDropShort shortLoc
def pattern6b : Pattern := setDropShort shortArg
def pattern6c : Pattern := setDropShort shortVarRef
def pattern7 : Pattern := wideDrop opPushI8 2 [0, 1]

def isShortPush (op : Nat) : Bool :=
  (opPushMinus1 ≤ op && op ≤ opPush7) || op == opUndefined || op == opNull || op == opPushTrue ||
    op == opPushFalse || op == opPushEmptyString

def pattern8 : Pattern := fun P isLabelTarget p nr =>
  if nr < P.size ∧ P.opAt nr = opDrop ∧ isLabelTarget p = false ∧ isLabelTarget nr = false ∧
      opSize (P.opAt p) = 1 ∧ isShortPush (P.opAt p) then
    some ⟨[(p, opNop), (nr, opNop)], nr + 1⟩
  else none

def pattern10 : Pattern := dupPutShort shortLoc
def pattern10b : Pattern := dupPutShort shortArg
def pattern10c : Pattern := dupPutShort shortVarRef

/-- `dup get_field(a)`: `get_field2(a)` -/
def patternField : Pattern := fun P isLabelTarget p nr =>
  if P.opAt p = opDup ∧ nr + 5 ≤ P.size ∧ P.opAt nr = opGetField ∧ isLabelTarget nr = false then
    some ⟨[(p, opNop), (nr, opGetField2)], nr + 5⟩
  else none

def pattern11 : Pattern := repeatGet opGetLoc8
def pattern12 : Pattern := repeatGet opSetLoc8
def pattern14 : Pattern := putGetShort shortVarRef
def pattern14b : Pattern := setGetShort shortLoc
def pattern14c : Pattern := setGetShort shortArg
def pattern14d : Pattern := setGetShort shortVarRef
def pattern15 : Pattern := getDropShort shortArg false
def pattern16 : Pattern := getDropShort shortVarRef false

/-- `dup put_loc8(n)`: `set_loc8(n)`. Without a gap the index is read before it is overwritten. -/
def pattern20c : Pattern := fun P isLabelTarget p nr =>
  if P.opAt p = opDup ∧ nr + 2 ≤ P.size ∧ P.opAt nr = opPutLoc8 ∧ isLabelTarget nr = false then
    let locIdx := P.opAt (nr + 1)
    some ⟨[(p, opSetLoc8), (p + 1, locIdx)] ++ (if p + 1 < nr then [(nr, opNop)] else []) ++
      [(nr + 1, opNop)], p⟩
  else none

def pattern21 : Pattern := wideDrop opPushConst8 2 [1]
def pattern22 : Pattern := wideDrop opPushI16 3 [1, 2]
def pattern23 : Pattern := twoOps opDup opDrop opNop
def pattern24 : Pattern := twoOps opSwap opSwap opNop
def pattern25 : Pattern := twoOps opSwap opNip opDrop
def pattern28 : Pattern := twoOps opUndefined opReturn opReturnUndef
def pattern30 : Pattern := twoOps opUndefined opStrictEq opIsUndefined
def pattern29 : Pattern := twoOps opNull opStrictEq opIsNull

/-- In the order in which they are tried -/
def patterns : List Pattern := [
  pattern1, pattern2, pattern2b, pattern3, pattern4, pattern4b, pattern4c, pattern5, pattern6,
  pattern6b, pattern6c, pattern7, pattern8, pattern10, pattern10b, pattern10c, patternField,
  pattern11, pattern12, pattern14, pattern14b, pattern14c, pattern14d, pattern15, pattern16,
  pattern20c, pattern21, pattern22, pattern23, pattern24, pattern25, pattern28, pattern30,
  pattern29]

def writeAll (P : BcOut) (writes : List (Nat × Nat)) : BcOut :=
  writes.foldl (fun P (pos, op) => P.write pos op) P

/-- The scan from `p` on; `none` when `fuel` rounds do not bring it to the end. -/
def postPeepholeFrom (isLabelTarget : Nat → Bool) : Nat → Nat → BcOut → Option BcOut
  | 0, _, _ => none
  | fuel + 1, p, P =>
      if P.size ≤ p then some P
      else
        let sz := opSize (P.opAt p)
        if sz = 0 then some P
        else
          let nr := P.skipNops isLabelTarget (p + sz)
          match patterns.findSome? (fun pattern => pattern P isLabelTarget p nr) with
          | some r => postPeepholeFrom isLabelTarget fuel r.next (P.writeAll r.writes)
          | none => postPeepholeFrom isLabelTarget fuel (p + sz) P

/-- Without memory for the bitmap of label targets nothing is done. -/
def postPeephole (P : BcOut) (allocated : Bool) (fuel : Nat) : Option BcOut :=
  if P.size = 0 ∨ allocated = false then some P
  else postPeepholeFrom P.liveLabelTargets fuel 0 P

variable {P P' : BcOut} {p m m' e q nr : Nat} {isLabelTarget : Nat → Bool}

/-! ### The instructions of a window -/

abbrev instrAt (P : BcOut) (q : Nat) : Instr :=
  ⟨P.opAt q, opSize (P.opAt q), P.operandBytes q, P.target q⟩

/-- What `op` does, whatever its operands -/
def OpActs (op : Nat) (action : Action) (pops pushes : Nat) : Prop :=
  ∀ size operands target, Acts ⟨op, size, operands, target⟩ action pops pushes

theorem acts_of_op {op : Nat} {action : Action} {pops pushes : Nat}
    (acts : OpActs op action pops pushes) (here : P.opAt q = op) :
    Acts (P.instrAt q) action pops pushes := by
  subst here
  exact acts _ _ _

/-- A whole instruction that is no jump -/
structure Plain (op : Nat) : Prop where
  known : op < opCount
  noLabel : hasLabelOperand op = false

/-- Two instructions, and `nop`s besides them -/
structure Bytes (P : BcOut) (a m e : Nat) : Prop where
  head : Plain (P.opAt a)
  headStop : a + opSize (P.opAt a) ≤ m
  gap : ∀ q, a + opSize (P.opAt a) ≤ q → q < m → P.opAt q = opNop
  tail : Plain (P.opAt m)
  tailStop : m + opSize (P.opAt m) ≤ e
  rest : ∀ q, m + opSize (P.opAt m) ≤ q → q < e → P.opAt q = opNop

theorem nops_code {a b : Nat} (inside : b ≤ P.size)
    (nops : ∀ q, a ≤ q → q < b → P.opAt q = opNop) : Nops P.code a b := by
  intro q low high
  have nop := nops q low high
  refine ⟨P.instrAt q, code_inside (by omega), nop, ?_⟩
  change opSize (P.opAt q) = 1
  rw [nop]
  rfl

namespace Bytes

variable {a : Nat} (bytes : Bytes P a m e)
include bytes

theorem pair (inside : e ≤ P.size) : Pair P.code a m e (P.instrAt a) (P.instrAt m) := by
  have headSize := opSize_pos _ bytes.head.known
  have tailSize := opSize_pos _ bytes.tail.known
  have headStop := bytes.headStop
  have tailStop := bytes.tailStop
  exact {
    head := code_inside (by omega)
    headStop := headStop
    gap := nops_code (by omega) bytes.gap
    tail := code_inside (by omega)
    tailStop := tailStop
    rest := nops_code inside bytes.rest
    headSize := headSize
    tailSize := tailSize }

theorem decodes : Decodes P.buf a e := by
  have head : Decodes P.buf a (a + opSize (P.opAt a)) := Decodes.one bytes.head.known
  have tail : Decodes P.buf m (m + opSize (P.opAt m)) := Decodes.one bytes.tail.known
  have gap := Decodes.nops bytes.headStop bytes.gap
  have rest := Decodes.nops bytes.tailStop bytes.rest
  exact head.trans (gap.trans (tail.trans rest))

/-- The instructions of the window are no jumps. -/
theorem plain (start : P.Start a) (low : a ≤ q) (high : q < e) (here : P.Start q) :
    hasLabelOperand (P.opAt q) = false := by
  by_cases atHead : q = a
  · rw [atHead]
    exact bytes.head.noLabel
  · have behind := start.next_le here (by omega)
    by_cases inGap : q < m
    · rw [bytes.gap q behind inGap]
      rfl
    · by_cases atTail : q = m
      · rw [atTail]
        exact bytes.tail.noLabel
      · have startTail : P.Start m :=
          (start.trans (Decodes.one bytes.head.known)).trans
            (Decodes.nops bytes.headStop bytes.gap)
        have behindTail := startTail.next_le here (by omega)
        rw [bytes.rest q behindTail high]
        rfl

end Bytes

/-- A rewritten window of two instructions -/
structure Rewritten (P P' : BcOut) (a m m' e : Nat) : Prop where
  start : P.Start a
  inside : e ≤ P.size
  old : Bytes P a m e
  new : Bytes P' a m' e
  unlabelled : ∀ q, a < q → q < e → P.Start q → P.liveLabelTargets q = false
  size : P'.size = P.size
  same : ∀ i, i < a ∨ e ≤ i → P'.opAt i = P.opAt i
  jumps : P'.jumpSlots = P.jumpSlots
  labels : P'.labelSlots = P.labelSlots
  pair : Peephole (P.instrAt a) (P.instrAt m) (P'.instrAt a) (P'.instrAt m')

namespace Rewritten

variable {a : Nat} (window : Rewritten P P' a m m' e) (accurate : P.Accurate)
include window

theorem order : a ≤ e := by
  have headStop := window.old.headStop
  have tailStop := window.old.tailStop
  omega

theorem segmentEdit : SegmentEdit P P' a e where
  size := window.size
  start := window.start
  stop := window.start.trans window.old.decodes
  order := window.order
  inside := window.inside
  decodes := window.new.decodes
  same := window.same

include accurate in
theorem accurate_after : P'.Accurate := by
  refine accurate.edit_plain window.segmentEdit window.jumps window.labels ?_ window.unlabelled
  intro j _ _ q slot
  by_contra within
  have plain := window.old.plain window.start (q := q) (by omega) (by omega) slot.start
  exact absurd rfl (slot.ne_of_plain plain)

include accurate in
theorem windowEdit : WindowEdit P P' a e where
  size := window.size
  start := window.start
  stop := window.segmentEdit.stop
  inside := window.inside
  unlabelled := window.unlabelled
  same q start inside outside := by
    apply window.segmentEdit.code_eq start (accurate.known start inside) outside
    exact target_congr (window.same q outside) window.jumps window.labels

include accurate in
theorem preserves {V W : Type} (M : PeepholeMachine V W) (w : W) {level : Nat → Nat}
    (steady : M.Steady level P.code (Machine.entry w)) :
    SameBehaviour (M.observedStep P.code) (M.observedStep P'.code) (Machine.entry w) ∧
      M.Steady (windowLevel level a m' e (P'.instrAt a) (P'.instrAt m')) P'.code
        (Machine.entry w) := by
  have edit := window.windowEdit accurate
  refine steady_of_observed_windows M.toMachine w (P.outside_zero a e)
    (fun pc visible => windowLevel_outside visible.2) steady fun s within safe => ?_
  by_cases here : s.pc = a
  · have ⟨pc, stack, world⟩ := s
    dsimp only at here
    subst here
    refine .inr (window.pair.matched M (window.old.pair window.inside) ?_ safe ?_ within.stack)
    · exact window.new.pair (by rw [window.size]; exact window.inside)
    · exact ⟨edit.stop, by omega⟩
  · exact .inl (edit.unchanged accurate within.pc here)

end Rewritten

/-! ### The bytes of a pattern -/

theorem opAt_write {a x i : Nat} (bound : a < P.size) (small : x < 256) :
    (P.write a x).opAt i = if i = a then x else P.opAt i := by
  split
  · next same =>
    rw [same]
    exact opAt_write_same bound small
  · next other => exact opAt_write_ne other

theorem writeAll_size (writes : List (Nat × Nat)) : (P.writeAll writes).size = P.size := by
  induction writes using List.reverseRecOn with
  | nil => rfl
  | append_singleton writes last ih =>
      rw [writeAll, List.foldl_append]
      exact (write_size _ _ _).trans ih

/-- The last write at a position counts. -/
theorem opAt_writeAll (writes : List (Nat × Nat)) (bounds : ∀ x ∈ writes, x.1 < P.size ∧ x.2 < 256)
    (i : Nat) : (P.writeAll writes).opAt i = (writes.reverse.lookup i).getD (P.opAt i) := by
  induction writes using List.reverseRecOn with
  | nil => rfl
  | append_singleton writes last ih =>
      have ⟨bound, small⟩ := bounds last (by simp)
      have earlier := ih fun x member => bounds x (by simp [member])
      have split : P.writeAll (writes ++ [last]) = (P.writeAll writes).write last.1 last.2 := by
        rw [writeAll, List.foldl_append]
        rfl
      rw [split, opAt_write (by rwa [writeAll_size]) small, earlier, List.reverse_append,
        List.reverse_singleton, List.singleton_append, List.lookup_cons]
      by_cases here : i = last.1
      · simp [here]
      · have test : (i == last.1) = false := beq_false_of_ne here
        rw [if_neg here, test]

theorem writeAll_jumps (writes : List (Nat × Nat)) :
    (P.writeAll writes).jumpSlots = P.jumpSlots ∧ (P.writeAll writes).labelSlots = P.labelSlots := by
  induction writes using List.reverseRecOn with
  | nil => exact ⟨rfl, rfl⟩
  | append_singleton writes last ih =>
      rw [writeAll, List.foldl_append]
      exact ih

theorem lookup_none {writes : List (Nat × Nat)} {i : Nat} (absent : ∀ x ∈ writes, x.1 ≠ i) :
    writes.reverse.lookup i = none := by
  rw [List.lookup_eq_none_iff]
  intro x member
  have other := absent x (List.mem_reverse.mp member)
  simpa using Ne.symm other

/-- What the scan knows at `p` -/
structure Scan (P : BcOut) (isLabelTarget : Nat → Bool) (p nr : Nat) : Prop where
  accurate : P.Accurate
  start : P.Start p
  inside : p < P.size
  next : nr = P.skipNops isLabelTarget (p + opSize (P.opAt p))
  labels : isLabelTarget = P.liveLabelTargets

namespace Scan

variable (scan : Scan P isLabelTarget p nr)
include scan

theorem order : p + opSize (P.opAt p) ≤ nr := by
  rw [scan.next]
  exact le_skipNops _ _

theorem lt : p < nr := by
  have positive := scan.accurate.size_pos scan.start scan.inside
  have order := scan.order
  omega

theorem gap {q : Nat} (low : p + opSize (P.opAt p) ≤ q) (high : q < nr) :
    P.opAt q = opNop ∧ P.liveLabelTargets q = false := by
  rw [scan.next] at high
  have ⟨_, nop, free⟩ := skipNops_skipped _ low high
  rw [scan.labels] at free
  exact ⟨nop, free⟩

theorem old (head : hasLabelOperand (P.opAt p) = false) (tail : Plain (P.opAt nr)) :
    Bytes P p nr (nr + opSize (P.opAt nr)) where
  head := ⟨scan.accurate.known scan.start scan.inside, head⟩
  headStop := scan.order
  gap _ low high := (scan.gap low high).1
  tail := tail
  tailStop := le_rfl
  rest q low high := by omega

/-- A pattern that matches up to the end of the second instruction -/
theorem rewritten {writes : List (Nat × Nat)} (head : hasLabelOperand (P.opAt p) = false)
    (tail : Plain (P.opAt nr)) (room : nr + opSize (P.opAt nr) ≤ P.size)
    (free : isLabelTarget nr = false)
    (within : ∀ x ∈ writes, p ≤ x.1 ∧ x.1 < nr + opSize (P.opAt nr) ∧ x.2 < 256)
    (new : Bytes (P.writeAll writes) p m' (nr + opSize (P.opAt nr)))
    (pair : Peephole (P.instrAt p) (P.instrAt nr) ((P.writeAll writes).instrAt p)
      ((P.writeAll writes).instrAt m')) :
    Rewritten P (P.writeAll writes) p nr m' (nr + opSize (P.opAt nr)) where
  start := scan.start
  inside := room
  old := scan.old head tail
  new := new
  unlabelled q low high start := by
    have behind := scan.start.next_le start low
    by_cases inGap : q < nr
    · exact (scan.gap behind inGap).2
    · have startTail : P.Start nr := by
        apply (scan.accurate.next scan.start scan.inside).trans
        exact Decodes.nops scan.order fun r low high => (scan.gap low high).1
      by_cases atTail : q = nr
      · rw [atTail, ← scan.labels]
        exact free
      · have beyond := startTail.next_le start (by omega)
        unfold opAt at high
        omega
  size := writeAll_size writes
  same i outside := by
    rw [opAt_writeAll writes (fun x member => ⟨by have := within x member; omega,
      (within x member).2.2⟩), lookup_none, Option.getD_none]
    intro x member same
    have inside := within x member
    omega
  jumps := (writeAll_jumps writes).1
  labels := (writeAll_jumps writes).2
  pair := pair

end Scan

end BcOut

end PrimJs
