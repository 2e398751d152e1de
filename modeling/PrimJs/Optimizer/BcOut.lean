import Mathlib.Data.List.Pairwise
import PrimJs.Bytecode.Decode
import PrimJs.Bytecode.Machine

/-! The data the post passes work on: `bc_out` with the jump slots and label slots of its
function. A jump goes where its slot's label is, whatever its operand bytes say:
`opt_nop_strip` rewrites them from the slots. -/

namespace PrimJs

structure JumpSlot where
  op : Nat
  size : Nat
  pos : Int
  label : Nat
  deriving DecidableEq, Repr

structure LabelSlot where
  refCount : Int
  addr : Int
  deriving DecidableEq, Repr

structure BcOut where
  buf : List UInt8
  jumpSlots : List JumpSlot
  labelSlots : List LabelSlot
  deriving DecidableEq, Repr

def JumpSlot.none : JumpSlot := ⟨opNop, 0, -1, 0⟩

def hasLabelOperand (op : Nat) : Bool :=
  match (shortOpcodeInfo op).fmt with
  | .label8 | .label16 | .label | .labelU16 | .atomLabelU8 | .atomLabelU16 => true
  | _ => false

/-- Where the label operand stands behind the opcode. -/
def labelOffset (op : Nat) : Nat :=
  match (shortOpcodeInfo op).fmt with
  | .atomLabelU8 | .atomLabelU16 => 5
  | _ => 1

def labelWidth (op : Nat) : Nat :=
  match (shortOpcodeInfo op).fmt with
  | .label8 => 1
  | .label16 => 2
  | _ => 4

def slice (buf : List UInt8) (start count : Nat) : List UInt8 := (buf.drop start).take count

def fillNops (buf : List UInt8) (pos : Nat) : Nat → List UInt8
  | 0 => buf
  | count + 1 => fillNops (putU8 buf pos opNop) (pos + 1) count

namespace BcOut

def size (P : BcOut) : Nat := P.buf.length

def opAt (P : BcOut) (pos : Nat) : Nat := byteAt P.buf pos

def jp (P : BcOut) (k : Nat) : JumpSlot := P.jumpSlots[k]?.getD .none

def labelSlot (P : BcOut) (label : Nat) : LabelSlot := P.labelSlots[label]?.getD ⟨0, -1⟩

abbrev labelAddr (P : BcOut) (label : Nat) : Int := (P.labelSlot label).addr

abbrev refCount (P : BcOut) (label : Nat) : Int := (P.labelSlot label).refCount

def write (P : BcOut) (pos op : Nat) : BcOut := { P with buf := putU8 P.buf pos op }

def writeNops (P : BcOut) (pos count : Nat) : BcOut := { P with buf := fillNops P.buf pos count }

/-- `nop_full_instruction`; the atom it releases is not part of the code. -/
def nopFullInstruction (P : BcOut) (pos : Nat) : BcOut := P.writeNops pos (opSize (P.opAt pos))

def setJp (P : BcOut) (k : Nat) (j : JumpSlot) : BcOut :=
  { P with jumpSlots := P.jumpSlots.set k j }

def setLabel (P : BcOut) (label : Nat) (slot : LabelSlot) : BcOut :=
  { P with labelSlots := P.labelSlots.set label slot }

def decRef (P : BcOut) (label : Nat) : BcOut :=
  P.setLabel label { P.labelSlot label with refCount := P.refCount label - 1 }

/-- The bitmap of label addresses a pass builds at its start: of all labels, or of those with
`ref_count > 0`. -/
def labelTargets (P : BcOut) (counted : LabelSlot → Bool) (pos : Nat) : Bool :=
  decide (pos < P.size) && P.labelSlots.any fun l => counted l && l.addr == (pos : Int)

def liveLabelTargets (P : BcOut) : Nat → Bool := P.labelTargets fun l => 0 < l.refCount

def allLabelTargets (P : BcOut) : Nat → Bool := P.labelTargets fun _ => true

/-- The map from operand positions to jump slots a pass builds at its start: of several live
slots at one position the last is kept. -/
def posToJp (P : BcOut) (pos : Nat) : Option Nat :=
  if pos < P.size then
    (List.range P.jumpSlots.length).reverse.find? fun k =>
      decide (0 < (P.jp k).size) && (P.jp k).pos == (pos : Int)
  else none

/-- The `while` loops that step over `nop`s carrying no label. -/
def skipNops (P : BcOut) (isLabelTarget : Nat → Bool) (pos : Nat) : Nat :=
  go (P.size - pos) pos
where
  go : Nat → Nat → Nat
    | 0, q => q
    | fuel + 1, q => if P.opAt q = opNop ∧ isLabelTarget q = false then go fuel (q + 1) else q

def slotAt (P : BcOut) (pos : Nat) : Option JumpSlot :=
  P.jumpSlots.find? fun j => decide (0 < j.size) && j.pos == (pos : Int)

def slotTarget (P : BcOut) (j : JumpSlot) : Option Nat :=
  if 0 ≤ P.labelAddr j.label then some (P.labelAddr j.label).toNat else .none

def operandBytes (P : BcOut) (pos : Nat) : List UInt8 :=
  match (shortOpcodeInfo (P.opAt pos)).fmt with
  | .label8 | .label16 | .label | .labelU16 => []
  | .atomLabelU8 | .atomLabelU16 =>
      slice P.buf (pos + 1) 4 ++ slice P.buf (pos + 9) (opSize (P.opAt pos) - 9)
  | _ => slice P.buf (pos + 1) (opSize (P.opAt pos) - 1)

def target (P : BcOut) (pos : Nat) : Option Nat :=
  if hasLabelOperand (P.opAt pos) then
    (P.slotAt (pos + labelOffset (P.opAt pos))).bind P.slotTarget
  else .none

def code (P : BcOut) : Code := fun pos =>
  if pos < P.size then
    some ⟨P.opAt pos, opSize (P.opAt pos), P.operandBytes pos, P.target pos⟩
  else .none

def Start (P : BcOut) (pos : Nat) : Prop := Decodes P.buf 0 pos

def liveCount (P : BcOut) (label : Nat) : Nat :=
  P.jumpSlots.countP fun j => decide (0 < j.size) && j.label == label

/-- A live jump slot describes the jump instruction at `pos`. -/
structure SlotAccurate (P : BcOut) (j : JumpSlot) (pos : Nat) : Prop where
  start : P.Start pos
  inside : pos < P.size
  op : P.opAt pos = j.op
  jump : hasLabelOperand j.op
  width : j.size = labelWidth j.op
  operand : j.pos = (pos + labelOffset j.op : Nat)

/-- Jump slots and labels say what the code does: every live slot stands for one jump
instruction, goes to the start of an instruction or to the end of the code, and is counted by its
label. -/
structure Accurate (P : BcOut) : Prop where
  decodes : P.Start P.size
  slots : ∀ j ∈ P.jumpSlots, 0 < j.size → ∃ pos, P.SlotAccurate j pos
  distinct : P.jumpSlots.Pairwise fun a b => 0 < a.size → 0 < b.size → a.pos ≠ b.pos
  targets : ∀ j ∈ P.jumpSlots, 0 < j.size → ∃ pos : Nat, P.labelAddr j.label = pos ∧ P.Start pos ∧
    pos ≤ P.size
  counts : ∀ label < P.labelSlots.length, P.refCount label = P.liveCount label

end BcOut

namespace BcOut

/-- `Accurate` as a program. -/
def slotCheck (P : BcOut) (j : JumpSlot) : Bool :=
  let pos := (j.pos - labelOffset j.op).toNat
  let target := (P.labelAddr j.label).toNat
  Decodes.check P.buf P.size 0 pos && decide (pos < P.size) && P.opAt pos == j.op &&
    hasLabelOperand j.op && j.size == labelWidth j.op && j.pos == (pos + labelOffset j.op : Nat) &&
    decide (P.labelAddr j.label = target) && Decodes.check P.buf P.size 0 target &&
    decide (target ≤ P.size)

def accurateCheck (P : BcOut) : Bool :=
  Decodes.check P.buf P.size 0 P.size &&
    (P.jumpSlots.all fun j => j.size == 0 || P.slotCheck j) &&
    decide (P.jumpSlots.Pairwise fun a b => 0 < a.size → 0 < b.size → a.pos ≠ b.pos) &&
    (List.range P.labelSlots.length).all fun label => P.refCount label == P.liveCount label

theorem accurate_of_check {P : BcOut} (checked : P.accurateCheck = true) : P.Accurate := by
  simp only [accurateCheck, Bool.and_eq_true, List.all_eq_true, Bool.or_eq_true, beq_iff_eq,
    decide_eq_true_eq, List.mem_range] at checked
  have ⟨⟨⟨decodes, slots⟩, distinct⟩, counts⟩ := checked
  have live : ∀ j ∈ P.jumpSlots, 0 < j.size → P.slotCheck j = true := by
    intro j member alive
    rcases slots j member with dead | slot
    · omega
    · exact slot
  refine ⟨Decodes.of_check decodes, ?_, distinct, ?_, counts⟩
  · intro j member alive
    have slot := live j member alive
    simp only [slotCheck, Bool.and_eq_true, beq_iff_eq, decide_eq_true_eq] at slot
    have ⟨⟨⟨⟨⟨⟨⟨⟨start, inside⟩, op⟩, jump⟩, width⟩, operand⟩, _⟩, _⟩, _⟩ := slot
    exact ⟨_, Decodes.of_check start, inside, op, jump, width, operand⟩
  · intro j member alive
    have slot := live j member alive
    simp only [slotCheck, Bool.and_eq_true, beq_iff_eq, decide_eq_true_eq] at slot
    have ⟨⟨⟨_, addr⟩, start⟩, inside⟩ := slot
    exact ⟨_, addr, Decodes.of_check start, inside⟩

end BcOut

section Nops

theorem fillNops_length (buf : List UInt8) (pos count : Nat) :
    (fillNops buf pos count).length = buf.length := by
  induction count generalizing buf pos with
  | zero => rfl
  | succ count ih => rw [fillNops, ih, putU8_length]

section

variable {buf : List UInt8} {pos count i : Nat}

theorem byteAt_fillNops_outside (outside : i < pos ∨ pos + count ≤ i) :
    byteAt (fillNops buf pos count) i = byteAt buf i := by
  induction count generalizing buf pos with
  | zero => rfl
  | succ count ih =>
      rw [fillNops, ih (by omega)]
      exact byteAt_putU8_ne (by omega) opNop

theorem byteAt_fillNops_inside (low : pos ≤ i) (high : i < pos + count) (bound : i < buf.length) :
    byteAt (fillNops buf pos count) i = opNop := by
  induction count generalizing buf pos with
  | zero => omega
  | succ count ih =>
      rw [fillNops]
      by_cases first : i = pos
      · rw [byteAt_fillNops_outside (by omega), first, byteAt_putU8_same (by omega)]
        rfl
      · exact ih (by omega) (by omega) (by rwa [putU8_length])

theorem fillNops_putU8 {v : Nat} (before : i < pos) :
    fillNops (putU8 buf i v) pos count = putU8 (fillNops buf pos count) i v := by
  induction count generalizing buf pos with
  | zero => rfl
  | succ count ih =>
      have swap : putU8 (putU8 buf i v) pos opNop = putU8 (putU8 buf pos opNop) i v :=
        List.set_comm _ _ (by omega)
      rw [fillNops, fillNops, swap, ih (by omega)]

end

end Nops

namespace BcOut

variable {P P' : BcOut}

section

variable (P : BcOut)

@[simp] theorem write_size (pos op : Nat) : (P.write pos op).size = P.size := by
  simp [size, write]

@[simp] theorem writeNops_size (pos count : Nat) : (P.writeNops pos count).size = P.size := by
  simp [size, writeNops, fillNops_length]

@[simp] theorem setJp_size (k : Nat) (j : JumpSlot) : (P.setJp k j).size = P.size := rfl

@[simp] theorem setLabel_size (label : Nat) (slot : LabelSlot) :
    (P.setLabel label slot).size = P.size := rfl

@[simp] theorem decRef_size (label : Nat) : (P.decRef label).size = P.size := rfl

@[simp] theorem setJp_opAt (k : Nat) (j : JumpSlot) (pos : Nat) :
    (P.setJp k j).opAt pos = P.opAt pos := rfl

@[simp] theorem setLabel_opAt (label : Nat) (slot : LabelSlot) (pos : Nat) :
    (P.setLabel label slot).opAt pos = P.opAt pos := rfl

@[simp] theorem decRef_opAt (label pos : Nat) : (P.decRef label).opAt pos = P.opAt pos := rfl

end

variable {pos : Nat}

theorem opAt_write_same {op : Nat} (bound : pos < P.size) (small : op < 256) :
    (P.write pos op).opAt pos = op := by
  rw [opAt, write, byteAt_putU8_same bound, Nat.mod_eq_of_lt small]

theorem opAt_write_ne {op i : Nat} (distinct : i ≠ pos) : (P.write pos op).opAt i = P.opAt i :=
  byteAt_putU8_ne distinct op

theorem opAt_writeNops_outside {count i : Nat} (outside : i < pos ∨ pos + count ≤ i) :
    (P.writeNops pos count).opAt i = P.opAt i :=
  byteAt_fillNops_outside outside

theorem opAt_writeNops_inside {count i : Nat} (low : pos ≤ i) (high : i < pos + count)
    (bound : i < P.size) : (P.writeNops pos count).opAt i = opNop :=
  byteAt_fillNops_inside low high bound

@[simp] theorem write_labelSlot (P : BcOut) (pos op label : Nat) :
    (P.write pos op).labelSlot label = P.labelSlot label := rfl

@[simp] theorem writeNops_labelSlot (P : BcOut) (pos count label : Nat) :
    (P.writeNops pos count).labelSlot label = P.labelSlot label := rfl

@[simp] theorem setJp_labelSlot (P : BcOut) (k : Nat) (j : JumpSlot) (label : Nat) :
    (P.setJp k j).labelSlot label = P.labelSlot label := rfl

theorem labelSlot_setLabel_same {label : Nat} (bound : label < P.labelSlots.length)
    (slot : LabelSlot) : (P.setLabel label slot).labelSlot label = slot := by
  simp [labelSlot, setLabel, bound]

theorem labelSlot_setLabel_ne {label other : Nat} (distinct : other ≠ label) (slot : LabelSlot) :
    (P.setLabel label slot).labelSlot other = P.labelSlot other := by
  simp [labelSlot, setLabel, List.getElem?_set_ne distinct.symm]

theorem jp_setJp_same {k : Nat} (bound : k < P.jumpSlots.length) (j : JumpSlot) :
    (P.setJp k j).jp k = j := by
  simp [jp, setJp, bound]

theorem jp_setJp_ne {k other : Nat} (distinct : other ≠ k) (j : JumpSlot) :
    (P.setJp k j).jp other = P.jp other := by
  simp [jp, setJp, List.getElem?_set_ne distinct.symm]

theorem jp_eq_getElem {k : Nat} (bound : k < P.jumpSlots.length) : P.jp k = P.jumpSlots[k] := by
  simp [jp, bound]

theorem jp_mem {k : Nat} (bound : k < P.jumpSlots.length) : P.jp k ∈ P.jumpSlots := by
  rw [jp_eq_getElem bound]
  exact List.getElem_mem bound

theorem exists_jp {j : JumpSlot} (member : j ∈ P.jumpSlots) :
    ∃ k, k < P.jumpSlots.length ∧ P.jp k = j := by
  have ⟨k, bound, found⟩ := List.getElem_of_mem member
  exact ⟨k, bound, by rw [jp_eq_getElem bound, found]⟩

theorem jp_live_lt {k : Nat} (live : 0 < (P.jp k).size) : k < P.jumpSlots.length := by
  by_contra outside
  have none : P.jumpSlots[k]? = .none := List.getElem?_eq_none (by omega)
  simp [jp, none, JumpSlot.none] at live

@[simp] theorem decRef_labelAddr (P : BcOut) (label other : Nat) :
    (P.decRef label).labelAddr other = P.labelAddr other := by
  by_cases same : other = label
  · subst same
    by_cases bound : other < P.labelSlots.length
    · rw [labelAddr, decRef, labelSlot_setLabel_same bound]
    · simp [labelAddr, decRef, setLabel, labelSlot, bound]
  · rw [labelAddr, decRef, labelSlot_setLabel_ne same]

theorem refCount_decRef_same {label : Nat} (bound : label < P.labelSlots.length) :
    (P.decRef label).refCount label = P.refCount label - 1 := by
  rw [refCount, decRef, labelSlot_setLabel_same bound]

theorem refCount_decRef_ne {label other : Nat} (distinct : other ≠ label) :
    (P.decRef label).refCount other = P.refCount other := by
  rw [refCount, decRef, labelSlot_setLabel_ne distinct]

theorem skipNops_go {isLabelTarget : Nat → Bool} (fuel pos : Nat) (room : pos + fuel ≤ P.size) :
    pos ≤ skipNops.go P isLabelTarget fuel pos ∧
      ∀ q, pos ≤ q → q < skipNops.go P isLabelTarget fuel pos →
        q < P.size ∧ P.opAt q = opNop ∧ isLabelTarget q = false := by
  induction fuel generalizing pos with
  | zero => exact ⟨Nat.le_refl _, fun q low high => by unfold skipNops.go at high; omega⟩
  | succ fuel ih =>
      rw [skipNops.go]
      split
      · rename_i here
        have ⟨order, skipped⟩ := ih (pos + 1) (by omega)
        refine ⟨by omega, fun q low high => ?_⟩
        by_cases first : q = pos
        · subst first
          exact ⟨by omega, here⟩
        · exact skipped q (by omega) high
      · exact ⟨Nat.le_refl _, fun q low high => by omega⟩

theorem le_skipNops (isLabelTarget : Nat → Bool) (pos : Nat) : pos ≤ P.skipNops isLabelTarget pos := by
  by_cases room : pos ≤ P.size
  · exact (skipNops_go _ pos (by omega)).1
  · rw [skipNops, Nat.sub_eq_zero_of_le (by omega)]
    exact Nat.le_refl _

theorem skipNops_skipped (isLabelTarget : Nat → Bool) {q : Nat} (low : pos ≤ q)
    (high : q < P.skipNops isLabelTarget pos) :
    q < P.size ∧ P.opAt q = opNop ∧ isLabelTarget q = false := by
  by_cases room : pos ≤ P.size
  · exact (skipNops_go _ pos (by omega)).2 q low high
  · rw [skipNops, Nat.sub_eq_zero_of_le (by omega)] at high
    unfold skipNops.go at high
    omega

theorem code_eq_some {i : Instr} (here : P.code pos = some i) :
    pos < P.size ∧ i = ⟨P.opAt pos, opSize (P.opAt pos), P.operandBytes pos, P.target pos⟩ := by
  unfold code at here
  split at here
  · rename_i inside
    exact ⟨inside, (Option.some.inj here).symm⟩
  · cases here

theorem code_inside (inside : pos < P.size) : P.code pos =
    some ⟨P.opAt pos, opSize (P.opAt pos), P.operandBytes pos, P.target pos⟩ := by
  rw [code, if_pos inside]

theorem slice_congr {buf buf' : List UInt8} {start count : Nat} (length : buf'.length = buf.length)
    (same : ∀ i, start ≤ i → i < start + count → byteAt buf' i = byteAt buf i) :
    slice buf' start count = slice buf start count := by
  apply List.ext_getElem?
  intro i
  simp only [slice, List.getElem?_take, List.getElem?_drop]
  split
  · rename_i inside
    have byte := same (start + i) (by omega) (by omega)
    unfold byteAt at byte
    by_cases bound : start + i < buf.length
    · have bound' : start + i < buf'.length := by omega
      simp only [List.getElem?_eq_getElem bound, List.getElem?_eq_getElem bound',
        Option.map_some, Option.getD_some] at byte ⊢
      rw [UInt8.toNat_inj.mp byte]
    · rw [List.getElem?_eq_none (by omega), List.getElem?_eq_none (by omega)]
  · rfl

theorem atomLabel_size : ∀ op < opCount, (shortOpcodeInfo op).fmt = .atomLabelU8 ∨
    (shortOpcodeInfo op).fmt = .atomLabelU16 → 10 ≤ opSize op := by
  decide +kernel

/-- The instruction at `pos` depends on its own bytes and on its own jump slot only. -/
theorem code_congr (length : P'.size = P.size) (known : P.opAt pos < opCount)
    (bytes : ∀ i, pos ≤ i → i < pos + opSize (P.opAt pos) → P'.opAt i = P.opAt i)
    (slots : P'.target pos = P.target pos) : P'.code pos = P.code pos := by
  have positive := opSize_pos _ known
  have first : P'.opAt pos = P.opAt pos := bytes pos (Nat.le_refl _) (by omega)
  have part : ∀ start count, pos ≤ start → start + count ≤ pos + opSize (P.opAt pos) →
      slice P'.buf start count = slice P.buf start count := fun start count low high =>
    slice_congr length fun i above below => bytes i (by omega) (by omega)
  have operands : P'.operandBytes pos = P.operandBytes pos := by
    have wide := atomLabel_size _ known
    unfold operandBytes
    rw [first]
    split
    case h_1 | h_2 | h_3 | h_4 => rfl
    case h_5 format | h_6 format =>
      have room := wide (by simp [format])
      rw [part _ _ (by omega) (by omega), part _ _ (by omega) (by omega)]
    case h_7 => exact part _ _ (by omega) (by omega)
  unfold code
  rw [length, first, operands, slots]

end BcOut

end PrimJs
