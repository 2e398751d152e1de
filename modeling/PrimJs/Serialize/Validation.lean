import PrimJs.Bytecode.Decode
import PrimJs.Serialize.ReaderFrame

/-! What the operands of an instruction index at run time, and which of these indices the
reader has checked when it accepts a function. -/

namespace PrimJs

open StateReader

inductive IndexTable where
  | local | arg | closure | cpool | atom
  /-- `vardefs`, through the adjusted variable index of a direct `eval`. -/
  | vardef
  deriving DecidableEq, Repr

inductive OperandPlace where
  | implicit (index : Nat)
  | u8At (offset : Nat)
  | u16At (offset : Nat)
  | u32At (offset : Nat)
  deriving DecidableEq, Repr

def OperandPlace.read (code : List UInt8) (pos : Nat) : OperandPlace → Nat
  | implicit index => index
  | u8At offset => getU8 code (pos + offset)
  | u16At offset => getU16 code (pos + offset)
  | u32At offset => getU32 code (pos + offset)

def operandGroups : List (List Nat × List (IndexTable × OperandPlace)) :=
  [([opGetLoc0, opPutLoc0, opSetLoc0], [(.local, .implicit 0)]),
   ([opGetLoc1, opPutLoc1, opSetLoc1], [(.local, .implicit 1)]),
   ([opGetLoc2, opPutLoc2, opSetLoc2], [(.local, .implicit 2)]),
   ([opGetLoc3, opPutLoc3, opSetLoc3], [(.local, .implicit 3)]),
   ([opGetArg0, opPutArg0, opSetArg0], [(.arg, .implicit 0)]),
   ([opGetArg1, opPutArg1, opSetArg1], [(.arg, .implicit 1)]),
   ([opGetArg2, opPutArg2, opSetArg2], [(.arg, .implicit 2)]),
   ([opGetArg3, opPutArg3, opSetArg3], [(.arg, .implicit 3)]),
   ([opGetVarRef0, opPutVarRef0, opSetVarRef0], [(.closure, .implicit 0)]),
   ([opGetVarRef1, opPutVarRef1, opSetVarRef1], [(.closure, .implicit 1)]),
   ([opGetVarRef2, opPutVarRef2, opSetVarRef2], [(.closure, .implicit 2)]),
   ([opGetVarRef3, opPutVarRef3, opSetVarRef3], [(.closure, .implicit 3)]),
   ([opGetLoc8, opPutLoc8, opSetLoc8, opDecLoc, opIncLoc, opAddLoc], [(.local, .u8At 1)]),
   ([opGetLoc, opPutLoc, opSetLoc, opSetLocUninitialized, opGetLocCheck, opPutLocCheck,
     opPutLocCheckInit, opCloseLoc], [(.local, .u16At 1)]),
   ([opGetArg, opPutArg, opSetArg], [(.arg, .u16At 1)]),
   ([opGetVarRef, opPutVarRef, opSetVarRef, opGetVarRefCheck, opPutVarRefCheck,
     opPutVarRefCheckInit], [(.closure, .u16At 1)]),
   ([opPushConst8, opFclosure8], [(.cpool, .u8At 1)]),
   ([opPushConst, opFclosure], [(.cpool, .u32At 1)]),
   ([opPushAtomValue, opPrivateSymbol, opThrowVar, opCheckVar, opGetVarUndef, opGetVar, opPutVar,
     opPutVarInit, opPutVarStrict, opDefineVar, opCheckDefineVar, opDefineFunc, opGetField,
     opGetField2, opPutField, opDefineField, opSetName, opDefineMethod, opDefineClass,
     opWithGetVar, opWithPutVar, opWithDeleteVar, opWithMakeRef, opWithGetRef, opWithGetRefUndef,
     opMakeVarRef, opDeleteVar], [(.atom, .u32At 1)]),
   ([opMakeLocRef], [(.atom, .u32At 1), (.local, .u16At 5)]),
   ([opMakeArgRef], [(.atom, .u32At 1), (.arg, .u16At 5)]),
   ([opMakeVarRefRef], [(.atom, .u32At 1), (.closure, .u16At 5)]),
   ([opEval], [(.vardef, .u16At 1)])]

def indexOperands (op : Nat) : List (IndexTable × OperandPlace) :=
  ((operandGroups.find? fun group => op ∈ group.1).map Prod.snd).getD []

/-- `index` is inside the table. The operand of `eval` is 0 for no variable and one more than
a local's number otherwise; `add_closure_variables` does not use it when `vardefs` is null. -/
def InTable (atoms : AtomTable) (b : LEPUSFunctionBytecode) (cpool : List BCValue)
    (table : IndexTable) (index : Nat) : Prop :=
  match table with
  | .local => index < b.varCount
  | .arg => index < b.argCount
  | .closure => index < b.closureVarCount
  | .cpool => index < cpool.length
  | .atom => atoms.Valid index
  | .vardef => index = 0 ∨ b.vardefs = [] ∨ b.argCount + (index - 1) < b.vardefs.length

def OperandsInTables (atoms : AtomTable) (b : LEPUSFunctionBytecode) (cpool : List BCValue)
    (code : List UInt8) (pos : Nat) : Prop :=
  ∀ operand ∈ indexOperands (byteAt code pos),
    InTable atoms b cpool operand.1 (operand.2.read code pos)

/-- A closure variable of a child, against the table of the parent it refers to. -/
def ClosureVarInTable (parent : LEPUSFunctionBytecode) (closure : LEPUSClosureVar) : Prop :=
  if closure.isLocal then
    if closure.isArg then closure.varIdx < parent.argCount else closure.varIdx < parent.varCount
  else closure.varIdx < parent.closureVarCount

structure FunctionInBounds (atoms : AtomTable) (b : LEPUSFunctionBytecode)
    (cpool : List BCValue) : Prop where
  decodes : InstrsFrom ShippableAt b.byteCodeBuf 0
  operands : ∀ pos, Boundary b.byteCodeBuf pos → pos < b.byteCodeBuf.length →
    OperandsInTables atoms b cpool b.byteCodeBuf pos
  children : ∀ child childCpool, BCValue.functionBytecode child childCpool ∈ cpool →
    ∀ closure ∈ child.closureVar, ClosureVarInTable b closure

/-- Every `eval` instruction names a variable of `vardefs`. -/
def EvalScopesInRange (b : LEPUSFunctionBytecode) : Prop :=
  ∀ pos, Boundary b.byteCodeBuf pos → pos < b.byteCodeBuf.length →
    byteAt b.byteCodeBuf pos = opEval →
      getU16 b.byteCodeBuf (pos + 1) = 0 ∨ b.vardefs = [] ∨
        b.argCount + (getU16 b.byteCodeBuf (pos + 1) - 1) < b.vardefs.length

/-- The checked operands of an instruction are in their tables; `eval` is left out. -/
def CheckedAt (atoms : AtomTable) (b : LEPUSFunctionBytecode) (cpool : List BCValue)
    (code : List UInt8) (pos : Nat) : Prop :=
  ShippableAt code pos ∧ ∀ operand ∈ indexOperands (byteAt code pos), operand.1 ≠ .vardef →
    InTable atoms b cpool operand.1 (operand.2.read code pos)

/-- The operand a `BytecodeIndexKind` checks. -/
def kindOperand (op : Nat) : BytecodeIndexKind → List (IndexTable × OperandPlace)
  | .none => []
  | .implicitLocal => [(.local, .implicit ((op - opGetLoc0) % 4))]
  | .implicitArg => [(.arg, .implicit ((op - opGetArg0) % 4))]
  | .implicitClosure => [(.closure, .implicit ((op - opGetVarRef0) % 4))]
  | .u8Local => [(.local, .u8At 1)]
  | .u8Cpool => [(.cpool, .u8At 1)]
  | .u16Local => [(.local, .u16At 1)]
  | .u16Arg => [(.arg, .u16At 1)]
  | .u16Closure => [(.closure, .u16At 1)]
  | .u32Cpool => [(.cpool, .u32At 1)]
  | .u16At5Local => [(.local, .u16At 5)]
  | .u16At5Arg => [(.arg, .u16At 5)]
  | .u16At5Closure => [(.closure, .u16At 5)]

theorem kindOperand_ne_vardef (op : Nat) (kind : BytecodeIndexKind) :
    ∀ operand ∈ kindOperand op kind, operand.1 ≠ .vardef := by
  intro operand member
  cases kind with
  | none => cases member
  | _ =>
      rw [List.mem_singleton.mp member]
      exact fun same => IndexTable.noConfusion same

/-- The switch of the validator covers every index operand but the one of `eval`. -/
theorem indexOperands_eq : ∀ op < opShippableCount, indexOperands op =
    (if bytecodeHasAtom op then [(.atom, .u32At 1)] else []) ++
      kindOperand op (bytecodeIndexKind op) ++
      (if op = opEval then [(.vardef, .u16At 1)] else []) := by
  decide +kernel

theorem atomOperand_fits : ∀ op < opShippableCount, bytecodeHasAtom op = true →
    5 ≤ opSize op ∧ (bytecodeIndexKind op ≠ .none → 7 ≤ opSize op ∧
      (bytecodeIndexKind op = .u16At5Local ∨ bytecodeIndexKind op = .u16At5Arg ∨
        bytecodeIndexKind op = .u16At5Closure)) := by
  decide +kernel

/-- The offset after an operand's bytes, relative to its instruction. -/
def OperandPlace.width : OperandPlace → Nat
  | implicit _ => 0
  | u8At offset => offset + 1
  | u16At offset => offset + 2
  | u32At offset => offset + 4

theorem operandWidth_le : ∀ op < opShippableCount, ∀ operand ∈ indexOperands op,
    operand.2.width ≤ opSize op := by
  decide +kernel

theorem OperandPlace.read_congr {place : OperandPlace} {a b : List UInt8} {pos : Nat}
    (same : ∀ i, pos ≤ i → i < pos + place.width → byteAt a i = byteAt b i) :
    place.read a pos = place.read b pos := by
  cases place with
  | implicit index => rfl
  | u8At offset => exact same _ (by omega) (by simp only [width]; omega)
  | u16At offset =>
      exact getU16_congr fun i low high => same i (by omega) (by simp only [width]; omega)
  | u32At offset =>
      exact getU32_congr fun i low high => same i (by omega) (by simp only [width]; omega)

variable {t s : BCReaderState} {b : LEPUSFunctionBytecode} {cpool : List BCValue}
  {readRec : BCRead BCValue}

theorem CheckedAt.congr {atoms : AtomTable} {code code' : List UInt8} {pos : Nat}
    (checked : CheckedAt atoms b cpool code pos)
    (same : ∀ i, pos ≤ i → i < pos + opSize (byteAt code pos) → byteAt code' i = byteAt code i) :
    CheckedAt atoms b cpool code' pos := by
  obtain ⟨shippable, operands⟩ := checked
  have positive := opSize_pos (byteAt code pos)
    (Nat.lt_of_lt_of_le shippable.2 (by decide))
  have opcode : byteAt code' pos = byteAt code pos := same pos (Nat.le_refl pos) (by omega)
  refine ⟨by simpa [ShippableAt, opcode] using shippable, fun operand member notEval => ?_⟩
  rw [opcode] at member
  have fits := operandWidth_le _ shippable.2 operand member
  rw [OperandPlace.read_congr fun i low high => same i low (by omega)]
  exact operands operand member notEval

section Instruction

variable {b : LEPUSFunctionBytecode} {cpool : List BCValue} {bcBuf fixed : List UInt8}
  {pos : Nat} {s t : BCReaderState} {u : Unit}

theorem reads_checkBytecodeIndex (run : Reads (checkBytecodeIndex b bcBuf pos) s u t) :
    t = s ∧ ∀ idx limit, bytecodeIndex b bcBuf pos = some (idx, limit) → idx < limit := by
  unfold checkBytecodeIndex at run
  split at run
  next idx limit found =>
    obtain ⟨below, rfl⟩ := reads_require.mp run
    refine ⟨rfl, fun idx' limit' same => ?_⟩
    obtain ⟨rfl, rfl⟩ : idx = idx' ∧ limit = limit' := by simpa [found] using same
    exact below
  next notFound =>
    obtain ⟨-, rfl⟩ := reads_pure.mp run
    refine ⟨rfl, fun idx limit same => ?_⟩
    rw [notFound] at same
    cases same

/-- The kind's operand lies below its limit, and so in its table. -/
theorem kindOperand_inTable (atoms : AtomTable) (counted : cpool.length = b.cpoolCount)
    (below : ∀ idx limit, bytecodeIndex b bcBuf pos = some (idx, limit) → idx < limit) :
    ∀ operand ∈ kindOperand (byteAt bcBuf pos) (bytecodeIndexKind (byteAt bcBuf pos)),
      InTable atoms b cpool operand.1 (operand.2.read bcBuf pos) := by
  simp only [bytecodeIndex, getU8] at below
  generalize bytecodeIndexKind (byteAt bcBuf pos) = kind at below ⊢
  intro operand member
  cases kind with
  | none => cases member
  | u8Cpool | u32Cpool =>
      obtain rfl := List.mem_singleton.mp member
      exact Nat.lt_of_lt_of_eq (below _ _ rfl) counted.symm
  | _ =>
      obtain rfl := List.mem_singleton.mp member
      exact below _ _ rfl

theorem reads_fixupAtom (ready : s.Ready) (notRom : s.isRomData = false)
    (run : Reads (fixupAtom bcBuf pos) s fixed t) :
    t = s ∧ (bytecodeHasAtom (byteAt bcBuf pos) = false ∧ fixed = bcBuf ∨
      bytecodeHasAtom (byteAt bcBuf pos) = true ∧ ∃ atom, s.ctx.atoms.Valid atom ∧
        fixed = putU32 bcBuf (pos + 1) atom) := by
  obtain ⟨s', u, got, later⟩ := reads_bind.mp run
  obtain ⟨rfl, rfl⟩ := reads_get.mp got
  split at later
  next hasAtom =>
    obtain ⟨atom, v, atomRun, last⟩ := reads_bind.mp later
    obtain ⟨rfl, rfl⟩ := reads_pure.mp last
    obtain ⟨same, -⟩ := reads_bcIdxToAtom atomRun
    exact ⟨same, Or.inr ⟨hasAtom.1, atom,
      bcIdxToAtom_valid ready (getU32_lt bcBuf (pos + 1)) atomRun, rfl⟩⟩
  next noAtom =>
    obtain ⟨rfl, rfl⟩ := reads_pure.mp later
    refine ⟨rfl, Or.inl ⟨?_, rfl⟩⟩
    simpa [notRom, getU8] using noAtom

end Instruction

section

variable {bcBuf : List UInt8} {pos : Nat} (ready : s.Ready) (notRom : s.isRomData = false)
  (counted : cpool.length = b.cpoolCount)

include ready notRom counted

/-- One round of the loop: the instruction at `pos` has been checked and only its own atom
operand has changed. -/
theorem instruction_checked {fixed : List UInt8} (shippable : ShippableAt bcBuf pos)
    (fits : pos + opSize (byteAt bcBuf pos) ≤ bcBuf.length)
    (below : ∀ idx limit, bytecodeIndex b bcBuf pos = some (idx, limit) → idx < limit)
    (run : Reads (fixupAtom bcBuf pos) s fixed t) :
    fixed.length = bcBuf.length ∧ (∀ i ≤ pos, byteAt fixed i = byteAt bcBuf i) ∧
      CheckedAt s.ctx.atoms b cpool fixed pos := by
  have inTable := kindOperand_inTable s.ctx.atoms counted below
  have members : ∀ operand ∈ indexOperands (byteAt bcBuf pos), operand.1 ≠ .vardef →
      bytecodeHasAtom (byteAt bcBuf pos) = true ∧ operand = (.atom, .u32At 1) ∨
        operand ∈ kindOperand (byteAt bcBuf pos) (bytecodeIndexKind (byteAt bcBuf pos)) := by
    intro operand member notEval
    rw [indexOperands_eq _ shippable.2, List.mem_append, List.mem_append] at member
    rcases member with (atomOperand | kindMember) | evalOperand
    · split at atomOperand
      next hasAtom => exact Or.inl ⟨hasAtom, List.mem_singleton.mp atomOperand⟩
      next => cases atomOperand
    · exact Or.inr kindMember
    · split at evalOperand
      · exact (notEval (List.mem_singleton.mp evalOperand ▸ rfl)).elim
      · cases evalOperand
  obtain ⟨-, ⟨noAtom, rfl⟩ | ⟨hasAtom, atom, valid, rfl⟩⟩ := reads_fixupAtom ready notRom run
  · refine ⟨rfl, fun _ _ => rfl, shippable, fun operand member notEval => ?_⟩
    rcases members operand member notEval with ⟨hasAtom, -⟩ | kindMember
    · rw [noAtom] at hasAtom
      cases hasAtom
    · exact inTable operand kindMember
  · obtain ⟨wide, second⟩ := atomOperand_fits _ shippable.2 hasAtom
    have before : ∀ i ≤ pos, byteAt (putU32 bcBuf (pos + 1) atom) i = byteAt bcBuf i :=
      fun i low => byteAt_putU32_outside (Or.inl (by omega)) atom
    have opcode := before pos (Nat.le_refl pos)
    refine ⟨putU32_length _ _ _, before, ?_, fun operand member notEval => ?_⟩
    · simpa [ShippableAt, opcode] using shippable
    rw [opcode] at member
    rcases members operand member notEval with ⟨-, rfl⟩ | kindMember
    · change s.ctx.atoms.Valid (getU32 (putU32 bcBuf (pos + 1) atom) (pos + 1))
      rw [getU32_putU32 (by omega) valid.lt]
      exact valid
    · have kindSome : bytecodeIndexKind (byteAt bcBuf pos) ≠ .none := by
        intro none
        rw [none] at kindMember
        cases kindMember
      -- a second operand starts at offset 5, after the atom
      have same : operand.2.read (putU32 bcBuf (pos + 1) atom) pos = operand.2.read bcBuf pos := by
        obtain ⟨-, kind | kind | kind⟩ := second kindSome <;>
        · rw [kind] at kindMember
          obtain rfl := List.mem_singleton.mp kindMember
          exact getU16_congr fun i low high => byteAt_putU32_outside (Or.inr (by omega)) atom
      rw [same]
      exact inTable operand kindMember

theorem checkBytecodeLoop_sound {fuel : Nat} {code : List UInt8} (inside : pos ≤ bcBuf.length)
    (enough : bcBuf.length ≤ pos + fuel)
    (run : Reads (checkBytecodeLoop b fuel pos bcBuf) s code t) :
    t = s ∧ code.length = bcBuf.length ∧ (∀ i < pos, byteAt code i = byteAt bcBuf i) ∧
      InstrsFrom (CheckedAt s.ctx.atoms b cpool) code pos := by
  induction fuel generalizing pos bcBuf with
  | zero =>
      obtain ⟨rfl, rfl⟩ := reads_pure.mp run
      obtain rfl : pos = code.length := by omega
      exact ⟨rfl, rfl, fun _ _ => rfl, .done⟩
  | succ fuel ih =>
      unfold checkBytecodeLoop at run
      split at run
      next more =>
        obtain ⟨_, s1, shippableRun, afterOpcode⟩ := reads_bind.mp run
        obtain ⟨shippable, rfl⟩ := reads_require.mp shippableRun
        obtain ⟨_, s2, lengthRun, afterLength⟩ := reads_bind.mp afterOpcode
        obtain ⟨⟨positive, short⟩, rfl⟩ := reads_require.mp lengthRun
        obtain ⟨_, s3, indexRun, afterIndex⟩ := reads_bind.mp afterLength
        obtain ⟨rfl, below⟩ := reads_checkBytecodeIndex indexRun
        obtain ⟨fixed, s4, fixupRun, later⟩ := reads_bind.mp afterIndex
        obtain ⟨rfl, -⟩ := reads_fixupAtom ready notRom fixupRun
        have fits : pos + opSize (byteAt bcBuf pos) ≤ bcBuf.length := by
          simp only [getU8] at short
          omega
        obtain ⟨sameLength, before, checked⟩ :=
          instruction_checked ready notRom counted shippable fits below fixupRun
        have opcode := before pos (Nat.le_refl pos)
        obtain ⟨rfl, codeLength, kept, instrs⟩ := ih (by rw [sameLength]; exact fits)
          (by rw [sameLength]; simp only [getU8] at positive ⊢; omega) later
        have codeOpcode : byteAt code pos = byteAt bcBuf pos := by
          rw [kept pos (by simp only [getU8] at positive ⊢; omega), opcode]
        refine ⟨rfl, codeLength.trans sameLength, fun i low => ?_, ?_⟩
        · rw [kept i (by omega), before i (by omega)]
        · have here : CheckedAt _ b cpool code pos := checked.congr fun i _ high =>
            kept i (by simp only [getU8]; rw [opcode] at high; exact high)
          exact .instr (by omega) here (by rw [codeOpcode]; omega)
            (by rw [codeOpcode]; exact instrs)
      next stop =>
        obtain ⟨rfl, rfl⟩ := reads_pure.mp run
        obtain rfl : pos = code.length := by omega
        exact ⟨rfl, rfl, fun _ _ => rfl, .done⟩

end

/-- What the reader has checked of a function: everything but the operands of `eval`. -/
structure FunctionChecked (atoms : AtomTable) (b : LEPUSFunctionBytecode)
    (cpool : List BCValue) : Prop where
  instrs : InstrsFrom (CheckedAt atoms b cpool) b.byteCodeBuf 0
  children : ∀ child childCpool, BCValue.functionBytecode child childCpool ∈ cpool →
    ∀ closure ∈ child.closureVar, ClosureVarInTable b closure

theorem FunctionChecked.mono {old new : AtomTable} (checked : FunctionChecked old b cpool)
    (kept : old.toAtomArray.Extends new.toAtomArray) : FunctionChecked new b cpool := by
  refine ⟨checked.instrs.mono fun pos here => ⟨here.1, fun operand member notEval => ?_⟩,
    checked.children⟩
  have inOld := here.2 operand member notEval
  obtain ⟨table, place⟩ := operand
  cases table with
  | atom => exact inOld.mono kept
  | _ => exact inOld

def AllChecked (atoms : AtomTable) (v : BCValue) : Prop :=
  ∀ b cpool, BCValue.Inside (.functionBytecode b cpool) v → FunctionChecked atoms b cpool

theorem AllChecked.mono {old new : AtomTable} {v : BCValue} (checked : AllChecked old v)
    (kept : old.toAtomArray.Extends new.toAtomArray) : AllChecked new v :=
  fun b cpool inside => (checked b cpool inside).mono kept

def ChecksFunctions (readRec : BCRead BCValue) : Prop :=
  ∀ s v t, s.Ready → s.isRomData = false → Reads readRec s v t → AllChecked t.ctx.atoms v

theorem checkClosureVars_sound {parent : LEPUSFunctionBytecode} {vars : List LEPUSClosureVar}
    {u : Unit} (run : Reads (checkClosureVars parent vars) s u t) :
    ∀ closure ∈ vars, ClosureVarInTable parent closure := by
  induction vars generalizing s u with
  | nil => intro closure member; cases member
  | cons first rest ih =>
      obtain ⟨_, s', firstRun, later⟩ := reads_bind.mp run
      obtain ⟨below, rfl⟩ := reads_require.mp firstRun
      intro closure member
      rcases List.mem_cons.mp member with rfl | inRest
      · unfold parentCount at below
        unfold ClosureVarInTable
        cases isLocal : closure.isLocal with
        | false => simpa [isLocal] using below
        | true =>
            cases isArg : closure.isArg with
            | false => simpa [isLocal, isArg] using below
            | true => simpa [isLocal, isArg] using below
      · exact ih later closure inRest

section Constants

variable {readRec : BCRead BCValue} {b : LEPUSFunctionBytecode} {cpool : List BCValue}
  {s t : BCReaderState}

theorem readConstant_sound {val : BCValue} (run : Reads (readConstant readRec b) s val t) :
    (∃ u, Reads readRec s val u ∧ u.Extends t) ∧
      ∀ child childCpool, val = .functionBytecode child childCpool →
        ∀ closure ∈ child.closureVar, ClosureVarInTable b closure := by
  obtain ⟨v, u, valRun, later⟩ := reads_bind.mp run
  obtain ⟨_, w, checkRun, last⟩ := reads_bind.mp later
  obtain ⟨rfl, rfl⟩ := reads_pure.mp last
  refine ⟨⟨u, valRun, framed_jsValidateChildClosureVars b val u _ t checkRun⟩, ?_⟩
  rintro child childCpool rfl
  exact checkClosureVars_sound checkRun

theorem readCpool_sound (framed : Framed readRec) (checks : ChecksFunctions readRec)
    (ready : s.Ready) (notRom : s.isRomData = false)
    (run : Reads (readCpool readRec b) s cpool t) :
    cpool.length = b.cpoolCount ∧ (∀ val ∈ cpool, AllChecked t.ctx.atoms val) ∧
      ∀ child childCpool, BCValue.functionBytecode child childCpool ∈ cpool →
        ∀ closure ∈ child.closureVar, ClosureVarInTable b closure := by
  have member : ∀ val ∈ cpool, ∃ u v, Reads (readConstant readRec b) u val v ∧
      s.Extends u ∧ v.Extends t :=
    fun val inPool => readN_mem (framed_readConstant framed b) run inPool
  refine ⟨readN_length run, fun val inPool => ?_, fun child childCpool inPool => ?_⟩
  · obtain ⟨u, v, valRun, before, after⟩ := member val inPool
    obtain ⟨⟨w, recRun, rest⟩, -⟩ := readConstant_sound valRun
    have checked := checks u val w (ready.mono before) (before.isRomData.trans notRom) recRun
    exact checked.mono (rest.trans after).atoms
  · obtain ⟨u, v, valRun, -, -⟩ := member _ inPool
    exact (readConstant_sound valRun).2 child childCpool rfl

end Constants

/-- What `JS_ReadFunction` has checked of the function it returns, constants included. -/
theorem jsReadFunction_sound (framed : Framed readRec) (checks : ChecksFunctions readRec) :
    ChecksFunctions (jsReadFunction readRec) := by
  intro s v t ready notRom run
  obtain ⟨s0, s1, got, afterGet⟩ := reads_bind.mp run
  obtain ⟨rfl, rfl⟩ := reads_get.mp got
  obtain ⟨_, s2, allowed, afterAllowed⟩ := reads_bind.mp afterGet
  obtain ⟨-, rfl⟩ := reads_require.mp allowed
  obtain ⟨h, s3, headerRun, afterHeader⟩ := reads_bind.mp afterAllowed
  obtain ⟨_, s4, sizeRun, afterSize⟩ := reads_bind.mp afterHeader
  obtain ⟨-, rfl⟩ := reads_require.mp sizeRun
  obtain ⟨vardefs, s5, varRun, afterVars⟩ := reads_bind.mp afterSize
  obtain ⟨closureVar, s6, closureRun, afterClosure⟩ := reads_bind.mp afterVars
  obtain ⟨code, s7, codeRun, afterCode⟩ := reads_bind.mp afterClosure
  obtain ⟨bcBuf, s8, bufRun, loopRun⟩ := reads_bind.mp codeRun
  have toVars := framed_readFunctionHeader _ _ _ headerRun
  have toClosure := toVars.trans (framed_readVarDef.readN _ _ _ _ varRun)
  have toCode := toClosure.trans (framed_readClosureVar.readN _ _ _ _ closureRun)
  have toLoop := toCode.trans (framed_bcTake _ _ _ _ bufRun)
  have bufLength : bcBuf.length ≤ 0 + h.byteCodeLen := by
    obtain ⟨-, rfl, -⟩ := reads_bcTake.mp bufRun
    rw [List.length_take]
    omega
  -- the counts the loop checked against are those of the finished function
  have loop : ∀ cpool : List BCValue, cpool.length = h.fields.cpoolCount →
      s7 = s8 ∧ InstrsFrom (CheckedAt s8.ctx.atoms { h.fields with vardefs, closureVar } cpool)
        code 0 := by
    intro cpool counted
    obtain ⟨same, -, -, instrs⟩ := checkBytecodeLoop_sound
      (b := { h.fields with vardefs, closureVar }) (ready.mono toLoop)
      (toLoop.isRomData.trans notRom) counted (Nat.zero_le _) bufLength loopRun
    exact ⟨same, instrs⟩
  have toTail := toLoop.trans (framed_checkBytecodeLoop _ _ _ _ _ _ _ loopRun)
  have finish : ∀ (b : LEPUSFunctionBytecode) (u : BCReaderState) (functionId : Nat)
      (debug : Option JSDebugInfo), s7.Extends u →
      b = { h.fields with vardefs, closureVar, byteCodeBuf := code, functionId, debug } →
      Reads (readCpool readRec b >>= fun cpool => pure (BCValue.functionBytecode b cpool)) u v t →
      AllChecked t.ctx.atoms v := by
    intro b u functionId debug before built tailRun
    obtain ⟨cpool, w, cpoolRun, last⟩ := reads_bind.mp tailRun
    obtain ⟨rfl, rfl⟩ := reads_pure.mp last
    have toPool := toTail.trans before
    obtain ⟨counted, constants, children⟩ := readCpool_sound framed checks
      (ready.mono toPool) (toPool.isRomData.trans notRom) cpoolRun
    have countedFields : cpool.length = h.fields.cpoolCount := by rw [counted, built]
    obtain ⟨rfl, instrs⟩ := loop cpool countedFields
    have kept := (before.trans (framed_readCpool framed b _ _ _ cpoolRun)).atoms
    intro inner innerPool inside
    cases inside with
    | self =>
        subst built
        exact FunctionChecked.mono (b := { h.fields with
          vardefs, closureVar, byteCodeBuf := code, functionId, debug }) ⟨instrs, children⟩ kept
    | constant member inside => exact constants _ member inner innerPool inside
  split at afterCode
  · obtain ⟨b, u, debugRun, tailRun⟩ := reads_bind.mp afterCode
    have before := framed_readDebug _ _ _ _ debugRun
    simp only [readDebug, reads_bind, reads_pure] at debugRun
    obtain ⟨_, _, -, _, _, -, ⟨_, functionId⟩, _, -, _, _, -, _, _, -, _, _, -, built, -⟩ := debugRun
    exact finish b u _ _ before built tailRun
  · obtain ⟨b, u, sameRun, tailRun⟩ := reads_bind.mp afterCode
    obtain ⟨rfl, rfl⟩ := reads_pure.mp sameRun
    exact finish _ u h.fields.functionId h.fields.debug .rfl rfl tailRun

theorem AllChecked.of_not_function {atoms : AtomTable} {v : BCValue}
    (outside : ∀ b cpool, ¬ BCValue.Inside (.functionBytecode b cpool) v) :
    AllChecked atoms v :=
  fun b cpool inside => (outside b cpool inside).elim

theorem jsReadArray_sound (framed : Framed readRec) (checks : ChecksFunctions readRec)
    (isTemplate : Bool) : ChecksFunctions (jsReadArray readRec isTemplate) := by
  intro s v t ready notRom run
  obtain ⟨len, s1, lenRun, afterLen⟩ := reads_bind.mp run
  obtain ⟨elems, s2, elemsRun, later⟩ := reads_bind.mp afterLen
  have toElems := framed_bcGetLeb128 _ _ _ lenRun
  have elemsChecked : ∀ elem ∈ elems, AllChecked s2.ctx.atoms elem := by
    intro elem member
    obtain ⟨u, w, elemRun, before, after⟩ := readN_mem framed elemsRun member
    have toElem := toElems.trans before
    exact (checks u elem w (ready.mono toElem) (toElem.isRomData.trans notRom) elemRun).mono
      after.atoms
  cases isTemplate with
  | false =>
      obtain ⟨rfl, rfl⟩ := reads_pure.mp later
      intro b cpool inside
      cases inside with
      | elem member inside => exact elemsChecked _ member b cpool inside
  | true =>
      obtain ⟨raw, s3, rawRun, last⟩ := reads_bind.mp later
      obtain ⟨rfl, rfl⟩ := reads_pure.mp last
      have toRaw := toElems.trans (framed.readN len _ _ _ elemsRun)
      have kept := (framed _ _ _ rawRun).atoms
      intro b cpool inside
      cases inside with
      | templateElem member inside => exact (elemsChecked _ member b cpool inside).mono kept
      | templateRaw inside =>
          exact checks s2 raw _ (ready.mono toRaw) (toRaw.isRomData.trans notRom) rawRun b cpool
            inside

theorem mem_definePropertyValue {props : List (Nat × BCValue)} {atom a : Nat} {val w : BCValue}
    (member : (a, w) ∈ definePropertyValue props atom val) : w = val ∨ (a, w) ∈ props := by
  induction props with
  | nil =>
      obtain ⟨-, rfl⟩ := Prod.mk.inj (List.mem_singleton.mp member)
      exact Or.inl rfl
  | cons prop rest ih =>
      obtain ⟨b, v⟩ := prop
      unfold definePropertyValue at member
      split at member
      · rcases List.mem_cons.mp member with same | inRest
        · exact Or.inl (Prod.mk.inj same).2
        · exact Or.inr (List.mem_cons_of_mem _ inRest)
      · rcases List.mem_cons.mp member with same | inRest
        · exact Or.inr (same ▸ List.mem_cons_self)
        · exact (ih inRest).imp_right (List.mem_cons_of_mem _)

theorem readProps_sound (framed : Framed readRec) (checks : ChecksFunctions readRec) {n : Nat}
    {props values : List (Nat × BCValue)} (ready : s.Ready) (notRom : s.isRomData = false)
    (soFar : ∀ a w, (a, w) ∈ props → AllChecked s.ctx.atoms w)
    (run : Reads (readProps readRec n props) s values t) :
    ∀ a w, (a, w) ∈ values → AllChecked t.ctx.atoms w := by
  induction n generalizing props s with
  | zero =>
      obtain ⟨rfl, rfl⟩ := reads_pure.mp run
      exact soFar
  | succ n ih =>
      obtain ⟨atom, s1, atomRun, afterAtom⟩ := reads_bind.mp run
      obtain ⟨val, s2, valRun, later⟩ := reads_bind.mp afterAtom
      have toVal := framed_bcGetAtom _ _ _ atomRun
      have toRest := toVal.trans (framed _ _ _ valRun)
      refine ih (ready.mono toRest) (toRest.isRomData.trans notRom) (fun a w member => ?_) later
      rcases mem_definePropertyValue member with rfl | old
      · exact checks s1 w s2 (ready.mono toVal) (toVal.isRomData.trans notRom) valRun
      · exact (soFar a w old).mono toRest.atoms

theorem jsReadObjectTag_sound (framed : Framed readRec) (checks : ChecksFunctions readRec) :
    ChecksFunctions (jsReadObjectTag readRec) := by
  intro s v t ready notRom run
  obtain ⟨propCount, s1, countRun, later⟩ := reads_bind.mp run
  obtain ⟨props, s2, propsRun, last⟩ := reads_bind.mp later
  obtain ⟨rfl, rfl⟩ := reads_pure.mp last
  have toProps := framed_bcGetLeb128 _ _ _ countRun
  have checked := readProps_sound framed checks (ready.mono toProps)
    (toProps.isRomData.trans notRom) (fun a w member => by cases member) propsRun
  intro b cpool inside
  cases inside with
  | prop member inside => exact checked _ _ member b cpool inside

theorem jsReadModule_sound (checks : ChecksFunctions readRec) :
    ChecksFunctions (jsReadModule readRec) := by
  intro s v t ready notRom run
  obtain ⟨s0, s1, got, afterGet⟩ := reads_bind.mp run
  obtain ⟨rfl, rfl⟩ := reads_get.mp got
  obtain ⟨_, s2, allowed, afterAllowed⟩ := reads_bind.mp afterGet
  obtain ⟨-, rfl⟩ := reads_require.mp allowed
  obtain ⟨name, s3, nameRun, afterName⟩ := reads_bind.mp afterAllowed
  obtain ⟨requests, s4, requestRun, afterRequests⟩ := reads_bind.mp afterName
  obtain ⟨exports, s5, exportRun, afterExports⟩ := reads_bind.mp afterRequests
  obtain ⟨stars, s6, starRun, afterStars⟩ := reads_bind.mp afterExports
  obtain ⟨imports, s7, importRun, afterImports⟩ := reads_bind.mp afterStars
  obtain ⟨funcObj, s8, funcRun, last⟩ := reads_bind.mp afterImports
  obtain ⟨rfl, rfl⟩ := reads_pure.mp last
  have toFunc := (framed_bcGetAtom _ _ _ nameRun).trans <|
    (framed_readTable framed_bcGetAtom _ _ _ requestRun).trans <|
    (framed_readTable framed_readExportEntry _ _ _ exportRun).trans <|
    (framed_readTable framed_bcGetLeb128Int _ _ _ starRun).trans
      (framed_readTable framed_readImportEntry _ _ _ importRun)
  intro b cpool inside
  cases inside with
  | moduleFunc inside =>
      exact checks s7 funcObj _ (ready.mono toFunc) (toFunc.isRomData.trans notRom) funcRun b
        cpool inside

theorem checksFunctions_map {α : Type} {read : BCRead α} {f : α → BCValue}
    (outside : ∀ a b cpool, ¬ BCValue.Inside (.functionBytecode b cpool) (f a)) :
    ChecksFunctions (f <$> read) := by
  intro s v t _ _ run
  obtain ⟨a, -, rfl⟩ := reads_map.mp run
  exact .of_not_function (outside a)

theorem jsReadBigInt_sound : ChecksFunctions jsReadBigInt := by
  intro s v t _ _ run
  have isBigInt : ∃ tab, v = .bigInt tab := by
    simp only [jsReadBigInt, reads_bind, reads_get] at run
    obtain ⟨_, _, -, _, _, -, _, _, -, limbs, _, -, later⟩ := run
    split at later
    · obtain ⟨last, _, -, final⟩ := reads_bind.mp later
      exact ⟨_, (reads_pure.mp final).1⟩
    · exact ⟨_, (reads_pure.mp later).1⟩
  obtain ⟨tab, rfl⟩ := isBigInt
  exact .of_not_function fun b cpool inside => by cases inside

theorem jsReadObjectRec_sound (fuel : Nat) : ChecksFunctions (jsReadObjectRec fuel) := by
  induction fuel with
  | zero => exact fun s v t _ _ run => (reads_throw run).elim
  | succ fuel ih =>
      have framed := framed_jsReadObjectRec fuel
      intro s v t ready notRom run
      obtain ⟨tag, s1, tagRun, afterTag⟩ := reads_bind.mp run
      obtain ⟨s0, s2, got, later⟩ := reads_bind.mp afterTag
      obtain ⟨rfl, rfl⟩ := reads_get.mp got
      have toBody := framed_bcGetU8 _ _ _ tagRun
      have bodyReady := ready.mono toBody
      have bodyNotRom := toBody.isRomData.trans notRom
      split at later
      · obtain ⟨rfl, rfl⟩ := reads_pure.mp later
        exact .of_not_function fun b cpool inside => by cases inside
      · obtain ⟨rfl, rfl⟩ := reads_pure.mp later
        exact .of_not_function fun b cpool inside => by cases inside
      · obtain ⟨rfl, rfl⟩ := reads_pure.mp later
        exact .of_not_function fun b cpool inside => by cases inside
      · obtain ⟨rfl, rfl⟩ := reads_pure.mp later
        exact .of_not_function fun b cpool inside => by cases inside
      · exact checksFunctions_map (fun a b cpool inside => by cases inside) _ _ _ bodyReady
          bodyNotRom later
      · exact checksFunctions_map (fun a b cpool inside => by cases inside) _ _ _ bodyReady
          bodyNotRom later
      · exact checksFunctions_map (fun a b cpool inside => by cases inside) _ _ _ bodyReady
          bodyNotRom later
      · exact jsReadFunction_sound framed ih _ _ _ bodyReady bodyNotRom later
      · exact jsReadModule_sound ih _ _ _ bodyReady bodyNotRom later
      · exact jsReadObjectTag_sound framed ih _ _ _ bodyReady bodyNotRom later
      · exact jsReadArray_sound framed ih false _ _ _ bodyReady bodyNotRom later
      · exact jsReadArray_sound framed ih true _ _ _ bodyReady bodyNotRom later
      · exact jsReadBigInt_sound _ _ _ bodyReady bodyNotRom later
      · exact (reads_throw later).elim
      · exact (reads_throw later).elim

theorem FunctionChecked.inBounds_iff {atoms : AtomTable} (checked : FunctionChecked atoms b cpool) :
    FunctionInBounds atoms b cpool ↔ EvalScopesInRange b := by
  constructor
  · intro inBounds pos boundary inside isEval
    refine inBounds.operands pos boundary inside (.vardef, .u16At 1) ?_
    rw [isEval]
    decide
  · intro evalInRange
    refine ⟨checked.instrs.mono fun pos here => here.1, fun pos boundary inside => ?_,
      checked.children⟩
    obtain ⟨shippable, operands⟩ := (checked.instrs.boundary boundary).here inside
    intro operand member
    by_cases isVardef : operand.1 = .vardef
    · rw [indexOperands_eq _ shippable.2, List.mem_append, List.mem_append] at member
      rcases member with (atomOperand | kindMember) | evalOperand
      · split at atomOperand
        · rw [List.mem_singleton.mp atomOperand] at isVardef
          cases isVardef
        · cases atomOperand
      · exact (kindOperand_ne_vardef _ _ operand kindMember isVardef).elim
      · split at evalOperand
        next isEval =>
          rw [List.mem_singleton.mp evalOperand]
          exact evalInRange pos boundary inside isEval
        next => cases evalOperand
    · exact operands operand member isVardef

theorem framed_readVersion {u : Unit} (run : Reads readVersion s u t) :
    t.isRomData = s.isRomData ∧ t.firstAtom = s.firstAtom := by
  obtain ⟨v8, s1, v8Run, later⟩ := reads_bind.mp run
  have toVersion := framed_bcGetU8 _ _ _ v8Run
  split at later
  · split at later
    · obtain ⟨v64, s2, v64Run, afterV64⟩ := reads_bind.mp later
      obtain ⟨_, s3, checkRun, last⟩ := reads_bind.mp afterV64
      obtain ⟨-, rfl⟩ := reads_require.mp checkRun
      obtain rfl := reads_modify.mp last
      have toFlags := toVersion.trans (framed_bcGetU64 _ _ _ v64Run)
      exact ⟨toFlags.isRomData, toFlags.firstAtom⟩
    · exact (reads_throw later).elim
  · obtain ⟨-, rfl⟩ := reads_pure.mp later
    exact ⟨toVersion.isRomData, toVersion.firstAtom⟩

theorem framed_jsReadAtomString : Framed jsReadAtomString :=
  framed_bcGetLeb128.bind fun _ => (framed_bcTake _).bind fun _ =>
    (Keeps.require _ _).bind fun _ => framed_bcNewAtom _

theorem jsReadAtomString_valid {atom : Nat} (run : Reads jsReadAtomString s atom t) :
    t.ctx.atoms.Valid atom := by
  obtain ⟨_, _, -, afterLen⟩ := reads_bind.mp run
  obtain ⟨_, _, -, afterBytes⟩ := reads_bind.mp afterLen
  obtain ⟨_, _, -, last⟩ := reads_bind.mp afterBytes
  exact bcNewAtom_valid last

theorem jsReadObjectAtoms_ready {ctx : LEPUSContext} {buf : List UInt8} {flags : ReadFlags}
    {u : Unit} (notRom : flags.romData = false)
    (run : Reads jsReadObjectAtoms (initReader ctx buf flags) u t) :
    t.Ready ∧ t.isRomData = false := by
  obtain ⟨_, s1, versionRun, afterVersion⟩ := reads_bind.mp run
  obtain ⟨count, s2, countRun, afterCount⟩ := reads_bind.mp afterVersion
  obtain ⟨idxToAtom, s3, atomsRun, last⟩ := reads_bind.mp afterCount
  obtain rfl := reads_modify.mp last
  obtain ⟨rom, first⟩ := framed_readVersion versionRun
  have toAtoms := (framed_bcGetLeb128 _ _ _ countRun).trans
    (framed_jsReadAtomString.readN _ _ _ _ atomsRun)
  refine ⟨⟨?_, fun atom member => ?_⟩, ?_⟩
  · change s3.firstAtom ≤ jsAtomEnd
    rw [toAtoms.firstAtom, first]
    cases bytecode : flags.bytecode <;> simp [initReader, firstAtomOf, bytecode, jsAtomEnd]
  · obtain ⟨v, w, atomRun, -, after⟩ := readN_mem framed_jsReadAtomString atomsRun member
    exact (jsReadAtomString_valid atomRun).mono after.atoms
  · change (s3.isRomData && _) = false
    rw [toAtoms.isRomData, rom]
    simp [initReader, notRom]

/-- Every function in an accepted value decodes into whole instructions whose operands are all
in their tables, provided its `eval` instructions name variables of `vardefs`. -/
theorem readObject_inBounds_iff (ctx : LEPUSContext) (buf : List UInt8) (flags : ReadFlags)
    (v : BCValue) (t : BCReaderState) (notRom : flags.romData = false)
    (accepted : Reads lepusReadObject (initReader ctx buf flags) v t)
    (b : LEPUSFunctionBytecode) (cpool : List BCValue)
    (inside : BCValue.Inside (.functionBytecode b cpool) v) :
    FunctionInBounds t.ctx.atoms b cpool ↔ EvalScopesInRange b := by
  obtain ⟨_, s1, atomsRun, afterAtoms⟩ := reads_bind.mp accepted
  obtain ⟨s0, s2, got, bodyRun⟩ := reads_bind.mp afterAtoms
  obtain ⟨rfl, rfl⟩ := reads_get.mp got
  obtain ⟨ready, stillNotRom⟩ := jsReadObjectAtoms_ready notRom atomsRun
  have checked := jsReadObjectRec_sound _ _ _ _ ready stillNotRom bodyRun b cpool inside
  exact checked.inBounds_iff

def freshContext : LEPUSContext where
  layout := {
    sizeofFunctionBytecode := 200
    offsetofDebug := 136
    sizeofValue := 8
    sizeofVarDef := 12
    sizeofClosureVar := 8
    limbBytes := 8 }
  atoms := .initial
  debuginfoOutside := 0
  binaryVersion := 0
  varinfoOutside := false

/-- A file with one function of one local variable, whose code is
`undefined; eval scope; drop; return_undef`. -/
def evalFile (scope : Nat) : List UInt8 :=
  [1, 0, 13, 0, 0, 0, 0, 0, 1, 0, 1, 0, 0, 6, 1, 0, 0, 0, 0] ++
    [6, UInt8.ofNat opEval] ++ u16Bytes scope ++ [UInt8.ofNat opDrop, UInt8.ofNat opReturnUndef]

def evalFunction (scope : Nat) : LEPUSFunctionBytecode where
  jsMode := 0
  hasPrototype := false
  hasSimpleParameterList := false
  isDerivedClassConstructor := false
  needHomeObject := false
  funcKind := 0
  newTargetAllowed := false
  superCallAllowed := false
  superAllowed := false
  argumentsAllowed := false
  readOnlyBytecode := false
  hasEvalCall := false
  byteCodeBuf := [6, UInt8.ofNat opEval] ++ u16Bytes scope ++
    [UInt8.ofNat opDrop, UInt8.ofNat opReturnUndef]
  funcName := 0
  vardefs := [⟨0, -1, 0, false, false, false, 0⟩]
  closureVar := []
  argCount := 0
  varCount := 1
  definedArgCount := 0
  stackSize := 1
  cpoolCount := 0
  functionId := 0
  runtimeId := 0
  debug := none

def acceptedFunction (ctx : LEPUSContext) (buf : List UInt8) :
    Option (LEPUSFunctionBytecode × Nat) :=
  match lepusReadObject (initReader ctx buf ⟨true, false⟩) with
  | .ok (.functionBytecode b cpool) _ => some (b, cpool.length)
  | _ => none

theorem acceptedFunction_some (ctx : LEPUSContext) (buf : List UInt8)
    (b : LEPUSFunctionBytecode) (n : Nat) (accepted : acceptedFunction ctx buf = some (b, n)) :
    ∃ cpool t, Reads lepusReadObject (initReader ctx buf ⟨true, false⟩)
      (.functionBytecode b cpool) t := by
  unfold acceptedFunction at accepted
  split at accepted
  next b' cpool t run =>
    obtain ⟨rfl, -⟩ : b' = b ∧ cpool.length = n := by simpa using accepted
    exact ⟨cpool, t, run⟩
  next => cases accepted

theorem readObject_inBounds_iff_evalFile :
    ∃ cpool t, Reads lepusReadObject (initReader freshContext (evalFile 1) ⟨true, false⟩)
        (.functionBytecode (evalFunction 1) cpool) t ∧
      (FunctionInBounds t.ctx.atoms (evalFunction 1) cpool ↔
        EvalScopesInRange (evalFunction 1)) := by
  obtain ⟨cpool, t, run⟩ := acceptedFunction_some freshContext (evalFile 1) (evalFunction 1) 0
    (by decide +kernel)
  exact ⟨cpool, t, run, readObject_inBounds_iff _ _ _ _ _ rfl run _ _ .self⟩

/-- The reader accepts an `eval` whose variable index is far outside `vardefs`. -/
theorem readObject_accepts_evalScope :
    ¬ ∀ (ctx : LEPUSContext) (buf : List UInt8) (flags : ReadFlags) (v : BCValue)
      (t : BCReaderState), flags.romData = false →
      Reads lepusReadObject (initReader ctx buf flags) v t →
      ∀ b cpool, BCValue.Inside (.functionBytecode b cpool) v →
        FunctionInBounds t.ctx.atoms b cpool := by
  intro sound
  obtain ⟨cpool, t, run⟩ := acceptedFunction_some freshContext (evalFile 65535)
    (evalFunction 65535) 0 (by decide +kernel)
  have inBounds := sound _ _ _ _ _ rfl run _ _ .self
  have boundary : Boundary (evalFunction 65535).byteCodeBuf 1 := .next .start (by decide)
  have inTable := inBounds.operands 1 boundary (by decide) (.vardef, .u16At 1) (by decide)
  have outside : ¬ (getU16 (evalFunction 65535).byteCodeBuf 2 = 0 ∨
      (evalFunction 65535).vardefs = [] ∨ (evalFunction 65535).argCount +
        (getU16 (evalFunction 65535).byteCodeBuf 2 - 1) < (evalFunction 65535).vardefs.length) := by
    decide
  exact outside inTable

end PrimJs
