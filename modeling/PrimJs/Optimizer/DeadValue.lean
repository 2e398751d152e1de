import PrimJs.Optimizer.Window

/-! `opt_dead_value_elim`: the patterns around a label on a `drop`. -/

namespace PrimJs.BcOut

def isIfOp (op : Nat) : Bool :=
  op == opIfFalse8 || op == opIfTrue8 || op == opIfFalse || op == opIfTrue

def isGotoOp (op : Nat) : Bool := op == opGoto8 || op == opGoto16 || op == opGoto

def isTerminator (op : Nat) : Bool :=
  isGotoOp op || op == opReturn || op == opReturnUndef || op == opThrow

def isDeadValueOp (op : Nat) : Bool :=
  op == opUndefined || op == opNull || op == opPushFalse || op == opPushTrue ||
    (opPushMinus1 ≤ op && op ≤ opPush7) || op == opPushI8 || op == opPushI16 || op == opPushI32 ||
    op == opPushAtomValue || op == opPushConst || op == opPushConst8 || op == opPushEmptyString ||
    (opGetLoc0 ≤ op && op ≤ opGetLoc3) || op == opGetLoc8 ||
    (opGetArg0 ≤ op && op ≤ opGetArg3) || (opGetVarRef0 ≤ op && op ≤ opGetVarRef3) ||
    op == opGetLoc || op == opGetArg || op == opGetVarRef || op == opDup

def startList (buf : List UInt8) : Nat → Nat → List Nat
  | 0, _ => []
  | fuel + 1, p =>
      if p < buf.length then
        p :: (if opSize (byteAt buf p) = 0 then []
          else startList buf fuel (p + opSize (byteAt buf p)))
      else []

/-- The bitmap `is_istart`. -/
def instrStarts (P : BcOut) (pos : Nat) : Bool := (startList P.buf P.size 0).contains pos

/-- The nearest instruction before `pos` that is no `nop` without a label. -/
def prevReal (P : BcOut) (isStart isLabel : Nat → Bool) : Nat → Option Nat
  | 0 => none
  | k + 1 =>
      if isStart k = false then P.prevReal isStart isLabel k
      else if P.opAt k = opNop ∧ isLabel k = false then P.prevReal isStart isLabel k
      else some k

def allNops (P : BcOut) (isLabel : Nat → Bool) (start stop : Nat) : Bool :=
  (List.range' start (stop - start)).all fun m => P.opAt m == opNop && !isLabel m

/-- Pattern A: `dup if_x(L) drop`. -/
def matchIf (P : BcOut) (isStart isLabel : Nat → Bool) (j : JumpSlot) : Bool :=
  let ifPos := j.pos - 1
  if ifPos < 1 then false
  else match P.prevReal isStart isLabel ifPos.toNat with
    | none => false
    | some k =>
        let dropPos := P.skipNops isLabel (j.pos + j.size).toNat
        P.opAt k == opDup && decide (dropPos < P.size) && P.opAt dropPos == opDrop &&
          !isLabel dropPos

/-- Pattern B: a value, `goto(L)`. -/
def matchGoto (P : BcOut) (isStart isLabel : Nat → Bool) (j : JumpSlot) : Bool :=
  let gotoPos := j.pos - 1
  if gotoPos < 1 then false
  else match P.prevReal isStart isLabel gotoPos.toNat with
    | none => false
    | some k =>
        let opSz := opSize (P.opAt k)
        decide (0 < opSz) && P.allNops isLabel (k + opSz) gotoPos.toNat &&
          decide (k + opSz ≤ gotoPos.toNat) && !isLabel k && isDeadValueOp (P.opAt k)

def matchSlot (P : BcOut) (isStart isLabel : Nat → Bool) (j : JumpSlot) : Bool :=
  if isIfOp j.op then P.matchIf isStart isLabel j
  else if isGotoOp j.op then P.matchGoto isStart isLabel j
  else false

def slotsOf (P : BcOut) (label : Nat) : List JumpSlot :=
  P.jumpSlots.filter fun j => j.label == label && j.size != 0

/-- No execution runs from the instruction before `pos` into it. -/
def noFallThrough (P : BcOut) (isStart isLabel : Nat → Bool) (pos : Nat) : Bool :=
  match P.prevReal isStart isLabel pos with
  | none => true
  | some before =>
      let endBefore := before + opSize (P.opAt before)
      P.allNops isLabel endBefore pos && (decide (pos < endBefore) || isTerminator (P.opAt before))

def matchLabel (P : BcOut) (isStart isLabel : Nat → Bool) (label : Nat) : Bool :=
  let addr := P.labelAddr label
  decide (0 ≤ addr) && decide (addr < P.size) && P.opAt addr.toNat == opDrop &&
    decide (0 < P.refCount label) && (P.slotsOf label).all (P.matchSlot isStart isLabel) &&
    decide ((P.slotsOf label).length ≠ 0) &&
    decide (((P.slotsOf label).length : Int) = P.refCount label) &&
    P.noFallThrough isStart isLabel addr.toNat

def applySlot (isStart isLabel : Nat → Bool) (P : BcOut) (j : JumpSlot) : BcOut :=
  if isIfOp j.op then
    let P := match P.prevReal isStart isLabel (j.pos - 1).toNat with
      | some k => P.write k opNop
      | none => P
    let dropPos := P.skipNops isLabel (j.pos + j.size).toNat
    if dropPos < P.size then P.write dropPos opNop else P
  else match P.prevReal isStart isLabel (j.pos - 1).toNat with
    | some k => P.nopFullInstruction k
    | none => P

def elimLabel (isStart isLabel : Nat → Bool) (P : BcOut) (label : Nat) : BcOut :=
  if P.matchLabel isStart isLabel label then
    let Q := (P.slotsOf label).foldl (applySlot isStart isLabel) P
    Q.setLabel label { Q.labelSlot label with addr := P.labelAddr label + 1 }
  else P

def deadValueElim (P : BcOut) : BcOut :=
  if P.size = 0 then P
  else (List.range P.labelSlots.length).foldl (elimLabel P.instrStarts P.liveLabelTargets) P

/-! What the searches find. -/

variable {P : BcOut} {isStart isLabel : Nat → Bool} {pos k q : Nat}

/-- `k` is the nearest instruction before `pos` that the backward search does not skip. -/
structure PrevReal (P : BcOut) (isStart isLabel : Nat → Bool) (pos k : Nat) : Prop where
  before : k < pos
  start : isStart k = true
  real : ¬ (P.opAt k = opNop ∧ isLabel k = false)
  between : ∀ q, k < q → q < pos → isStart q = true → P.opAt q = opNop ∧ isLabel q = false

theorem PrevReal.further (found : PrevReal P isStart isLabel pos k)
    (skipped : isStart pos = true → P.opAt pos = opNop ∧ isLabel pos = false) :
    PrevReal P isStart isLabel (pos + 1) k where
  before := Nat.lt_succ_of_lt found.before
  start := found.start
  real := found.real
  between q low high start := by
    by_cases last : q = pos
    · subst last
      exact skipped start
    · exact found.between q low (by omega) start

theorem prevReal_some (found : P.prevReal isStart isLabel pos = some k) :
    PrevReal P isStart isLabel pos k := by
  induction pos with
  | zero => cases found
  | succ pos ih =>
      rw [prevReal] at found
      split at found
      · rename_i noStart
        exact (ih found).further fun start => by rw [noStart] at start; cases start
      · split at found
        · rename_i skipped
          exact (ih found).further fun _ => skipped
        · rename_i start real
          cases found
          exact ⟨by omega, by simpa using start, real, fun q low high => by omega⟩

theorem PrevReal.eq_some (found : PrevReal P isStart isLabel pos k) :
    P.prevReal isStart isLabel pos = some k := by
  have ⟨before, start, real, between⟩ := found
  clear found
  induction pos with
  | zero => omega
  | succ pos ih =>
      rw [prevReal]
      by_cases last : k = pos
      · subst last
        rw [if_neg (by rw [start]; decide), if_neg real]
      · have further := ih (by omega) fun q low high => between q low (by omega)
        split
        · exact further
        · rename_i startLast
          rw [if_pos (between pos (by omega) (by omega) (by simpa using startLast))]
          exact further

theorem prevReal_none (found : P.prevReal isStart isLabel pos = none) (below : q < pos)
    (start : isStart q = true) : P.opAt q = opNop ∧ isLabel q = false := by
  induction pos with
  | zero => omega
  | succ pos ih =>
      rw [prevReal] at found
      split at found
      · rename_i noStart
        by_cases last : q = pos
        · rw [last, noStart] at start
          cases start
        · exact ih found (by omega)
      · split at found
        · rename_i skipped
          by_cases last : q = pos
          · rw [last]
            exact skipped
          · exact ih found (by omega)
        · cases found

theorem allNops_iff {start stop : Nat} : P.allNops isLabel start stop = true ↔
    ∀ m, start ≤ m → m < stop → P.opAt m = opNop ∧ isLabel m = false := by
  simp only [allNops, List.all_eq_true, List.mem_range'_1, Bool.and_eq_true, beq_iff_eq,
    Bool.not_eq_true']
  constructor
  · intro all m low high
    exact all m ⟨low, by omega⟩
  · intro all m ⟨low, high⟩
    exact all m low (by omega)

theorem skipNops_eq {start d : Nat} (order : start ≤ d) (inside : d < P.size)
    (skipped : ∀ q, start ≤ q → q < d → P.opAt q = opNop ∧ isLabel q = false)
    (real : ¬ (P.opAt d = opNop ∧ isLabel d = false)) : P.skipNops isLabel start = d := by
  have reach : ∀ fuel start, start ≤ d → d - start < fuel →
      (∀ q, start ≤ q → q < d → P.opAt q = opNop ∧ isLabel q = false) →
        skipNops.go P isLabel fuel start = d := by
    intro fuel
    induction fuel with
    | zero => omega
    | succ fuel ih =>
        intro start order room skipped
        rw [skipNops.go]
        by_cases here : start = d
        · rw [here, if_neg real]
        · rw [if_pos (skipped start (Nat.le_refl _) (by omega))]
          exact ih (start + 1) (by omega) (by omega) fun q low high => skipped q (by omega) high
  exact reach _ start order (by omega) skipped

theorem mem_startList {buf : List UInt8} {fuel a : Nat} (room : buf.length ≤ a + fuel)
    (whole : Decodes buf a buf.length) : q ∈ startList buf fuel a ↔ Decodes buf a q ∧ q < buf.length := by
  induction fuel generalizing a with
  | zero =>
      have stop : a = buf.length := Nat.le_antisymm whole.le (by omega)
      constructor
      · intro member
        cases member
      · intro ⟨run, inside⟩
        have order := run.le
        omega
  | succ fuel ih =>
      rw [startList]
      split
      · rename_i inside
        have known := whole.known inside
        have positive := opSize_pos _ known
        rw [if_neg (by omega), List.mem_cons, ih (by omega) (whole.next inside)]
        constructor
        · intro member
          rcases member with same | ⟨run, below⟩
          · subst same
            exact ⟨.done q, inside⟩
          · exact ⟨.instr known run, below⟩
        · intro ⟨run, below⟩
          cases run with
          | done => exact .inl rfl
          | instr _ later => exact .inr ⟨later, below⟩
      · rename_i outside
        constructor
        · intro member
          cases member
        · intro ⟨run, inside⟩
          have order := run.le
          omega

theorem Accurate.instrStarts_iff (accurate : P.Accurate) :
    P.instrStarts q = true ↔ P.Start q ∧ q < P.size := by
  rw [instrStarts, List.contains_iff_mem]
  exact mem_startList (by unfold size; omega) accurate.decodes

end PrimJs.BcOut
