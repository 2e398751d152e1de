import PrimJs.Optimizer.DeadValue

/-! The windows that `opt_dead_value_elim` rewrites: what a match finds, what the pass erases, and
that its later matches are matches in the code it started from. -/

namespace PrimJs.BcOut

/-- The `drop` behind the conditional jump at `x`. -/
structure DropBehind (P : BcOut) (isLabel : Nat → Bool) (j : JumpSlot) (a x e : Nat) : Prop where
  isIf : isIfOp j.op = true
  dup : P.opAt a = opDup
  room : x + opSize j.op < e
  inside : e ≤ P.size
  drop : P.opAt (e - 1) = opDrop
  free : isLabel (e - 1) = false
  gap : ∀ q, x + opSize j.op ≤ q → q + 1 < e → P.opAt q = opNop ∧ isLabel q = false

/-- A matched jump at `x` with the instruction at `a` that makes the dead value; the window ends
at `e`. -/
structure DeadWindow (P : BcOut) (isStart isLabel : Nat → Bool) (j : JumpSlot) (a x e : Nat) :
    Prop where
  slot : P.SlotAccurate j x
  start : P.Start a
  value : isDeadValueOp (P.opAt a) = true
  room : a + opSize (P.opAt a) ≤ x
  gap : ∀ q, a + opSize (P.opAt a) ≤ q → q < x → P.opAt q = opNop
  prev : PrevReal P isStart isLabel x a
  shape : DropBehind P isLabel j a x e ∨ isGotoOp j.op = true ∧ e = x + opSize j.op

theorem isDeadValueOp_spec : ∀ op < opCount, isDeadValueOp op = true →
    hasLabelOperand op = false ∧ op ≠ opNop ∧ op ≠ opDrop := by
  decide +kernel

variable {op : Nat}

theorem isIfOp_spec (isIf : isIfOp op = true) : op < opCount ∧ hasLabelOperand op ∧
    labelOffset op = 1 ∧ op ≠ opNop ∧ op ≠ opDrop ∧ opSize op = 1 + labelWidth op ∧
      (∀ i : Instr, i.op = op → i.popCount = 1) ∧
        ∃ taken, ∀ operands, actionOf op operands = .jumpIf taken := by
  simp only [isIfOp, Bool.or_eq_true, beq_iff_eq] at isIf
  rcases isIf with ((isIf | isIf) | isIf) | isIf
  all_goals
    subst isIf
    refine ⟨by decide, by decide, by decide, by decide, by decide, by decide, ?_, ?_⟩
    · intro i same
      simp only [Instr.popCount, same]
      rfl
    · exact ⟨_, fun _ => rfl⟩

theorem isGotoOp_spec (isGoto : isGotoOp op = true) : op < opCount ∧
    hasLabelOperand op ∧ labelOffset op = 1 ∧ op ≠ opNop ∧ op ≠ opDrop ∧
      opSize op = 1 + labelWidth op ∧ isIfOp op = false ∧ (∀ i : Instr, i.op = op → i.popCount = 0) ∧ ∀ operands, actionOf op operands = .goto := by
  simp only [isGotoOp, Bool.or_eq_true, beq_iff_eq] at isGoto
  rcases isGoto with (isGoto | isGoto) | isGoto
  all_goals
    subst isGoto
    refine ⟨by decide, by decide, by decide, by decide, by decide, by decide, by decide, ?_,
      fun _ => rfl⟩
    intro i same
    simp only [Instr.popCount, same]
    rfl

theorem isIfOp_notValue (isIf : isIfOp op = true) : isDeadValueOp op = false := by
  simp only [isIfOp, Bool.or_eq_true, beq_iff_eq] at isIf
  rcases isIf with ((isIf | isIf) | isIf) | isIf <;> (rw [isIf]; decide)

theorem isGotoOp_notValue (isGoto : isGotoOp op = true) : isDeadValueOp op = false := by
  simp only [isGotoOp, Bool.or_eq_true, beq_iff_eq] at isGoto
  rcases isGoto with (isGoto | isGoto) | isGoto <;> (rw [isGoto]; decide)

theorem isDeadValueOp_notIf (value : isDeadValueOp op = true) : op ≠ opNop ∧ isIfOp op = false := by
  constructor
  · intro nop
    rw [nop] at value
    revert value
    decide
  · by_contra isIf
    have plain := isIfOp_notValue (by simpa using isIf)
    rw [value] at plain
    cases plain

theorem isTerminator_notIf (terminator : isTerminator op = true) : isIfOp op = false := by
  simp only [isTerminator, Bool.or_eq_true, beq_iff_eq] at terminator
  rcases terminator with ((isGoto | same) | same) | same
  · exact (isGotoOp_spec isGoto).2.2.2.2.2.2.1
  all_goals
    rw [same]
    decide

theorem mem_slotsOf {P : BcOut} {label : Nat} {j : JumpSlot} :
    j ∈ P.slotsOf label ↔ j ∈ P.jumpSlots ∧ j.label = label ∧ 0 < j.size := by
  simp only [slotsOf, List.mem_filter, Bool.and_eq_true, beq_iff_eq, bne_iff_ne, ne_eq]
  constructor <;> intro ⟨member, same, live⟩ <;> exact ⟨member, same, by omega⟩

namespace DeadWindow

variable {P : BcOut} {isStart isLabel : Nat → Bool} {j j' : JumpSlot} {a x e a' x' e' q : Nat}
  (window : DeadWindow P isStart isLabel j a x e) (accurate : P.Accurate)

include window

theorem opJump : P.opAt x ≠ opNop ∧ P.opAt x ≠ opDrop ∧ P.opAt x < opCount := by
  rw [window.slot.op]
  rcases window.shape with behind | ⟨isGoto, _⟩
  · have ⟨known, _, _, real, notDrop, _⟩ := isIfOp_spec behind.isIf
    exact ⟨real, notDrop, known⟩
  · have ⟨known, _, _, real, notDrop, _⟩ := isGotoOp_spec isGoto
    exact ⟨real, notDrop, known⟩

theorem jump_lt_stop : x < e := by
  have ⟨_, _, known⟩ := window.opJump
  rw [window.slot.op] at known
  have positive := opSize_pos _ known
  rcases window.shape with behind | ⟨_, stop⟩
  · have room := behind.room
    omega
  · omega

include accurate

theorem stop_le : e ≤ P.size := by
  rcases window.shape with behind | ⟨_, stop⟩
  · exact behind.inside
  · have fits := (window.slot.start.suffix accurate.decodes window.slot.inside.le).size_le
      window.slot.inside
    have op := window.slot.op
    unfold opAt at op
    rw [op] at fits
    exact stop.le.trans fits

omit accurate in
theorem insideValue : a < P.size := by
  have room := window.room
  have inside := window.slot.inside
  omega

theorem value_lt_jump : a < x := by
  have room := window.room
  have positive := accurate.size_pos window.start (window.insideValue)
  omega

theorem valueOp : hasLabelOperand (P.opAt a) = false ∧ P.opAt a ≠ opNop ∧ P.opAt a ≠ opDrop :=
  isDeadValueOp_spec _ (accurate.known window.start (window.insideValue)) window.value

omit accurate in
/-- What can start inside the window. -/
theorem between (start : P.Start q) (low : a < q) (high : q < e) :
    P.opAt q = opNop ∨ q = x ∨ q + 1 = e ∧ P.opAt q = opDrop := by
  have first := window.start.next_le start low
  by_cases before : q < x
  · exact .inl (window.gap q first before)
  · by_cases here : q = x
    · exact .inr (.inl here)
    · have after := window.slot.start.next_le start (by omega)
      have op := window.slot.op
      unfold opAt at op
      rw [op] at after
      rcases window.shape with behind | ⟨_, stop⟩
      · by_cases last : q + 1 = e
        · have drop := behind.drop
          have same : e - 1 = q := by omega
          rw [same] at drop
          exact .inr (.inr ⟨last, drop⟩)
        · exact .inl (behind.gap q after (by omega)).1
      · omega

theorem startStop : P.Start e := by
  have next := accurate.next window.slot.start window.slot.inside
  rw [window.slot.op] at next
  rcases window.shape with behind | ⟨_, stop⟩
  · have room := behind.room
    have toDrop : P.Start (e - 1) := next.trans
      (.nops (by omega) fun q low high => (behind.gap q low (by omega)).1)
    have inside := behind.inside
    have after := accurate.next toDrop (by omega)
    rw [behind.drop] at after
    have same : e - 1 + opSize opDrop = e := by
      change e - 1 + 1 = e
      omega
    rwa [same] at after
  · rwa [stop]

theorem startGap (low : a + opSize (P.opAt a) ≤ q) (high : q ≤ x) : P.Start q :=
  (accurate.next window.start (window.insideValue)).trans
    (.nops low fun i above below => window.gap i above (by omega))

/-- Two jumps do not share their value. -/
theorem jump_eq (other : DeadWindow P isStart isLabel j' a' x' e') (same : a = a') : x = x' := by
  subst same
  have ordered : ∀ {j j' x x' e e'}, DeadWindow P isStart isLabel j a x e →
      DeadWindow P isStart isLabel j' a x' e' → ¬ x < x' := by
    intro j j' x x' e e' first second before
    have stop := second.jump_lt_stop
    rcases second.between first.slot.start (first.value_lt_jump accurate)
      (by omega) with nop | here | ⟨last, _⟩
    · exact first.opJump.1 nop
    · omega
    · omega
  have le := ordered window other
  have ge := ordered other window
  omega

omit accurate in
/-- Two conditional jumps do not share the `drop` behind them. -/
theorem jump_eq_of_stop (behind : DropBehind P isLabel j a x e)
    (other : DropBehind P isLabel j' a' x' e') (window' : DeadWindow P isStart isLabel j' a' x' e')
    (same : e = e') : x = x' := by
  subst same
  have ordered : ∀ {j j' a a' x x'}, DeadWindow P isStart isLabel j a x e →
      DropBehind P isLabel j a x e → DeadWindow P isStart isLabel j' a' x' e → ¬ x < x' := by
    intro j j' a a' x x' first drop second before
    have after := first.slot.start.next_le second.slot.start before
    have op := first.slot.op
    unfold opAt at op
    rw [op] at after
    have stop := second.jump_lt_stop
    by_cases last : x' + 1 = e
    · have dropped := drop.drop
      have here : e - 1 = x' := by omega
      rw [here] at dropped
      exact second.opJump.2.1 dropped
    · exact second.opJump.1 (drop.gap x' after (by omega)).1
  have le := ordered window behind window'
  have ge := ordered window' other window
  omega

end DeadWindow


/-! The bytes that a set of matched slots erases. -/

/-- The bytes that the slots of `done` turn into `nop`s. -/
def ErasedBy (P : BcOut) (A E : JumpSlot → Nat) (done : JumpSlot → Prop) (i : Nat) : Prop :=
  ∃ j, done j ∧ (A j ≤ i ∧ i < A j + opSize (P.opAt (A j)) ∨ isIfOp j.op = true ∧ i + 1 = E j)

structure Erasing (P S : BcOut) (A E : JumpSlot → Nat) (done : JumpSlot → Prop) : Prop where
  size : S.size = P.size
  jumpSlots : S.jumpSlots = P.jumpSlots
  erased : ∀ i, i < P.size → ErasedBy P A E done i → S.opAt i = opNop
  kept : ∀ i, ¬ ErasedBy P A E done i → S.opAt i = P.opAt i

/-- Every slot of `done` stands in a window. -/
def AllWindows (P : BcOut) (isStart isLabel : Nat → Bool) (A X E : JumpSlot → Nat)
    (done : JumpSlot → Prop) : Prop :=
  ∀ j, done j → j ∈ P.jumpSlots ∧ 0 < j.size ∧ DeadWindow P isStart isLabel j (A j) (X j) (E j)

section Erasing

variable {P S : BcOut} {isStart isLabel : Nat → Bool} {A X E : JumpSlot → Nat}
  {done : JumpSlot → Prop} {i lo hi q : Nat} {j j' : JumpSlot}

theorem ErasedBy.mono {more : JumpSlot → Prop} (erased : ErasedBy P A E done i)
    (weaker : ∀ j, done j → more j) : ErasedBy P A E more i := by
  have ⟨j, inDone, here⟩ := erased
  exact ⟨j, weaker j inDone, here⟩

variable (accurate : P.Accurate)
  (windows : AllWindows P isStart isLabel A X E done)

include windows

/-- An erased byte is of a value, or it is the `drop` behind a conditional jump. -/
theorem ErasedBy.cases (erased : ErasedBy P A E done i) :
    ∃ j, done j ∧ DeadWindow P isStart isLabel j (A j) (X j) (E j) ∧
      (A j ≤ i ∧ i < A j + opSize (P.opAt (A j)) ∨
        DropBehind P isLabel j (A j) (X j) (E j) ∧ i + 1 = E j) := by
  have ⟨j, inDone, here⟩ := erased
  have ⟨_, _, window⟩ := windows j inDone
  refine ⟨j, inDone, window, ?_⟩
  rcases here with value | ⟨isIf, last⟩
  · exact .inl value
  · rcases window.shape with behind | ⟨isGoto, _⟩
    · exact .inr ⟨behind, last⟩
    · have ⟨_, _, _, _, _, _, notIf, _⟩ := isGotoOp_spec isGoto
      rw [notIf] at isIf
      cases isIf

/-- An erased instruction is a value or the `drop` behind a conditional jump. -/
theorem ErasedBy.start_cases (erased : ErasedBy P A E done i) (start : P.Start i) :
    ∃ j, done j ∧ DeadWindow P isStart isLabel j (A j) (X j) (E j) ∧
      (i = A j ∨ DropBehind P isLabel j (A j) (X j) (E j) ∧ i + 1 = E j) := by
  have ⟨j, inDone, window, here⟩ := erased.cases windows
  refine ⟨j, inDone, window, ?_⟩
  rcases here with ⟨low, high⟩ | drop
  · left
    by_contra other
    have after := window.start.next_le start (by omega)
    unfold opAt at high
    omega
  · exact .inr drop

include accurate

theorem ErasedBy.inside (erased : ErasedBy P A E done i) : i < P.size := by
  have ⟨j, _, window, here⟩ := erased.cases windows
  have stop := window.stop_le accurate
  have room := window.room
  have last := window.jump_lt_stop
  rcases here with ⟨low, high⟩ | ⟨behind, last⟩ <;> omega

omit windows in
theorem start_drop (window : DeadWindow P isStart isLabel j (A j) (X j) (E j))
    (behind : DropBehind P isLabel j (A j) (X j) (E j)) : P.Start (E j - 1) := by
  have next := accurate.next window.slot.start window.slot.inside
  rw [window.slot.op] at next
  have room := behind.room
  exact next.trans (.nops (by omega) fun q low high => (behind.gap q low (by omega)).1)

omit accurate in
/-- Jumps and labelled `drop`s stay. -/
theorem not_erased (start : P.Start i) (value : isDeadValueOp (P.opAt i) = false)
    (drop : P.opAt i = opDrop → isLabel i = true) : ¬ ErasedBy P A E done i := by
  intro erased
  have ⟨j, _, window, here⟩ := erased.start_cases windows start
  rcases here with same | ⟨behind, last⟩
  · rw [same, window.value] at value
    cases value
  · have same : E j - 1 = i := by omega
    have dropped := behind.drop
    have free := behind.free
    rw [same] at dropped free
    rw [drop dropped] at free
    cases free

section

variable (member : j ∈ P.jumpSlots) (live : 0 < j.size)
  (window : DeadWindow P isStart isLabel j (A j) (X j) (E j))

include member live window

theorem value_kept (new : ¬ done j) : ¬ ErasedBy P A E done (A j) := by
  intro erased
  have ⟨j', inDone, window', here⟩ := erased.start_cases windows window.start
  have ⟨member', live', _⟩ := windows j' inDone
  rcases here with same | ⟨behind, last⟩
  · have jumps := window.jump_eq accurate window' same
    have slot := window'.slot
    rw [← jumps] at slot
    rw [accurate.slot_eq member' member live' live slot window.slot] at inDone
    exact new inDone
  · have drop := behind.drop
    have same : E j' - 1 = A j := by omega
    rw [same] at drop
    exact (window.valueOp accurate).2.2 drop

theorem drop_kept (behind : DropBehind P isLabel j (A j) (X j) (E j)) (new : ¬ done j) :
    ¬ ErasedBy P A E done (E j - 1) := by
  intro erased
  have room := behind.room
  have ⟨j', inDone, window', here⟩ := erased.start_cases windows (start_drop accurate window behind)
  have ⟨member', live', _⟩ := windows j' inDone
  rcases here with same | ⟨behind', last⟩
  · have drop := behind.drop
    rw [same] at drop
    exact (window'.valueOp accurate).2.2 drop
  · have jumps := window.jump_eq_of_stop behind behind' window' (by omega)
    have slot := window'.slot
    rw [← jumps] at slot
    rw [accurate.slot_eq member' member live' live slot window.slot] at inDone
    exact new inDone

end

variable (erasing : Erasing P S A E done)

include erasing

omit windows accurate in
theorem Erasing.nop (inside : i < P.size) (nop : P.opAt i = opNop) : S.opAt i = opNop := by
  by_cases erased : ErasedBy P A E done i
  · exact erasing.erased i inside erased
  · rw [erasing.kept i erased, nop]

omit accurate in
/-- A jump of `done` is still there. -/
theorem Erasing.jump (inDone : done j) : S.opAt (X j) = P.opAt (X j) := by
  have ⟨_, _, window⟩ := windows j inDone
  have ⟨_, notDrop, _⟩ := window.opJump
  refine erasing.kept _ (not_erased windows window.slot.start ?_ fun drop =>
    (notDrop drop).elim)
  by_contra value
  have plain := (isDeadValueOp_spec _ window.opJump.2.2 (by simpa using value)).1
  have jump := window.slot.jump
  rw [← window.slot.op, plain] at jump
  cases jump

omit accurate in
/-- Nothing is erased in a stretch of `nop`s between two instructions that are not the jump of a
slot of `done`. -/
theorem Erasing.untouched (lo hi : Nat) (nops : ∀ q, lo ≤ q → q < hi → P.Start q → S.opAt q = opNop)
    (right : S.opAt hi ≠ opNop) (rightJump : ∀ j, done j → X j ≠ hi)
    (left : ∀ j, done j → isIfOp j.op = true → X j < lo →
      ∃ q, X j + opSize j.op ≤ q ∧ q < lo ∧ ¬ (S.opAt q = opNop ∧ isLabel q = false))
    (low : lo ≤ i) (high : i < hi) : ¬ ErasedBy P A E done i := by
  intro erased
  have ⟨j, inDone, window, here⟩ := erased.cases windows
  have kept := erasing.jump windows inDone
  have ⟨real, _, _⟩ := window.opJump
  have inside := window.slot.inside
  have notBetween : lo ≤ X j → X j < hi → False := fun above below => by
    have nop := nops (X j) above below window.slot.start
    rw [kept] at nop
    exact real nop
  rcases here with ⟨first, last⟩ | ⟨behind, last⟩
  · -- the jump behind the value ends the stretch
    have room := window.room
    by_cases beyond : hi < X j
    · by_cases value : hi < A j + opSize (P.opAt (A j))
      · have erasedHi : ErasedBy P A E done hi := ⟨j, inDone, .inl ⟨by omega, value⟩⟩
        exact right (erasing.erased hi (by omega) erasedHi)
      · exact right (erasing.nop (by omega) (window.gap hi (by omega) beyond))
    · have other := rightJump j inDone
      exact notBetween (by omega) (by omega)
  · -- the jump before the `drop` begins it
    have room := behind.room
    have stop := behind.inside
    by_cases before : X j < lo
    · have ⟨q, after, below, notNop⟩ := left j inDone behind.isIf before
      have ⟨nop, free⟩ := behind.gap q after (by omega)
      exact notNop ⟨erasing.nop (by omega) nop, free⟩
    · exact notBetween (by omega) (by omega)

end Erasing

/-! What the matches say. -/

def jumpPos (j : JumpSlot) : Nat := (j.pos - 1).toNat

def valuePos (P : BcOut) (isStart isLabel : Nat → Bool) (j : JumpSlot) : Nat :=
  (P.prevReal isStart isLabel (jumpPos j)).getD 0

def windowStop (P : BcOut) (isLabel : Nat → Bool) (j : JumpSlot) : Nat :=
  if isIfOp j.op then P.skipNops isLabel (j.pos + j.size).toNat + 1 else (j.pos + j.size).toNat

section Matches

variable {P S : BcOut} {isStart isLabel : Nat → Bool} {pos k : Nat} {j : JumpSlot}

theorem matchIf_iff : P.matchIf isStart isLabel j = true ↔ 1 ≤ j.pos - 1 ∧
    ∃ k, PrevReal P isStart isLabel (jumpPos j) k ∧ P.opAt k = opDup ∧
      ∃ d, P.skipNops isLabel (j.pos + j.size).toNat = d ∧ d < P.size ∧ P.opAt d = opDrop ∧
        isLabel d = false := by
  unfold matchIf
  dsimp only
  split
  · rename_i first
    constructor
    · intro wrong
      cases wrong
    · intro ⟨low, _⟩
      omega
  · rename_i low
    rw [← jumpPos]
    cases found : P.prevReal isStart isLabel (jumpPos j) with
    | none =>
        constructor
        · intro wrong
          cases wrong
        · intro ⟨_, k, here, _⟩
          rw [here.eq_some] at found
          cases found
    | some k =>
        simp only [Bool.and_eq_true, beq_iff_eq, decide_eq_true_eq, Bool.not_eq_true']
        constructor
        · intro ⟨⟨⟨dup, inside⟩, drop⟩, free⟩
          exact ⟨by omega, k, prevReal_some found, dup, _, rfl, inside, drop, free⟩
        · intro ⟨_, k', here, dup, d, reach, inside, drop, free⟩
          rw [here.eq_some] at found
          cases found
          rw [reach]
          exact ⟨⟨⟨dup, inside⟩, drop⟩, free⟩

theorem matchGoto_iff : P.matchGoto isStart isLabel j = true ↔ 1 ≤ j.pos - 1 ∧
    ∃ k, PrevReal P isStart isLabel (jumpPos j) k ∧ 0 < opSize (P.opAt k) ∧
      (∀ m, k + opSize (P.opAt k) ≤ m → m < jumpPos j → P.opAt m = opNop ∧ isLabel m = false) ∧
        k + opSize (P.opAt k) ≤ jumpPos j ∧ isLabel k = false ∧
          isDeadValueOp (P.opAt k) = true := by
  unfold matchGoto
  dsimp only
  split
  · rename_i first
    constructor
    · intro wrong
      cases wrong
    · intro ⟨low, _⟩
      omega
  · rename_i low
    rw [← jumpPos]
    cases found : P.prevReal isStart isLabel (jumpPos j) with
    | none =>
        constructor
        · intro wrong
          cases wrong
        · intro ⟨_, k, here, _⟩
          rw [here.eq_some] at found
          cases found
    | some k =>
        simp only [Bool.and_eq_true, decide_eq_true_eq, Bool.not_eq_true', allNops_iff]
        constructor
        · intro ⟨⟨⟨⟨positive, gap⟩, room⟩, free⟩, value⟩
          exact ⟨by omega, k, prevReal_some found, positive, gap, room, free, value⟩
        · intro ⟨_, k', here, positive, gap, room, free, value⟩
          rw [here.eq_some] at found
          cases found
          exact ⟨⟨⟨⟨positive, gap⟩, room⟩, free⟩, value⟩

theorem noFallThrough_iff : P.noFallThrough isStart isLabel pos = true ↔
    (∀ q, q < pos → isStart q = true → P.opAt q = opNop ∧ isLabel q = false) ∨
      ∃ k, PrevReal P isStart isLabel pos k ∧
        (∀ m, k + opSize (P.opAt k) ≤ m → m < pos → P.opAt m = opNop ∧ isLabel m = false) ∧
          (pos < k + opSize (P.opAt k) ∨ isTerminator (P.opAt k) = true) := by
  unfold noFallThrough
  cases found : P.prevReal isStart isLabel pos with
  | none =>
      constructor
      · intro _
        exact .inl fun q below start => prevReal_none found below start
      · intro _
        rfl
  | some k =>
      have here := prevReal_some found
      simp only [Bool.and_eq_true, Bool.or_eq_true, decide_eq_true_eq, allNops_iff]
      constructor
      · intro fits
        exact .inr ⟨k, here, fits⟩
      · intro cases_
        rcases cases_ with none | ⟨k', here', fits⟩
        · exact (here.real (none k here.before here.start)).elim
        · rw [here'.eq_some] at found
          cases found
          exact fits

/-- The slot of a matched jump describes the instruction right before its operand. -/
theorem Accurate.slot_jumpPos (accurate : P.Accurate) (member : j ∈ P.jumpSlots)
    (live : 0 < j.size) (offset : labelOffset j.op = 1) (size : opSize j.op = 1 + labelWidth j.op) :
    P.SlotAccurate j (jumpPos j) ∧ (j.pos + j.size).toNat = jumpPos j + opSize j.op := by
  have ⟨pos, slot⟩ := accurate.slots j member live
  have operand := slot.operand
  have width := slot.width
  rw [offset] at operand
  have same : jumpPos j = pos := by
    unfold jumpPos
    omega
  rw [same]
  exact ⟨slot, by omega⟩

theorem Accurate.nops_of_starts (accurate : P.Accurate) {b x q : Nat} (start : P.Start b)
    (inside : x ≤ P.size) (nops : ∀ q, b ≤ q → q < x → P.Start q → P.opAt q = opNop) (low : b ≤ q)
    (high : q < x) : P.opAt q = opNop := by
  have starts : P.Start q := by
    induction q, low using Nat.le_induction with
    | base => exact start
    | succ q low ih =>
        have here := ih (by omega)
        have next := accurate.next here (by omega)
        rwa [nops q low (by omega) here] at next
  exact nops q low high starts

/-- A matched slot stands in a window. -/
theorem window_of_match (accurate : P.Accurate) (member : j ∈ P.jumpSlots) (live : 0 < j.size)
    (matched : P.matchSlot P.instrStarts isLabel j = true) :
    DeadWindow P P.instrStarts isLabel j (P.valuePos P.instrStarts isLabel j) (jumpPos j)
      (P.windowStop isLabel j) := by
  unfold matchSlot at matched
  split at matched
  · rename_i isIf
    have ⟨_, _, offset, _, _, size, _⟩ := isIfOp_spec isIf
    have ⟨slot, behind⟩ := accurate.slot_jumpPos member live offset size
    have ⟨_, k, prev, dup, d, reach, inside, drop, free⟩ := matchIf_iff.mp matched
    have value : P.valuePos P.instrStarts isLabel j = k := by
      rw [valuePos, prev.eq_some, Option.getD_some]
    have stop : P.windowStop isLabel j = d + 1 := by rw [windowStop, if_pos isIf, reach]
    have ⟨startK, insideK⟩ := accurate.instrStarts_iff.mp prev.start
    have next := accurate.next startK insideK
    have room := startK.next_le slot.start prev.before
    rw [behind] at reach
    have low := P.le_skipNops isLabel (jumpPos j + opSize j.op)
    rw [value, stop]
    exact {
      slot := slot
      start := startK
      value := by rw [dup]; decide
      room := room
      gap := fun q low high => accurate.nops_of_starts next slot.inside.le
        (fun q low high start => (prev.between q (by
            have positive := accurate.size_pos startK insideK
            omega) high
          (accurate.instrStarts_iff.mpr ⟨start, by have inside := slot.inside; omega⟩)).1) low high
      prev := prev
      shape := .inl {
        isIf := isIf
        dup := dup
        room := by omega
        inside := inside
        drop := drop
        free := free
        gap := fun q low high => by
          have ⟨_, skipped⟩ := P.skipNops_skipped isLabel low (by omega)
          exact skipped } }
  · split at matched
    · rename_i notIf isGoto
      have ⟨_, _, offset, _, _, size, _⟩ := isGotoOp_spec isGoto
      have ⟨slot, behind⟩ := accurate.slot_jumpPos member live offset size
      have ⟨_, k, prev, _, gap, room, _, value⟩ := matchGoto_iff.mp matched
      have same : P.valuePos P.instrStarts isLabel j = k := by
        rw [valuePos, prev.eq_some, Option.getD_some]
      have stop : P.windowStop isLabel j = jumpPos j + opSize j.op := by
        rw [windowStop, if_neg notIf, behind]
      have ⟨startK, insideK⟩ := accurate.instrStarts_iff.mp prev.start
      rw [same, stop]
      exact ⟨slot, startK, value, room, fun q low high => (gap q low high).1, prev,
        .inr ⟨isGoto, rfl⟩⟩
    · cases matched

end Matches

end PrimJs.BcOut
