import PrimJs.Optimizer.DeadValueWindow

/-! `opt_dead_value_elim` label by label, described by what it erases of the code it started from. -/

namespace PrimJs.BcOut

variable {P S : BcOut} {isLabel : Nat → Bool} {done : JumpSlot → Prop} {i k pos q : Nat}
  {j : JumpSlot} {label : Nat}

/-- The slots of `done` are matched in `P`. -/
def AllMatched (P : BcOut) (isLabel : Nat → Bool) (done : JumpSlot → Prop) : Prop :=
  ∀ j, done j → j ∈ P.jumpSlots ∧ 0 < j.size ∧ P.matchSlot P.instrStarts isLabel j = true

theorem AllMatched.windows (matched : AllMatched P isLabel done) (accurate : P.Accurate) :
    AllWindows P P.instrStarts isLabel (P.valuePos P.instrStarts isLabel) jumpPos
      (P.windowStop isLabel) done := by
  intro j inDone
  have ⟨member, live, here⟩ := matched j inDone
  exact ⟨member, live, window_of_match accurate member live here⟩

/-- `S` is `P` with the windows of the slots of `done` erased. -/
abbrev ErasingOf (P S : BcOut) (isLabel : Nat → Bool) (done : JumpSlot → Prop) : Prop :=
  Erasing P S (P.valuePos P.instrStarts isLabel) (P.windowStop isLabel) done

section Back

variable (accurate : P.Accurate) (matched : AllMatched P isLabel done)
  (erasing : ErasingOf P S isLabel done)

include accurate matched erasing

omit accurate matched in
theorem opAt_back (inside : q < P.size) (real : S.opAt q ≠ opNop) : P.opAt q = S.opAt q := by
  by_contra other
  have kept := mt (erasing.kept q) (Ne.symm other)
  exact real (erasing.erased q inside (not_not.mp kept))

/-- What the backward search finds in `S` it finds in `P`. -/
theorem prevReal_back (found : PrevReal S P.instrStarts isLabel pos k)
    (inside : pos < P.size) (right : S.opAt pos ≠ opNop) (rightJump : ∀ j, done j → jumpPos j ≠ pos)
    (real : S.opAt k ≠ opNop) (notIf : isIfOp (S.opAt k) = false) :
    PrevReal P P.instrStarts isLabel pos k ∧ P.opAt k = S.opAt k ∧
      ∀ i, k < i → i < pos → P.opAt i = S.opAt i := by
  have ⟨startK, insideK⟩ := accurate.instrStarts_iff.mp found.start
  have windows := matched.windows accurate
  have untouched : ∀ i, k < i → i < pos → P.opAt i = S.opAt i := by
    intro i low high
    refine (erasing.kept i ?_).symm
    refine erasing.untouched windows (k + 1) pos ?_ right rightJump ?_ low high
    · intro q above below start
      exact (found.between q above below
        (accurate.instrStarts_iff.mpr ⟨start, by omega⟩)).1
    · intro j inDone isIf before
      have ⟨_, _, window⟩ := windows j inDone
      have jump := erasing.jump windows inDone
      have notSame : jumpPos j ≠ k := by
        intro same
        rw [← same, jump, window.slot.op, isIf] at notIf
        cases notIf
      have after := window.slot.start.next_le startK (by omega)
      have op := window.slot.op
      unfold opAt at op
      rw [op] at after
      exact ⟨k, after, by omega, fun ⟨nop, _⟩ => real nop⟩
  have here := opAt_back erasing insideK real
  refine ⟨?_, here, untouched⟩
  exact {
    before := found.before
    start := found.start
    real := by rw [here]; exact found.real
    between := fun q low high start => by
      rw [untouched q low high]
      exact found.between q low high start }

theorem jump_kept (member : j ∈ P.jumpSlots) (live : 0 < j.size) (slot : P.SlotAccurate j (jumpPos j))
    (new : ¬ done j) (notValue : isDeadValueOp j.op = false)
    (notDrop : j.op ≠ opDrop) :
    S.opAt (jumpPos j) = j.op ∧ ∀ j', done j' → jumpPos j' ≠ jumpPos j := by
  have windows := matched.windows accurate
  constructor
  · rw [← slot.op]
    refine erasing.kept _ (not_erased windows slot.start (by rw [slot.op]; exact notValue) ?_)
    intro drop
    rw [slot.op] at drop
    exact (notDrop drop).elim
  · intro j' inDone same
    have ⟨member', live', window⟩ := windows j' inDone
    have slot' := window.slot
    rw [same] at slot'
    rw [accurate.slot_eq member' member live' live slot' slot] at inDone
    exact new inDone

theorem matchSlot_back (member : j ∈ P.jumpSlots) (live : 0 < j.size) (new : ¬ done j)
    (here : S.matchSlot P.instrStarts isLabel j = true) :
    P.matchSlot P.instrStarts isLabel j = true := by
  have windows := matched.windows accurate
  unfold matchSlot at here ⊢
  split at here
  · rename_i isIf
    have ⟨_, _, offset, real, notDrop, size, _⟩ := isIfOp_spec isIf
    have notValue : isDeadValueOp j.op = false := isIfOp_notValue isIf
    have ⟨slot, behind⟩ := accurate.slot_jumpPos member live offset size
    have ⟨jumpOp, others⟩ := jump_kept accurate matched erasing member live slot new notValue notDrop
    have ⟨low, k, prev, dup, d, reach, inside, drop, free⟩ := matchIf_iff.mp here
    have ⟨prevP, valueOp, _⟩ := prevReal_back accurate matched erasing prev slot.inside
      (by rw [jumpOp]; exact real) others (by rw [dup]; decide) (by rw [dup]; decide)
    rw [behind] at reach
    have order := S.le_skipNops isLabel (jumpPos j + opSize j.op)
    rw [erasing.size] at inside
    have skipped : ∀ q, jumpPos j + opSize j.op ≤ q → q < d →
        S.opAt q = opNop ∧ isLabel q = false := fun q low high =>
      (S.skipNops_skipped isLabel low (by omega)).2
    have dropP := opAt_back erasing inside (by rw [drop]; decide)
    have untouched : ∀ q, jumpPos j + opSize j.op ≤ q → q < d → P.opAt q = S.opAt q := by
      intro q low high
      refine (erasing.kept q ?_).symm
      refine erasing.untouched windows _ _ (fun q above below _ => (skipped q above below).1)
        (by rw [drop]; decide) ?_ ?_ low high
      · intro j' inDone same
        have ⟨_, _, window⟩ := windows j' inDone
        have jump := erasing.jump windows inDone
        rw [same, drop, ← dropP.trans drop] at jump
        have ⟨_, notDrop', _⟩ := window.opJump
        rw [same] at notDrop'
        exact notDrop' (dropP.trans drop)
      · intro j' inDone isIf' before
        have ⟨_, _, window⟩ := windows j' inDone
        have other := others j' inDone
        have op := window.slot.op
        have op' := slot.op
        unfold opAt at op op'
        by_cases left : jumpPos j' < jumpPos j
        · have after := window.slot.start.next_le slot.start left
          rw [op] at after
          have positive := accurate.size_pos slot.start slot.inside
          rw [slot.op] at positive
          exact ⟨jumpPos j, after, by omega, fun ⟨nop, _⟩ => real (jumpOp.symm.trans nop)⟩
        · have after := slot.start.next_le window.slot.start (by omega)
          rw [op'] at after
          omega
    rw [if_pos isIf]
    refine matchIf_iff.mpr ⟨low, k, prevP, valueOp.trans dup, d, ?_, inside, dropP.trans drop, free⟩
    rw [behind]
    refine skipNops_eq (by omega) inside (fun q low high => ?_) ?_
    · rw [untouched q low high]
      exact skipped q low high
    · intro ⟨nop, _⟩
      rw [dropP, drop] at nop
      cases nop
  · split at here
    · rename_i notIf isGoto
      have ⟨_, _, offset, real, notDrop, size, _⟩ := isGotoOp_spec isGoto
      have notValue : isDeadValueOp j.op = false := isGotoOp_notValue isGoto
      have ⟨slot, behind⟩ := accurate.slot_jumpPos member live offset size
      have ⟨jumpOp, others⟩ := jump_kept accurate matched erasing member live slot new notValue
        notDrop
      have ⟨low, k, prev, positive, gap, room, free, value⟩ := matchGoto_iff.mp here
      have ⟨notNop, notJump⟩ := isDeadValueOp_notIf value
      have ⟨prevP, valueOp, same⟩ := prevReal_back accurate matched erasing prev slot.inside
        (by rw [jumpOp]; exact real) others notNop notJump
      rw [if_neg notIf, if_pos isGoto]
      refine matchGoto_iff.mpr ⟨low, k, prevP, ?_⟩
      rw [valueOp]
      refine ⟨positive, fun m low high => ?_, room, free, value⟩
      rw [same m (by omega) high]
      exact gap m low high
    · cases here

theorem noFallThrough_back (start : P.Start pos) (inside : pos < P.size) (drop : S.opAt pos = opDrop)
    (here : S.noFallThrough P.instrStarts isLabel pos = true) :
    P.noFallThrough P.instrStarts isLabel pos = true := by
  have windows := matched.windows accurate
  have right : S.opAt pos ≠ opNop := by
    rw [drop]
    decide
  have dropP := (opAt_back erasing inside right).trans drop
  have others : ∀ j, done j → jumpPos j ≠ pos := by
    intro j inDone same
    have ⟨_, _, window⟩ := windows j inDone
    have ⟨_, notDrop, _⟩ := window.opJump
    rw [same] at notDrop
    exact notDrop dropP
  refine noFallThrough_iff.mpr ?_
  rcases noFallThrough_iff.mp here with none | ⟨k, prev, gap, ends⟩
  · left
    intro q below startQ
    have ⟨nop, free⟩ := none q below startQ
    refine ⟨?_, free⟩
    rw [← nop]
    refine (erasing.kept q ?_).symm
    refine erasing.untouched windows 0 pos (fun q _ below startQ => ?_) right others ?_
      (Nat.zero_le q) below
    · exact (none q below (accurate.instrStarts_iff.mpr ⟨startQ, by omega⟩)).1
    · intro j _ _ before
      omega
  · right
    have ⟨startK, insideK⟩ := accurate.instrStarts_iff.mp prev.start
    have before := prev.before
    have real : S.opAt k ≠ opNop := by
      intro nop
      rw [nop] at ends
      rcases ends with beyond | terminator
      · change pos < k + 1 at beyond
        omega
      · revert terminator
        decide
    have known := opAt_back erasing insideK real
    have fits := startK.next_le start before
    have terminator : isTerminator (S.opAt k) = true := by
      rcases ends with beyond | terminator
      · rw [← known] at beyond
        unfold opAt at beyond
        omega
      · exact terminator
    have ⟨prevP, valueOp, same⟩ := prevReal_back accurate matched erasing prev inside right others
      real (isTerminator_notIf terminator)
    refine ⟨k, prevP, fun m low high => ?_, .inr (by rw [valueOp]; exact terminator)⟩
    have positive := accurate.size_pos startK insideK
    rw [same m (by omega) high]
    rw [valueOp] at low
    exact gap m low high

/-- A label that is matched in `S` is matched in `P`. -/
theorem matchLabel_back (slot : S.labelSlot label = P.labelSlot label)
    (new : ∀ j, done j → j.label ≠ label)
    (here : S.matchLabel P.instrStarts isLabel label = true) :
    P.matchLabel P.instrStarts isLabel label = true := by
  have slots : S.slotsOf label = P.slotsOf label := by rw [slotsOf, slotsOf, erasing.jumpSlots]
  unfold matchLabel labelAddr refCount at here ⊢
  rw [slot, slots, erasing.size] at here
  simp only [Bool.and_eq_true, decide_eq_true_eq, beq_iff_eq, List.all_eq_true] at here ⊢
  obtain ⟨⟨⟨⟨⟨⟨⟨low, high⟩, drop⟩, live⟩, all⟩, many⟩, count⟩, noFall⟩ := here
  have inside : (P.labelSlot label).addr.toNat < P.size := by omega
  have dropP := (opAt_back erasing inside (by rw [drop]; decide)).trans drop
  have back : ∀ j ∈ P.slotsOf label, P.matchSlot P.instrStarts isLabel j = true := by
    intro j member
    obtain ⟨inSlots, same, alive⟩ := mem_slotsOf.mp member
    exact matchSlot_back accurate matched erasing inSlots alive (fun inDone => new j inDone same)
      (all j member)
  have start : P.Start (P.labelSlot label).addr.toNat := by
    obtain ⟨j, member⟩ := List.exists_mem_of_length_pos (Nat.pos_of_ne_zero many)
    obtain ⟨inSlots, same, alive⟩ := mem_slotsOf.mp member
    obtain ⟨pos, addr, start, _⟩ := accurate.targets j inSlots alive
    rw [same] at addr
    have equal : (P.labelSlot label).addr.toNat = pos := by
      change (P.labelAddr label).toNat = pos
      omega
    rwa [equal]
  exact ⟨⟨⟨⟨⟨⟨⟨low, high⟩, dropP⟩, live⟩, back⟩, many⟩, count⟩,
    noFallThrough_back accurate matched erasing start inside drop noFall⟩

end Back

/-! The edits. -/

theorem opAt_write_nop (inside : pos < P.size) :
    (P.write pos opNop).opAt i = if i = pos then opNop else P.opAt i := by
  split
  · rename_i same
    rw [same]
    exact opAt_write_same inside (by decide)
  · rename_i other
    exact opAt_write_ne other

/-- One slot. -/
theorem erasing_applySlot (accurate : P.Accurate) (matched : AllMatched P isLabel done)
    (erasing : ErasingOf P S isLabel done) (member : j ∈ P.jumpSlots) (live : 0 < j.size)
    (new : ¬ done j) (here : P.matchSlot P.instrStarts isLabel j = true) :
    ErasingOf P (applySlot P.instrStarts isLabel S j) isLabel (fun j' => done j' ∨ j' = j) := by
  have windows := matched.windows accurate
  have window := window_of_match accurate member live here
  have keptValue := erasing.kept _ (value_kept accurate windows member live window new)
  have keptDrop := fun behind => erasing.kept _
    (drop_kept accurate windows member live window behind new)
  generalize value : P.valuePos P.instrStarts isLabel j = a at window keptValue keptDrop
  generalize stop : P.windowStop isLabel j = e at window keptDrop
  have inside := window.insideValue
  have insideS : a < S.size := erasing.size ▸ inside
  have before := window.value_lt_jump accurate
  have insideJump := window.slot.inside
  have prev := window.prev
  have prevS : PrevReal S P.instrStarts isLabel (jumpPos j) a := {
    before := prev.before
    start := prev.start
    real := by rw [keptValue]; exact prev.real
    between := fun q low high start => by
      obtain ⟨nop, free⟩ := prev.between q low high start
      exact ⟨erasing.nop (by omega) nop, free⟩ }
  rcases window.shape with behind | ⟨isGoto, stops⟩
  · have isIf := behind.isIf
    obtain ⟨_, _, offset, _, _, size, _⟩ := isIfOp_spec isIf
    obtain ⟨_, operand⟩ := accurate.slot_jumpPos member live offset size
    have room := behind.room
    have stopInside := behind.inside
    have dropS : S.opAt (e - 1) = opDrop := (keptDrop behind).trans behind.drop
    have dropPos : (S.write a opNop).skipNops isLabel (jumpPos j + opSize j.op) = e - 1 := by
      refine skipNops_eq (by omega) (by rw [write_size, erasing.size]; omega) (fun q low high => ?_) ?_
      · obtain ⟨nop, free⟩ := behind.gap q low (by omega)
        rw [opAt_write_nop insideS, if_neg (by omega)]
        exact ⟨erasing.nop (by omega) nop, free⟩
      · rw [opAt_write_nop insideS, if_neg (by omega), dropS]
        rintro ⟨wrong, _⟩
        cases wrong
    have insideDrop : e - 1 < (S.write a opNop).size := by
      rw [write_size, erasing.size]
      omega
    have result : applySlot P.instrStarts isLabel S j = (S.write a opNop).write (e - 1) opNop := by
      unfold applySlot
      rw [if_pos isIf, ← jumpPos, prevS.eq_some]
      dsimp only
      rw [operand, dropPos, if_pos insideDrop]
    rw [result]
    have bytes : ∀ i, ((S.write a opNop).write (e - 1) opNop).opAt i =
        if i = e - 1 ∨ i = a then opNop else S.opAt i := by
      intro i
      rw [opAt_write_nop insideDrop, opAt_write_nop insideS]
      by_cases first : i = e - 1 <;> by_cases second : i = a <;> simp [first, second]
    refine ⟨by simp [erasing.size], erasing.jumpSlots, fun i insideI erased => ?_, fun i notErased => ?_⟩
    · rw [bytes]
      split
      · rfl
      · rename_i other
        obtain ⟨j', inDone, range⟩ := erased
        rcases inDone with old | same
        · exact erasing.erased i insideI ⟨j', old, range⟩
        · subst same
          rw [value, stop, behind.dup] at range
          change a ≤ i ∧ i < a + 1 ∨ _ at range
          omega
    · rw [bytes]
      have other : ¬ (i = e - 1 ∨ i = a) := by
        intro same
        apply notErased
        refine ⟨j, .inr rfl, ?_⟩
        rw [value, stop, behind.dup]
        rcases same with drop | dup
        · exact .inr ⟨isIf, by omega⟩
        · refine .inl ?_
          change a ≤ i ∧ i < a + 1
          omega
      rw [if_neg other]
      exact erasing.kept i fun erased => notErased (erased.mono fun _ old => .inl old)
  · obtain ⟨_, _, _, _, _, _, notIf, _⟩ := isGotoOp_spec isGoto
    have result : applySlot P.instrStarts isLabel S j = S.nopFullInstruction a := by
      unfold applySlot
      rw [if_neg (by rw [notIf]; decide), ← jumpPos, prevS.eq_some]
    rw [result]
    have ends : a + opSize (P.opAt a) ≤ P.size := by
      have room := window.room
      omega
    refine ⟨by rw [nopFullInstruction, writeNops_size, erasing.size], erasing.jumpSlots,
      fun i insideI erased => ?_, fun i notErased => ?_⟩
    · rw [nopFullInstruction, keptValue]
      by_cases within : a ≤ i ∧ i < a + opSize (P.opAt a)
      · exact opAt_writeNops_inside within.1 within.2 (by rwa [erasing.size])
      · rw [opAt_writeNops_outside (by omega)]
        obtain ⟨j', inDone, range⟩ := erased
        rcases inDone with old | same
        · exact erasing.erased i insideI ⟨j', old, range⟩
        · subst same
          rw [value, notIf] at range
          rcases range with range | ⟨wrong, _⟩
          · exact (within range).elim
          · cases wrong
    · rw [nopFullInstruction, keptValue]
      have outside : i < a ∨ a + opSize (P.opAt a) ≤ i := by
        by_contra within
        exact notErased ⟨j, .inr rfl, .inl (by rw [value]; omega)⟩
      rw [opAt_writeNops_outside outside]
      exact erasing.kept i fun erased => notErased (erased.mono fun _ old => .inl old)

/-! Slots, labels and the whole pass. -/

theorem AllMatched.insert (matched : AllMatched P isLabel done) (member : j ∈ P.jumpSlots)
    (live : 0 < j.size) (here : P.matchSlot P.instrStarts isLabel j = true) :
    AllMatched P isLabel (fun j' => done j' ∨ j' = j) := by
  intro j' inDone
  rcases inDone with old | same
  · exact matched j' old
  · subst same
    exact ⟨member, live, here⟩

theorem Erasing.congr {A E : JumpSlot → Nat} (erasing : Erasing P S A E done)
    (more : JumpSlot → Prop) (same : ∀ j, done j ↔ more j) : Erasing P S A E more := by
  have equal : done = more := funext fun j => propext (same j)
  rwa [← equal]

theorem erasing_applySlots (accurate : P.Accurate) (matched : AllMatched P isLabel done)
    (erasing : ErasingOf P S isLabel done) {slots : List JumpSlot} (distinct : slots.Nodup)
    (here : ∀ j ∈ slots, j ∈ P.jumpSlots ∧ 0 < j.size ∧ ¬ done j ∧
      P.matchSlot P.instrStarts isLabel j = true) :
    ErasingOf P (slots.foldl (applySlot P.instrStarts isLabel) S) isLabel
      (fun j => done j ∨ j ∈ slots) := by
  induction slots generalizing S done with
  | nil => exact erasing.congr _ (by simp)
  | cons j rest ih =>
      have ⟨fresh, distinctRest⟩ := List.nodup_cons.mp distinct
      have ⟨member, live, new, first⟩ := here j (by simp)
      have step := erasing_applySlot accurate matched erasing member live new first
      have run := ih (matched.insert member live first) step distinctRest fun j' inRest => by
        have ⟨member', live', new', match'⟩ := here j' (by simp [inRest])
        refine ⟨member', live', fun old => ?_, match'⟩
        rcases old with old | same
        · exact new' old
        · exact fresh (same ▸ inRest)
      rw [List.foldl_cons]
      exact run.congr _ fun j' => by rw [List.mem_cons, or_assoc]

theorem applySlot_labelSlots (isStart : Nat → Bool) :
    (applySlot isStart isLabel S j).labelSlots = S.labelSlots := by
  unfold applySlot
  split
  · cases S.prevReal isStart isLabel (j.pos - 1).toNat with
    | none =>
        dsimp only
        split <;> rfl
    | some k =>
        dsimp only
        split <;> rfl
  · cases S.prevReal isStart isLabel (j.pos - 1).toNat with
    | none => rfl
    | some k => rfl

theorem applySlots_labelSlots (isLabel isStart : Nat → Bool) (slots : List JumpSlot) :
    (slots.foldl (applySlot isStart isLabel) S).labelSlots = S.labelSlots := by
  induction slots generalizing S with
  | nil => rfl
  | cons j rest ih => rw [List.foldl_cons, ih, applySlot_labelSlots]

theorem Accurate.slotsOf_nodup (accurate : P.Accurate) (label : Nat) : (P.slotsOf label).Nodup := by
  refine List.Pairwise.imp_of_mem ?_ (accurate.distinct.filter _)
  intro a b inA inB distinct same
  have ⟨_, _, live⟩ := mem_slotsOf.mp inA
  subst same
  exact distinct live live rfl

def JumpsTo (P : BcOut) (moved : Nat → Prop) (j : JumpSlot) : Prop :=
  j ∈ P.jumpSlots ∧ 0 < j.size ∧ moved j.label

/-- `R` is `P` after the labels of `moved` were matched and handled. -/
structure Eliminated (P R : BcOut) (isLabel : Nat → Bool) (moved : Nat → Prop) : Prop where
  matched : ∀ l, moved l → P.matchLabel P.instrStarts isLabel l = true
  erasing : ErasingOf P R isLabel (P.JumpsTo moved)
  length : R.labelSlots.length = P.labelSlots.length
  movedSlot : ∀ l, moved l → R.labelSlot l = { P.labelSlot l with addr := P.labelAddr l + 1 }
  keptSlot : ∀ l, ¬ moved l → R.labelSlot l = P.labelSlot l

theorem matchLabel_slots (here : P.matchLabel P.instrStarts isLabel label = true)
    (member : j ∈ P.jumpSlots) (live : 0 < j.size) (same : j.label = label) :
    P.matchSlot P.instrStarts isLabel j = true := by
  simp only [matchLabel, Bool.and_eq_true, List.all_eq_true] at here
  exact here.1.1.1.2 j (mem_slotsOf.mpr ⟨member, same, live⟩)

theorem matchLabel_addr (here : P.matchLabel P.instrStarts isLabel label = true) :
    ∃ L : Nat, P.labelAddr label = L ∧ L < P.size ∧ P.opAt L = opDrop ∧ 0 < P.refCount label := by
  simp only [matchLabel, Bool.and_eq_true, decide_eq_true_eq, beq_iff_eq] at here
  have ⟨⟨⟨⟨⟨⟨⟨low, high⟩, drop⟩, live⟩, _⟩, _⟩, _⟩, _⟩ := here
  exact ⟨(P.labelAddr label).toNat, by omega, by omega, drop, live⟩

theorem Eliminated.allMatched {R : BcOut} {moved : Nat → Prop}
    (elim : Eliminated P R isLabel moved) : AllMatched P isLabel (P.JumpsTo moved) := by
  intro j ⟨member, live, inMoved⟩
  exact ⟨member, live, matchLabel_slots (elim.matched _ inMoved) member live rfl⟩

theorem eliminated_self (P : BcOut) (isLabel : Nat → Bool) :
    Eliminated P P isLabel (fun _ => False) where
  matched _ wrong := wrong.elim
  erasing := {
    size := rfl
    jumpSlots := rfl
    erased := fun _ _ ⟨_, inDone, _⟩ => inDone.2.2.elim
    kept := fun _ _ => rfl }
  length := rfl
  movedSlot _ wrong := wrong.elim
  keptSlot _ _ := rfl

theorem Eliminated.elimLabel {R : BcOut} {moved : Nat → Prop} (accurate : P.Accurate)
    (elim : Eliminated P R isLabel moved) (new : ¬ moved label) :
    ∃ moved', Eliminated P (elimLabel P.instrStarts isLabel R label) isLabel moved' ∧
      ∀ l, moved' l → moved l ∨ l = label := by
  unfold BcOut.elimLabel
  split
  · rename_i here
    have same := elim.keptSlot label new
    have fresh : ∀ j, P.JumpsTo moved j → j.label ≠ label := by
      rintro j ⟨_, _, inMoved⟩ equal
      rw [equal] at inMoved
      exact new inMoved
    have back := matchLabel_back accurate elim.allMatched elim.erasing same fresh here
    have slots : R.slotsOf label = P.slotsOf label := by
      rw [slotsOf, slotsOf, elim.erasing.jumpSlots]
    have labels := applySlots_labelSlots (S := R) isLabel P.instrStarts (P.slotsOf label)
    have run := erasing_applySlots accurate elim.allMatched elim.erasing
      (accurate.slotsOf_nodup label) fun j member => by
        obtain ⟨inSlots, equal, live⟩ := mem_slotsOf.mp member
        exact ⟨inSlots, live, fun old => fresh j old equal,
          matchLabel_slots back inSlots live equal⟩
    obtain ⟨L, addr, _⟩ := matchLabel_addr back
    have bound : label < R.labelSlots.length := by
      rw [elim.length]
      exact label_lt_of_addr addr
    rw [slots]
    dsimp only
    generalize (P.slotsOf label).foldl (applySlot P.instrStarts isLabel) R = Q at run labels
    have slotQ : ∀ l, Q.labelSlot l = R.labelSlot l := fun l => by simp only [labelSlot, labels]
    refine ⟨fun l => moved l ∨ l = label, ?_, fun l inMoved => inMoved⟩
    constructor
    · intro l inMoved
      rcases inMoved with old | equal
      · exact elim.matched l old
      · rw [equal]
        exact back
    · have both := run.congr (P.JumpsTo fun l => moved l ∨ l = label) fun j => by
        rw [mem_slotsOf]
        unfold JumpsTo
        constructor
        · rintro (⟨member, live, old⟩ | ⟨member, equal, live⟩)
          · exact ⟨member, live, .inl old⟩
          · exact ⟨member, live, .inr equal⟩
        · rintro ⟨member, live, old | equal⟩
          · exact .inl ⟨member, live, old⟩
          · exact .inr ⟨member, equal, live⟩
      exact ⟨both.size, both.jumpSlots, both.erased, both.kept⟩
    · change (Q.labelSlots.set label _).length = _
      rw [List.length_set, labels, elim.length]
    · intro l inMoved
      by_cases equal : l = label
      · subst equal
        rw [labelSlot_setLabel_same (by rw [labels]; exact bound), slotQ, labelAddr, same]
      · rw [labelSlot_setLabel_ne equal, slotQ]
        rcases inMoved with old | wrong
        · exact elim.movedSlot l old
        · exact (equal wrong).elim
    · intro l notMoved
      have other : l ≠ label := fun equal => notMoved (.inr equal)
      rw [labelSlot_setLabel_ne other, slotQ]
      exact elim.keptSlot l fun old => notMoved (.inl old)
  · exact ⟨moved, elim, fun l old => .inl old⟩

/-- The pass handles some labels it could match in the code it starts from. -/
theorem deadValueElim_eliminated (accurate : P.Accurate) :
    ∃ moved, Eliminated P P.deadValueElim P.liveLabelTargets moved := by
  unfold deadValueElim
  split
  · exact ⟨_, eliminated_self P _⟩
  · have run : ∀ n, ∃ moved, Eliminated P ((List.range n).foldl
        (elimLabel P.instrStarts P.liveLabelTargets) P) P.liveLabelTargets moved ∧
          ∀ l, moved l → l < n := by
      intro n
      induction n with
      | zero => exact ⟨_, eliminated_self P _, fun l wrong => wrong.elim⟩
      | succ n ih =>
          have ⟨moved, elim, below⟩ := ih
          rw [List.range_succ, List.foldl_append]
          have ⟨moved', elim', old⟩ := elim.elimLabel accurate fun inMoved =>
            Nat.lt_irrefl n (below n inMoved)
          refine ⟨moved', elim', fun l inMoved => ?_⟩
          rcases old l inMoved with before | same
          · have bound := below l before
            omega
          · omega
    have ⟨moved, elim, _⟩ := run P.labelSlots.length
    exact ⟨moved, elim⟩

/-! What is left of the code. -/

namespace Eliminated

variable {R : BcOut} {moved : Nat → Prop} (elim : Eliminated P R isLabel moved)
  (accurate : P.Accurate)

include elim accurate

theorem windows : AllWindows P P.instrStarts isLabel (P.valuePos P.instrStarts isLabel) jumpPos
    (P.windowStop isLabel) (P.JumpsTo moved) :=
  elim.allMatched.windows accurate

theorem starts (start : P.Start q) : R.Start q := by
  have follow : ∀ {a b : Nat}, Decodes P.buf a b → P.Start a → R.Start a → R.Start b := by
    intro a b run
    induction run with
    | done => exact fun _ here => here
    | @instr a b known later ih =>
        intro startP startR
        refine ih (startP.trans (.one known)) ?_
        change R.Start (a + opSize (P.opAt a))
        by_cases erased : ErasedBy P (P.valuePos P.instrStarts isLabel) (P.windowStop isLabel)
            (P.JumpsTo moved) a
        · have ⟨j, inDone, window, here⟩ := erased.start_cases (elim.windows accurate) startP
          have inside := erased.inside accurate (elim.windows accurate)
          rcases here with value | ⟨behind, last⟩
          · have stop := window.room
            have jump := window.slot.inside
            rw [← value] at stop
            refine startR.trans (.nops (by omega) fun i low high => ?_)
            exact elim.erasing.erased i (by omega) ⟨j, inDone, .inl (by rw [← value]; omega)⟩
          · have same : P.windowStop isLabel j - 1 = a := by omega
            have drop := behind.drop
            rw [same] at drop
            rw [drop]
            refine startR.trans (.nops (Nat.le_add_right _ _) fun i low high => ?_)
            change i < a + 1 at high
            have here : i = a := by omega
            rw [here]
            exact elim.erasing.erased a inside erased
        · have kept : R.opAt a = P.opAt a := elim.erasing.kept a erased
          have step : Decodes R.buf a (a + opSize (R.opAt a)) :=
            .one (by unfold opAt at kept; rwa [kept])
          rw [kept] at step
          exact startR.trans step
  exact follow start (.done 0) (.done 0)

/-- The pass keeps jump slots and labels accurate. -/
theorem accurate_after : R.Accurate where
  decodes := by
    rw [elim.erasing.size]
    exact elim.starts accurate accurate.decodes
  slots j member live := by
    rw [elim.erasing.jumpSlots] at member
    have ⟨pos, slot⟩ := accurate.slots j member live
    have kept : R.opAt pos = P.opAt pos := by
      refine elim.erasing.kept pos (not_erased (elim.windows accurate) slot.start ?_ fun drop => ?_)
      · by_contra value
        have known := accurate.known slot.start slot.inside
        have plain := (isDeadValueOp_spec _ known (by simpa using value)).1
        rw [slot.op, slot.jump] at plain
        cases plain
      · have jump := slot.jump
        rw [← slot.op, drop] at jump
        cases jump
    exact ⟨pos, {
      start := elim.starts accurate slot.start
      inside := elim.erasing.size ▸ slot.inside
      op := kept.trans slot.op
      jump := slot.jump
      width := slot.width
      operand := slot.operand }⟩
  distinct := by
    rw [elim.erasing.jumpSlots]
    exact accurate.distinct
  targets j member live := by
    rw [elim.erasing.jumpSlots] at member
    have ⟨pos, addr, start, inside⟩ := accurate.targets j member live
    by_cases inMoved : moved j.label
    · have ⟨L, addrL, insideL, drop, _⟩ := matchLabel_addr (elim.matched _ inMoved)
      have same : pos = L := by omega
      subst same
      have next := accurate.next start insideL
      rw [drop] at next
      refine ⟨pos + 1, ?_, elim.starts accurate next, elim.erasing.size ▸ insideL⟩
      rw [labelAddr, elim.movedSlot _ inMoved, addr]
      rfl
    · refine ⟨pos, ?_, elim.starts accurate start, elim.erasing.size ▸ inside⟩
      rw [labelAddr, elim.keptSlot _ inMoved]
      exact addr
  counts label bound := by
    rw [elim.length] at bound
    have counted := accurate.counts label bound
    have refs : R.refCount label = P.refCount label := by
      by_cases inMoved : moved label
      · rw [refCount, elim.movedSlot _ inMoved]
      · rw [refCount, elim.keptSlot _ inMoved]
    rw [refs, counted, liveCount, liveCount, elim.erasing.jumpSlots]

/-- Outside the windows the instructions are the same. -/
theorem code_eq (start : P.Start q)
    (kept : ∀ i, q ≤ i → i < q + opSize (P.opAt q) → ¬ ErasedBy P (P.valuePos P.instrStarts isLabel)
      (P.windowStop isLabel) (P.JumpsTo moved) i)
    (other : ∀ j, P.JumpsTo moved j → jumpPos j ≠ q) : R.code q = P.code q := by
  by_cases inside : q < P.size
  · refine code_congr elim.erasing.size (accurate.known start inside)
      (fun i low high => elim.erasing.kept i (kept i low high)) ?_
    have positive := accurate.size_pos start inside
    have op : R.opAt q = P.opAt q := elim.erasing.kept q (kept q (Nat.le_refl q) (by omega))
    have slots : R.slotAt = P.slotAt := by
      funext i
      rw [slotAt, slotAt, elim.erasing.jumpSlots]
    unfold target
    rw [op, slots]
    split
    · rename_i label
      cases found : P.slotAt (q + labelOffset (P.opAt q)) with
      | none => rfl
      | some j =>
          have slot := accurate.slotAt_slot start inside label found
          obtain ⟨member, live, _⟩ := slotAt_eq_some found
          have notMoved : ¬ moved j.label := by
            intro inMoved
            have jumps : P.JumpsTo moved j := ⟨member, live, inMoved⟩
            obtain ⟨_, _, window⟩ := elim.windows accurate j jumps
            have operand := window.slot.operand
            rw [slot.operand] at operand
            exact other j jumps (by omega)
          simp only [Option.bind_some, slotTarget, labelAddr, elim.keptSlot _ notMoved]
    · rfl
  · rw [code, code, elim.erasing.size, if_neg inside, if_neg inside]

end Eliminated

end PrimJs.BcOut
