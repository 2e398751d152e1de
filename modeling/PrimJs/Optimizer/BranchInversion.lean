import PrimJs.Optimizer.Window

/-! `opt_branch_inversion`. -/

namespace PrimJs

open TraceSimulation

namespace BcOut

/-- `find_jump_slot`: the live slot whose operand follows the opcode at `pos`. -/
def findJumpSlot (P : BcOut) (posToJp : Nat → Option Nat) (pos : Nat) : Option Nat :=
  if P.size ≤ pos + 1 then none else posToJp (pos + 1)

def invertedIf? (op : Nat) : Option (Nat × Nat) :=
  if op = opIfFalse then some (opIfTrue, 5)
  else if op = opIfTrue then some (opIfFalse, 5)
  else if op = opIfFalse8 then some (opIfTrue8, 2)
  else if op = opIfTrue8 then some (opIfFalse8, 2)
  else none

/-- `lnot if_x` becomes `nop if_inv`. -/
def invertLnot (P : BcOut) (posToJp : Nat → Option Nat) (p nr inverted : Nat) : BcOut :=
  let P := (P.write p opNop).write nr inverted
  match P.findJumpSlot posToJp nr with
  | some k => P.setJp k { P.jp k with op := inverted }
  | none => P

/-- Part 1, the scan for `lnot if_x`; every round moves on by an instruction. -/
def invertLnots (isLabelTarget : Nat → Bool) (posToJp : Nat → Option Nat) :
    Nat → BcOut → Nat → BcOut
  | 0, P, _ => P
  | fuel + 1, P, p =>
      if P.size ≤ p then P
      else
        let sz := opSize (P.opAt p)
        if sz = 0 then P
        else
          let nextP := p + sz
          let nr := P.skipNops isLabelTarget nextP
          match if P.opAt p = opLnot then invertedIf? (P.opAt nr) else none with
          | some (inverted, ifSize) =>
              if nr + ifSize ≤ P.size ∧ isLabelTarget nr = false then
                invertLnots isLabelTarget posToJp fuel (P.invertLnot posToJp p nr inverted)
                  (nr + ifSize)
              else invertLnots isLabelTarget posToJp fuel P nextP
          | none => invertLnots isLabelTarget posToJp fuel P nextP

def gotoSize (op : Nat) : Nat :=
  if op = opGoto8 then 2 else if op = opGoto16 then 3 else if op = opGoto then 5 else 0

structure IfGoto where
  ifPos : Nat
  gotoPos : Nat
  gotoSize : Nat
  gotoSlot : Nat
  newOp : Nat
  deriving DecidableEq, Repr

/-- The tests of part 2 on slot `j`: an `if_x` that jumps just past the `goto` behind it. -/
def findIfGoto (P : BcOut) (posToJp : Nat → Option Nat) (j : Nat) : Option IfGoto :=
  let jpIf := P.jp j
  if jpIf.size = 0 then none
  else match invertedIf? jpIf.op with
    | none => none
    | some (newOp, ifSize) =>
        let ifPos := (jpIf.pos - 1).toNat
        let gotoPos := ifPos + (1 + jpIf.size)
        if P.size ≤ gotoPos then none
        else
          let size := gotoSize (P.opAt gotoPos)
          if size = 0 then none
          else if P.labelAddr jpIf.label ≠ (gotoPos + size : Nat) then none
          else match (if gotoPos + 1 < P.size then posToJp (gotoPos + 1) else none) with
            | none => none
            | some gotoSlot =>
                -- an 8-bit `if` is kept only while the new offset fits
                let newDiff := P.labelAddr (P.jp gotoSlot).label - jpIf.pos
                if ifSize = 2 ∧ (newDiff < -128 ∨ 127 < newDiff) then none
                else some ⟨ifPos, gotoPos, size, gotoSlot, newOp⟩

def invertIfGoto (P : BcOut) (j : Nat) (m : IfGoto) : BcOut :=
  let jpIf := P.jp j
  let jpGoto := P.jp m.gotoSlot
  let P := (P.write m.ifPos m.newOp).writeNops m.gotoPos m.gotoSize
  let P := P.setJp j { jpIf with op := m.newOp, label := jpGoto.label }
  let P := P.setJp m.gotoSlot { P.jp m.gotoSlot with size := 0, op := opNop }
  P.decRef jpIf.label

/-- Part 2 on the slots from `j` on. -/
def invertIfGotos : Nat → Nat → BcOut → (Nat → Option Nat) → BcOut
  | 0, _, P, _ => P
  | count + 1, j, P, posToJp =>
      match P.findIfGoto posToJp j with
      | some m =>
          invertIfGotos count (j + 1) (P.invertIfGoto j m)
            (Function.update posToJp (P.jp m.gotoSlot).pos.toNat none)
      | none => invertIfGotos count (j + 1) P posToJp

def branchInversion (P : BcOut) : BcOut :=
  if P.size = 0 then P
  else
    let Q := invertLnots P.liveLabelTargets P.posToJp P.size P 0
    invertIfGotos Q.jumpSlots.length 0 Q P.posToJp

/-! Part 1 keeps the behaviour. -/

theorem invertedIf_spec {op inverted size : Nat} (found : invertedIf? op = some (inverted, size)) :
    opSize op = size ∧ opSize inverted = size ∧ inverted < opCount ∧ hasLabelOperand op ∧
      hasLabelOperand inverted ∧ labelWidth inverted = labelWidth op ∧ labelOffset op = 1 ∧
      labelOffset inverted = 1 ∧ size = 1 + labelWidth op ∧ 0 < labelWidth op ∧
      ∃ taken, ∀ operands, actionOf op operands = .jumpIf taken ∧
        actionOf inverted operands = .jumpIf (!taken) := by
  unfold invertedIf? at found
  split_ifs at found with isFalse isTrue isFalse8 isTrue8
  · cases found
    subst isFalse
    exact ⟨rfl, rfl, by decide, rfl, rfl, rfl, rfl, rfl, rfl, by decide, false, fun _ => ⟨rfl, rfl⟩⟩
  · cases found
    subst isTrue
    exact ⟨rfl, rfl, by decide, rfl, rfl, rfl, rfl, rfl, rfl, by decide, true, fun _ => ⟨rfl, rfl⟩⟩
  · cases found
    subst isFalse8
    exact ⟨rfl, rfl, by decide, rfl, rfl, rfl, rfl, rfl, rfl, by decide, false, fun _ => ⟨rfl, rfl⟩⟩
  · cases found
    subst isTrue8
    exact ⟨rfl, rfl, by decide, rfl, rfl, rfl, rfl, rfl, rfl, by decide, true, fun _ => ⟨rfl, rfl⟩⟩

/-- `lnot`, `nop`s without a label and a conditional jump without one. -/
structure LnotIf (P : BcOut) (p nr inverted size : Nat) : Prop where
  start : P.Start p
  inside : p < P.size
  lnot : P.opAt p = opLnot
  order : p + 1 ≤ nr
  gap : ∀ q, p + 1 ≤ q → q < nr → q < P.size ∧ P.opAt q = opNop ∧ P.liveLabelTargets q = false
  found : invertedIf? (P.opAt nr) = some (inverted, size)
  room : nr + size ≤ P.size
  free : P.liveLabelTargets nr = false

variable {P : BcOut} {posToJp : Nat → Option Nat} {p nr inverted size : Nat}

namespace LnotIf

variable (window : LnotIf P p nr inverted size)

include window

theorem startIf : P.Start nr := by
  have one : p + opSize (P.opAt p) = p + 1 := by rw [window.lnot]; rfl
  have next : Decodes P.buf 0 (p + opSize (P.opAt p)) :=
    window.start.trans (.one (by have lnot := window.lnot; unfold opAt at lnot; rw [lnot]; decide))
  rw [one] at next
  exact next.trans (.nops window.order fun q low high => (window.gap q low high).2.1)

theorem size_pos : 0 < size := by
  have ⟨_, _, _, _, _, _, _, _, width, positive, _⟩ := invertedIf_spec window.found
  omega

theorem insideIf : nr < P.size := by
  have room := window.room
  have positive := window.size_pos
  omega

theorem edit_lnot (accurate : P.Accurate) :
    SegmentEdit P (P.write p opNop) p (p + 1) := by
  have edit := segmentEdit_write opNop accurate window.start window.inside (by decide)
    (by rw [window.lnot]; rfl)
  rwa [window.lnot] at edit

theorem accurate_lnot (accurate : P.Accurate) : (P.write p opNop).Accurate := by
  refine accurate.edit_plain (window.edit_lnot accurate) rfl rfl ?_ ?_
  · intro j _ _ q slot
    have other := slot.ne_of_plain (q := p) (by rw [window.lnot]; rfl)
    omega
  · intro q low high
    omega

theorem opAt_if : (P.write p opNop).opAt nr = P.opAt nr :=
  opAt_write_ne (by have order := window.order; omega)

theorem edit_if (accurate : P.Accurate) :
    SegmentEdit (P.write p opNop) ((P.write p opNop).write nr inverted) nr (nr + size) := by
  have ⟨sizeOld, sizeNew, known, _⟩ := invertedIf_spec window.found
  have inside := window.insideIf
  have start : (P.write p opNop).Start nr :=
    (window.edit_lnot accurate).keeps_start window.startIf (.inr window.order)
  have edit := segmentEdit_write inverted (window.accurate_lnot accurate) start
    (by rwa [write_size]) known (by rw [window.opAt_if, sizeNew, sizeOld])
  rwa [window.opAt_if, sizeOld] at edit

end LnotIf

section

variable (P : BcOut) (posToJp : Nat → Option Nat) (p nr inverted : Nat)

theorem invertLnot_buf :
    (P.invertLnot posToJp p nr inverted).buf = ((P.write p opNop).write nr inverted).buf := by
  unfold invertLnot
  dsimp only
  split <;> rfl

theorem invertLnot_labelSlots : (P.invertLnot posToJp p nr inverted).labelSlots = P.labelSlots := by
  unfold invertLnot
  dsimp only
  split <;> rfl

end

theorem findJumpSlot_eq {pos : Nat} (inside : pos + 1 < P.size) :
    P.findJumpSlot posToJp pos = posToJp (pos + 1) := by
  rw [findJumpSlot, if_neg (by omega)]

theorem LnotIf.accurate_after (window : LnotIf P p nr inverted size) (accurate : P.Accurate)
    (map : P.JumpMap posToJp) : (P.invertLnot posToJp p nr inverted).Accurate := by
  have ⟨sizeOld, sizeNew, known, label, label', width, offset, offset', room', positive, _⟩ :=
    invertedIf_spec window.found
  have room := window.room
  have accurate' := window.accurate_lnot accurate
  have start : (P.write p opNop).Start nr :=
    (window.edit_lnot accurate).keeps_start window.startIf (.inr window.order)
  have edit := window.edit_if accurate
  have lookup : ((P.write p opNop).write nr inverted).findJumpSlot posToJp nr = posToJp (nr + 1) :=
    findJumpSlot_eq (by simp only [write_size]; omega)
  have here : ((P.write p opNop).write nr inverted).opAt nr = inverted :=
    opAt_write_same (by rw [write_size]; exact window.insideIf) (Nat.lt_trans known (by decide))
  unfold invertLnot
  dsimp only
  rw [lookup]
  cases found : posToJp (nr + 1) with
  | none =>
      refine accurate'.edit_plain edit rfl rfl ?_ ?_
      · intro j member live q slot
        by_contra within
        have after : nr ≤ q := by omega
        have same : q = nr := by
          by_contra other
          have fits := start.next_le slot.start (by omega)
          have op := window.opAt_if
          unfold opAt at op
          rw [op] at fits
          unfold opAt at sizeOld
          omega
        subst same
        have ⟨k, _, slotK⟩ := exists_jp member
        subst slotK
        have operand := slot.operand
        rw [← slot.op, window.opAt_if, offset] at operand
        have mapped := (map (q + 1) k).mpr ⟨live, operand⟩
        rw [found] at mapped
        cases mapped
      · intro q low high startQ
        have fits := start.next_le startQ low
        have op := window.opAt_if
        unfold opAt at op sizeOld
        rw [op] at fits
        omega
  | some k =>
      have ⟨live, operand⟩ := (map (nr + 1) k).mp found
      have slot : (P.write p opNop).SlotAccurate ((P.write p opNop).jp k) nr :=
        accurate'.slot_of_pos start live operand
      have opK : (P.jp k).op = P.opAt nr := slot.op.symm.trans window.opAt_if
      have edit' := edit.of_buf (((P.write p opNop).write nr inverted).setJp k
        { P.jp k with op := inverted }) rfl
      have span : nr + opSize ((P.write p opNop).opAt nr) = nr + size := by
        rw [window.opAt_if, sizeOld]
      refine accurate'.edit_slot live slot (span ▸ edit') rfl (fun _ => ⟨?_, rfl, ?_⟩)
        (fun _ => rfl) rfl ?_
      · have width' : (P.jp k).size = labelWidth inverted := by
          have width'' := slot.width
          rw [slot.op.symm, window.opAt_if] at width''
          rw [width]
          exact width''
        exact {
          start := edit'.keeps_start start (.inl (Nat.le_refl _))
          inside := by
            have inside := window.insideIf
            simpa using inside
          op := here
          jump := label'
          width := width'
          operand := by
            rw [offset']
            exact operand }
      · exact accurate'.jumpTarget live
      · intro l _
        have alive : 0 < (((P.write p opNop).write nr inverted).jp k).size := live
        simp only [alive, true_and]
        rfl

theorem invertLnot_opAt {i : Nat} (first : i ≠ p) (second : i ≠ nr) :
    (P.invertLnot posToJp p nr inverted).opAt i = P.opAt i := by
  rw [opAt, invertLnot_buf]
  exact (opAt_write_ne second).trans (opAt_write_ne first)

theorem invertLnot_size : (P.invertLnot posToJp p nr inverted).size = P.size := by
  rw [BcOut.size, invertLnot_buf]
  exact (write_size _ _ _).trans (write_size _ _ _)

theorem invertLnot_target (q : Nat) : (P.invertLnot posToJp p nr inverted).target q =
    ((P.write p opNop).write nr inverted).target q := by
  unfold invertLnot
  dsimp only
  split
  · exact target_setJp _ rfl rfl rfl
  · rfl

theorem target_of_label {q : Nat} (label : hasLabelOperand (P.opAt q))
    (offset : labelOffset (P.opAt q) = 1) :
    P.target q = (P.slotAt (q + 1)).bind P.slotTarget := by
  rw [target, if_pos label, offset]

namespace LnotIf

variable (window : LnotIf P p nr inverted size)

include window

theorem opAt_lnot : (P.invertLnot posToJp p nr inverted).opAt p = opNop := by
  have order := window.order
  have here : ((P.write p opNop).write nr inverted).opAt p = opNop := by
    rw [opAt_write_ne (by omega)]
    exact opAt_write_same window.inside (by decide)
  rw [opAt, invertLnot_buf]
  exact here

theorem opAt_inverted : (P.invertLnot posToJp p nr inverted).opAt nr = inverted := by
  have ⟨_, _, known, _⟩ := invertedIf_spec window.found
  have here : ((P.write p opNop).write nr inverted).opAt nr = inverted :=
    opAt_write_same (by rw [write_size]; exact window.insideIf) (Nat.lt_trans known (by decide))
  rw [opAt, invertLnot_buf]
  exact here

theorem target_if : (P.invertLnot posToJp p nr inverted).target nr = P.target nr := by
  have ⟨_, _, _, label, label', _, offset, offset', _⟩ := invertedIf_spec window.found
  have here : (P.invertLnot posToJp p nr inverted).opAt nr = inverted := window.opAt_inverted
  rw [opAt, invertLnot_buf] at here
  rw [invertLnot_target, target_of_label label offset, target_of_label]
  · rfl
  · exact (congrArg (fun op => hasLabelOperand op = true) here).mpr label'
  · exact (congrArg labelOffset here).trans offset'

theorem windowEdit (accurate : P.Accurate) :
    WindowEdit P (P.invertLnot posToJp p nr inverted) p (nr + size) where
  size := invertLnot_size
  start := window.start
  stop := by
    have ⟨sizeOld, _⟩ := invertedIf_spec window.found
    have next := accurate.next window.startIf window.insideIf
    rwa [sizeOld] at next
  inside := window.room
  unlabelled q low high start := by
    by_cases before : q < nr
    · exact (window.gap q (by omega) before).2.2
    · by_cases after : nr < q
      · have ⟨sizeOld, _⟩ := invertedIf_spec window.found
        have fits := window.startIf.next_le start after
        unfold opAt at sizeOld
        omega
      · have same : q = nr := by omega
        rw [same]
        exact window.free
  same q start inside outside := by
    have order := window.order
    have positive := window.size_pos
    have known := accurate.known start inside
    have atStart := accurate.size_pos start inside
    have bytes : ∀ i, q ≤ i → i < q + opSize (P.opAt q) →
        (P.invertLnot posToJp p nr inverted).opAt i = P.opAt i := by
      intro i low high
      rcases outside with before | after
      · have fits := start.next_le window.start before
        unfold opAt at high
        exact invertLnot_opAt (by omega) (by omega)
      · exact invertLnot_opAt (by omega) (by omega)
    refine code_congr invertLnot_size known bytes ?_
    rw [invertLnot_target]
    refine target_congr ?_ rfl rfl
    have op := bytes q (Nat.le_refl _) (by omega)
    rwa [opAt, invertLnot_buf] at op

end LnotIf

/-- On both sides the test of the operand decides, and it is negated twice. -/
theorem matched_lnot {V W : Type} (M : Machine V W) {code code' : Code} {visible : Nat → Prop}
    {i i' j j' : Instr} (taken : Bool) (order : p + 1 ≤ nr)
    (lnot : code p = some i) (lnotAction : i.action = .lnot) (lnotSize : i.size = 1)
    (nop : code' p = some i') (nopAction : i'.action = .nop) (nopSize : i'.size = 1)
    (gap : ∀ q, p + 1 ≤ q → q < nr → ∃ i, code q = some i ∧ i.action = .nop ∧ i.size = 1)
    (gap' : ∀ q, p + 1 ≤ q → q < nr → ∃ i, code' q = some i ∧ i.action = .nop ∧ i.size = 1)
    (test : code nr = some j) (testAction : j.action = .jumpIf taken)
    (test' : code' nr = some j') (testAction' : j'.action = .jumpIf (!taken))
    (sizes : j'.size = j.size) (targets : j'.target = j.target)
    (next : visible (nr + j.size)) (jump : ∀ pos, j.target = some pos → visible pos)
    {s : State V W} (here : s.pc = p) (within : ∀ e ∈ s.stack, e.Within visible) :
    Matched (M.step code) (M.step code') (State.Within visible) (fun _ => True) s := by
  have ⟨pc, stack, w⟩ := s
  dsimp only at here within
  subst here
  have ahead : Path (M.step code') (fun _ => True) (1 + (nr - (pc + 1))) ⟨pc, stack, w⟩ []
      ⟨nr, stack, w⟩ := by
    have first : M.step code' ⟨pc, stack, w⟩ = .running [] ⟨pc + 1, stack, w⟩ := by
      rw [step_nop M nop nopAction, nopSize]
    exact (Path.single first trivial).append
      (path_nops M _ _ _ _ order gap' fun _ _ _ => trivial)
  have stuck : (∀ v rest, stack ≠ .value v :: rest) →
      M.step code' ⟨nr, stack, w⟩ = M.step code ⟨pc, stack, w⟩ := by
    intro none
    simp only [Machine.step, lnot, test', Machine.execute, lnotAction, testAction']
    rcases stack with _ | ⟨_ | _ | _, rest⟩
    · rfl
    · exact (none _ _ rfl).elim
    · rfl
    · rfl
  rcases stack with _ | ⟨v | pos | pos, rest⟩
  · exact matched_of_meet (.refl _) ahead trivial (stuck (by simp)) fun events t run => by
      simp only [Machine.step, lnot, Machine.execute, lnotAction] at run
      cases run
  · have first : M.step code ⟨pc, .value v :: rest, w⟩ =
        .running [] ⟨pc + 1, .value (M.lnot v w).1 :: rest, (M.lnot v w).2⟩ := by
      simp only [Machine.step, lnot, Machine.execute, lnotAction, lnotSize]
    have behind := (Path.free first).append
      (path_nops M _ _ _ _ order gap fun _ _ _ => trivial)
    refine matched_of_meet behind ahead trivial ?_ fun events t run => ?_
    · rw [step_jumpIf M test testAction, step_jumpIf M test' testAction', M.test_lnot, sizes,
        targets]
      cases (M.test v w).1 <;> cases taken <;> rfl
    · refine M.step_within test (fun e member => ?_) (fun _ => next) jump run
      rcases List.mem_cons.mp member with same | later
      · rw [same]
        trivial
      · exact within e (by simp [later])
  · exact matched_of_meet (.refl _) ahead trivial (stuck (by simp)) fun events t run => by
      simp only [Machine.step, lnot, Machine.execute, lnotAction] at run
      cases run
  · exact matched_of_meet (.refl _) ahead trivial (stuck (by simp)) fun events t run => by
      simp only [Machine.step, lnot, Machine.execute, lnotAction] at run
      cases run

theorem LnotIf.sameBehaviour (window : LnotIf P p nr inverted size) (accurate : P.Accurate)
    {V W : Type} (M : Machine V W) (w : W) :
    TraceSimulation.SameBehaviour (M.step P.code)
      (M.step (P.invertLnot posToJp p nr inverted).code) (Machine.entry w) := by
  have ⟨sizeOld, sizeNew, _, _, _, _, _, _, _, _, taken, actions⟩ := invertedIf_spec window.found
  have edit : WindowEdit P (P.invertLnot posToJp p nr inverted) p (nr + size) :=
    window.windowEdit accurate
  refine edit.sameBehaviour accurate M w fun s here within => ?_
  have insideIf := window.insideIf
  have sizeAfter : (P.invertLnot posToJp p nr inverted).size = P.size := invertLnot_size
  have testHere := code_inside insideIf
  have insideAfter : nr < (P.invertLnot posToJp p nr inverted).size := by rwa [sizeAfter]
  have testHere' := code_inside insideAfter
  refine matched_lnot M taken window.order (code_inside window.inside) ?_ ?_
    (code_inside (by rw [sizeAfter]; exact window.inside)) ?_ ?_ ?_ ?_ testHere
    ?_ testHere' ?_ ?_ ?_ ?_ ?_ here within.stack
  · change actionOf (P.opAt p) _ = _
    rw [window.lnot, actionOf_lnot]
  · change opSize (P.opAt p) = 1
    rw [window.lnot]
    rfl
  · change actionOf (opAt _ p) _ = _
    rw [window.opAt_lnot, actionOf_nop]
  · change opSize (opAt _ p) = 1
    rw [window.opAt_lnot]
    rfl
  · intro q low high
    have ⟨inside, nop, _⟩ := window.gap q low high
    exact code_nop inside nop
  · intro q low high
    have ⟨inside, nop, _⟩ := window.gap q low high
    refine code_nop (by rwa [sizeAfter]) ?_
    rw [invertLnot_opAt (by omega) (by omega)]
    exact nop
  · exact (actions _).1
  · change actionOf (opAt _ nr) _ = _
    rw [window.opAt_inverted]
    exact (actions _).2
  · change opSize (opAt _ nr) = opSize (P.opAt nr)
    rw [window.opAt_inverted, sizeNew, sizeOld]
  · exact window.target_if
  · change P.Outside p (nr + size) (nr + opSize (P.opAt nr))
    rw [sizeOld]
    exact ⟨edit.stop, by omega⟩
  · intro pos jump
    have ⟨start, live⟩ := accurate.target_live testHere jump
    refine ⟨start, fun ⟨after, before⟩ => ?_⟩
    have labelled := live (Nat.lt_of_lt_of_le before edit.inside)
    rw [edit.unlabelled pos after before start] at labelled
    cases labelled

/-! Part 2 keeps the behaviour where no live label stands on the erased `goto`. -/

theorem gotoSize_spec {op : Nat} (found : gotoSize op ≠ 0) : opSize op = gotoSize op ∧
    op < opCount ∧ hasLabelOperand op ∧ labelOffset op = 1 ∧
      ∀ operands, actionOf op operands = .goto := by
  unfold gotoSize at found ⊢
  split_ifs at found ⊢ with short medium long
  · subst short
    exact ⟨rfl, by decide, rfl, rfl, fun _ => rfl⟩
  · subst medium
    exact ⟨rfl, by decide, rfl, rfl, fun _ => rfl⟩
  · subst long
    exact ⟨rfl, by decide, rfl, rfl, fun _ => rfl⟩
  · exact (found rfl).elim

/-- `if_x L1; goto L2; L1:` with the slots of both jumps. -/
structure IfGotoAt (P : BcOut) (j : Nat) (m : IfGoto) (ifSize : Nat) : Prop where
  liveIf : 0 < (P.jp j).size
  slotIf : P.SlotAccurate (P.jp j) m.ifPos
  found : invertedIf? (P.opAt m.ifPos) = some (m.newOp, ifSize)
  gotoPos : m.gotoPos = m.ifPos + ifSize
  gotoSize : m.gotoSize = BcOut.gotoSize (P.opAt m.gotoPos)
  isGoto : m.gotoSize ≠ 0
  addr : P.labelAddr (P.jp j).label = (m.gotoPos + m.gotoSize : Nat)
  liveGoto : 0 < (P.jp m.gotoSlot).size
  slotGoto : P.SlotAccurate (P.jp m.gotoSlot) m.gotoPos

variable {j : Nat} {R : BcOut} {m : IfGoto}

theorem findIfGoto_spec (accurate : P.Accurate) (map : P.JumpMap posToJp)
    (found : P.findIfGoto posToJp j = some m) : ∃ ifSize, IfGotoAt P j m ifSize := by
  unfold findIfGoto at found
  dsimp only at found
  split at found
  · cases found
  · rename_i nonzero
    have live : 0 < (P.jp j).size := Nat.pos_of_ne_zero nonzero
    cases opposite : invertedIf? (P.jp j).op with
    | none =>
        rw [opposite] at found
        cases found
    | some pair =>
        have ⟨newOp, ifSize⟩ := pair
        rw [opposite] at found
        dsimp only at found
        have ⟨_, _, _, _, _, _, offset, _, room, _, _⟩ := invertedIf_spec opposite
        have ⟨pos, slot⟩ := accurate.slot live
        have operand := slot.operand
        rw [offset] at operand
        have ifPos : ((P.jp j).pos - 1).toNat = pos := by omega
        have width : 1 + (P.jp j).size = ifSize := by rw [slot.width, room]
        rw [ifPos, width] at found
        split_ifs at found with outside notGoto otherTarget short
        · cases lookup : posToJp (pos + ifSize + 1) with
          | none =>
              rw [lookup] at found
              cases found
          | some gotoSlot =>
              rw [lookup] at found
              dsimp only at found
              split at found
              · cases found
              · cases found
                have ⟨liveGoto, operandGoto⟩ := (map _ _).mp lookup
                have next := accurate.next slot.start slot.inside
                have opIf := slot.op
                have ⟨sizeOld, _⟩ := invertedIf_spec opposite
                rw [opIf, sizeOld] at next
                exact ⟨ifSize, {
                  liveIf := live
                  slotIf := slot
                  found := by rw [opIf]; exact opposite
                  gotoPos := rfl
                  gotoSize := rfl
                  isGoto := notGoto
                  addr := not_not.mp otherTarget
                  liveGoto := liveGoto
                  slotGoto := accurate.slot_of_pos next liveGoto operandGoto }⟩

namespace IfGotoAt

variable {j ifSize : Nat} {m : IfGoto} (window : IfGotoAt P j m ifSize)

include window

theorem distinct : j ≠ m.gotoSlot := by
  intro same
  have ⟨_, _, _, _, _, _, offset, _, room, positive, _⟩ := invertedIf_spec window.found
  have operand := window.slotIf.operand
  have operandGoto := window.slotGoto.operand
  have ⟨_, _, _, offsetGoto, _⟩ :=
    gotoSize_spec (window.gotoSize ▸ window.isGoto : BcOut.gotoSize (P.opAt m.gotoPos) ≠ 0)
  rw [← window.slotIf.op, offset] at operand
  rw [← window.slotGoto.op, offsetGoto, ← same, operand, window.gotoPos] at operandGoto
  omega

theorem opSize_goto : opSize (P.opAt m.gotoPos) = m.gotoSize := by
  have nonzero := window.isGoto
  rw [window.gotoSize] at nonzero ⊢
  exact (gotoSize_spec nonzero).1

theorem opSize_if : opSize (P.opAt m.ifPos) = ifSize := (invertedIf_spec window.found).1

theorem killed (accurate : P.Accurate) : ((P.nopFullInstruction m.gotoPos).setJp m.gotoSlot
    { P.jp m.gotoSlot with size := 0, op := opNop } |>.decRef (P.jp m.gotoSlot).label).Accurate := by
  have edit := segmentEdit_nops accurate window.slotGoto.start window.slotGoto.inside
  exact accurate.edit_kill window.liveGoto window.slotGoto (edit.of_buf _ rfl) rfl rfl rfl

theorem invert_buf : (P.invertIfGoto j m).buf =
    ((P.nopFullInstruction m.gotoPos).write m.ifPos m.newOp).buf := by
  have order : m.ifPos < m.gotoPos := by
    have ⟨_, _, _, _, _, _, _, _, room, positive, _⟩ := invertedIf_spec window.found
    have behind := window.gotoPos
    omega
  have filled : fillNops (putU8 P.buf m.ifPos m.newOp) m.gotoPos m.gotoSize =
      putU8 (fillNops P.buf m.gotoPos m.gotoSize) m.ifPos m.newOp := fillNops_putU8 order
  change fillNops _ _ _ = putU8 (fillNops _ _ _) _ _
  rw [window.opSize_goto]
  exact filled

theorem invert_jumpSlots : (P.invertIfGoto j m).jumpSlots =
    (P.jumpSlots.set m.gotoSlot { P.jp m.gotoSlot with size := 0, op := opNop }).set j
      { P.jp j with op := m.newOp, label := (P.jp m.gotoSlot).label } := by
  rw [List.set_comm _ _ window.distinct.symm]
  change (List.set _ _ { BcOut.jp (BcOut.setJp _ _ _) m.gotoSlot with size := 0, op := opNop }) = _
  rw [jp_setJp_ne window.distinct.symm]
  rfl

omit window in
theorem invert_labelAddr (label : Nat) :
    (P.invertIfGoto j m).labelAddr label = P.labelAddr label :=
  decRef_labelAddr _ _ _

omit window in
theorem invert_refCount {label : Nat} (bound : label < P.labelSlots.length) :
    (P.invertIfGoto j m).refCount label =
      P.refCount label - (if (P.jp j).label = label then 1 else 0) :=
  refCount_decRef (P := { P.invertIfGoto j m with labelSlots := P.labelSlots }) _ bound

theorem invert_jp_if : (P.invertIfGoto j m).jp j =
    { P.jp j with op := m.newOp, label := (P.jp m.gotoSlot).label } := by
  have bound := jp_live_lt window.liveIf
  rw [jp, window.invert_jumpSlots, List.getElem?_set_self (by simpa using bound)]
  rfl

theorem invert_jp_goto : (P.invertIfGoto j m).jp m.gotoSlot =
    { P.jp m.gotoSlot with size := 0, op := opNop } := by
  have bound := jp_live_lt window.liveGoto
  rw [jp, window.invert_jumpSlots, List.getElem?_set_ne window.distinct,
    List.getElem?_set_self bound]
  rfl

theorem invert_jp_other {k : Nat} (notIf : k ≠ j) (notGoto : k ≠ m.gotoSlot) :
    (P.invertIfGoto j m).jp k = P.jp k := by
  rw [jp, window.invert_jumpSlots, List.getElem?_set_ne notIf.symm,
    List.getElem?_set_ne notGoto.symm]
  rfl

theorem accurate_after (accurate : P.Accurate) : (P.invertIfGoto j m).Accurate := by
  obtain ⟨sizeOld, sizeNew, known, label, label', width, offset, offset', room, positive, _⟩ :=
    invertedIf_spec window.found
  have killed := window.killed accurate
  have edit := segmentEdit_nops accurate window.slotGoto.start window.slotGoto.inside
  have behind := window.gotoPos
  have bound := jp_live_lt window.liveIf
  have before : m.ifPos ≤ m.gotoPos := by omega
  have startIf : (P.nopFullInstruction m.gotoPos).Start m.ifPos :=
    edit.keeps_start window.slotIf.start (.inl before)
  have opIf : (P.nopFullInstruction m.gotoPos).opAt m.ifPos = P.opAt m.ifPos :=
    edit.same _ (.inl (by omega))
  have inside : m.ifPos < (P.nopFullInstruction m.gotoPos).size := by
    rw [edit.size]
    exact window.slotIf.inside
  have editIf := (segmentEdit_write m.newOp killed startIf inside known
    (sizeNew.trans (sizeOld.symm.trans (congrArg opSize opIf.symm)))).of_buf
    (P.invertIfGoto j m) window.invert_buf
  -- the slot of the `if` after the `goto` is gone
  have jpIf : ((P.nopFullInstruction m.gotoPos).setJp m.gotoSlot
      { P.jp m.gotoSlot with size := 0, op := opNop } |>.decRef (P.jp m.gotoSlot).label).jp j =
      P.jp j := jp_setJp_ne (P := P.nopFullInstruction m.gotoPos) window.distinct _
  have opNew : (P.invertIfGoto j m).opAt m.ifPos = m.newOp := by
    rw [opAt, window.invert_buf]
    exact opAt_write_same inside (Nat.lt_trans known (by decide))
  refine killed.edit_slot (k := j) (by rw [jpIf]; exact window.liveIf) ?_ editIf
    window.invert_jumpSlots (fun _ => ⟨?_, by rw [jpIf], ?_⟩) ?_ ?_ ?_
  · rw [jpIf]
    exact {
      start := startIf
      inside := inside
      op := opIf.trans window.slotIf.op
      jump := window.slotIf.jump
      width := window.slotIf.width
      operand := window.slotIf.operand }
  · have operand := window.slotIf.operand
    have size := window.slotIf.width
    rw [← window.slotIf.op] at operand size
    exact {
      start := editIf.keeps_start startIf (.inl (Nat.le_refl _))
      inside := by rw [editIf.size]; exact inside
      op := opNew
      jump := label'
      width := size.trans width.symm
      operand := by rw [offset'] ; rwa [offset] at operand }
  · obtain ⟨pos, addr, start, insideTarget⟩ := accurate.jumpTarget window.liveGoto
    refine ⟨pos, (decRef_labelAddr _ _ _).trans addr, edit.keeps_start start ?_, ?_⟩
    · by_cases low : pos ≤ m.gotoPos
      · exact .inl low
      · exact .inr (window.slotGoto.start.next_le start (by omega))
    · exact insideTarget.trans_eq edit.size.symm
  · intro l
    exact (invert_labelAddr l).trans (decRef_labelAddr _ _ _).symm
  · simp [invertIfGoto, decRef, setLabel, setJp, write, writeNops, nopFullInstruction]
  · intro l boundLabel
    have boundLabel' : l < P.labelSlots.length := by
      simpa [decRef, setLabel, setJp, writeNops, nopFullInstruction] using boundLabel
    have first := refCount_decRef (P := (P.nopFullInstruction m.gotoPos).setJp m.gotoSlot
      { P.jp m.gotoSlot with size := 0, op := opNop }) (P.jp m.gotoSlot).label boundLabel'
    have second := invert_refCount (j := j) (m := m) boundLabel'
    have alive : 0 < (P.jp j).size := window.liveIf
    rw [first, second, jpIf]
    simp only [alive, true_and]
    change _ = P.refCount l - _ + _
    omega

theorem invert_size : (P.invertIfGoto j m).size = P.size := by
  rw [BcOut.size, window.invert_buf]
  exact (write_size _ _ _).trans (writeNops_size _ _ _)

theorem invert_opAt {i : Nat} (notIf : i ≠ m.ifPos)
    (outside : i < m.gotoPos ∨ m.gotoPos + m.gotoSize ≤ i) :
    (P.invertIfGoto j m).opAt i = P.opAt i := by
  rw [opAt, window.invert_buf]
  refine (opAt_write_ne (P := P.nopFullInstruction m.gotoPos) notIf).trans ?_
  refine opAt_writeNops_outside ?_
  rwa [window.opSize_goto]

theorem invert_opAt_if : (P.invertIfGoto j m).opAt m.ifPos = m.newOp := by
  have ⟨_, _, known, _⟩ := invertedIf_spec window.found
  rw [opAt, window.invert_buf]
  exact opAt_write_same ((writeNops_size P _ _).symm ▸ window.slotIf.inside)
    (Nat.lt_trans known (by decide))

theorem size_pos : 0 < ifSize := by
  have ⟨_, _, _, _, _, _, _, _, room, positive, _⟩ := invertedIf_spec window.found
  omega

section

variable (accurate : P.Accurate)

include accurate

theorem stop : P.Start (m.gotoPos + m.gotoSize) := by
  have next := accurate.next window.slotGoto.start window.slotGoto.inside
  rwa [window.opSize_goto] at next

theorem room : m.gotoPos + m.gotoSize ≤ P.size := by
  have fits := (window.slotGoto.start.suffix accurate.decodes window.slotGoto.inside.le).size_le
    window.slotGoto.inside
  have size := window.opSize_goto
  unfold opAt at size
  rwa [size] at fits

theorem invert_opAt_goto {i : Nat} (low : m.gotoPos ≤ i) (high : i < m.gotoPos + m.gotoSize) :
    (P.invertIfGoto j m).opAt i = opNop := by
  have behind := window.gotoPos
  have positive := window.size_pos
  have room := window.room accurate
  rw [opAt, window.invert_buf]
  refine (opAt_write_ne (P := P.nopFullInstruction m.gotoPos) (by omega)).trans ?_
  exact opAt_writeNops_inside low (by rwa [window.opSize_goto]) (by omega)

theorem windowEdit (free : P.liveLabelTargets m.gotoPos = false) :
    WindowEdit P (P.invertIfGoto j m) m.ifPos (m.gotoPos + m.gotoSize) where
  size := window.invert_size
  start := window.slotIf.start
  stop := window.stop accurate
  inside := window.room accurate
  unlabelled q low high start := by
    have behind := window.gotoPos
    have fits := window.slotIf.start.next_le start low
    have sizeIf := window.opSize_if
    unfold opAt at sizeIf
    by_cases same : q = m.gotoPos
    · rw [same]
      exact free
    · have fits' := window.slotGoto.start.next_le start (by omega)
      have sizeGoto := window.opSize_goto
      unfold opAt at sizeGoto
      omega
  same q start inside outside := by
    have behind := window.gotoPos
    have positive := window.size_pos
    have nonzero := window.isGoto
    have known := accurate.known start inside
    have atStart := accurate.size_pos start inside
    have fits : q < m.ifPos → q + opSize (P.opAt q) ≤ m.ifPos :=
      fun before => start.next_le window.slotIf.start before
    have bytes : ∀ i, q ≤ i → i < q + opSize (P.opAt q) →
        (P.invertIfGoto j m).opAt i = P.opAt i := by
      intro i low high
      exact window.invert_opAt (by omega) (by omega)
    refine code_congr window.invert_size known bytes ?_
    refine accurate.target_congr (window.accurate_after accurate)
      (bytes q (Nat.le_refl _) (by omega)) invert_labelAddr fun label k operand => ?_
    have ⟨after, before⟩ := accurate.operand_inside start inside label
    have operandIf := window.slotIf.operand
    have operandGoto := window.slotGoto.operand
    have ⟨_, _, _, _, _, _, offset, _, _, _, _⟩ := invertedIf_spec window.found
    have ⟨_, _, _, offsetGoto, _⟩ :=
      gotoSize_spec (window.gotoSize ▸ window.isGoto : BcOut.gotoSize (P.opAt m.gotoPos) ≠ 0)
    rw [← window.slotIf.op, offset] at operandIf
    rw [← window.slotGoto.op, offsetGoto] at operandGoto
    -- the operand of `q` lies outside the window, those of the two slots inside
    have elsewhere : ∀ pos : Int, pos = (q + labelOffset (P.opAt q) : Nat) →
        pos ≠ (m.ifPos + 1 : Nat) ∧ pos ≠ (m.gotoPos + 1 : Nat) := by
      intro pos here
      omega
    refine window.invert_jp_other (fun same => ?_) (fun same => ?_)
    · subst same
      rw [window.invert_jp_if] at operand
      rcases operand with here | here <;> exact (elsewhere _ here).1 operandIf
    · subst same
      rw [window.invert_jp_goto] at operand
      rcases operand with here | here <;> exact (elsewhere _ here).2 operandGoto

theorem target_if : P.target m.ifPos = some (m.gotoPos + m.gotoSize) := by
  have ⟨_, _, _, label, _, _, offset, _⟩ := invertedIf_spec window.found
  have operand := window.slotIf.operand
  rw [← window.slotIf.op, offset] at operand
  rw [target_of_label label offset, accurate.slotAt_eq window.liveIf operand, Option.bind_some,
    slotTarget, window.addr, if_pos (Int.natCast_nonneg _), Int.toNat_natCast]

theorem target_goto :
    ∃ pos : Nat, P.target m.gotoPos = some pos ∧ P.labelAddr (P.jp m.gotoSlot).label = pos := by
  have nonzero := window.isGoto
  rw [window.gotoSize] at nonzero
  have ⟨_, _, label, offset, _⟩ := gotoSize_spec nonzero
  have operand := window.slotGoto.operand
  rw [← window.slotGoto.op, offset] at operand
  have ⟨pos, addr, _, _⟩ := accurate.jumpTarget window.liveGoto
  refine ⟨pos, ?_, addr⟩
  rw [target_of_label label offset, accurate.slotAt_eq window.liveGoto operand, Option.bind_some,
    slotTarget, addr, if_pos (Int.natCast_nonneg _), Int.toNat_natCast]

theorem target_inverted : (P.invertIfGoto j m).target m.ifPos = P.target m.gotoPos := by
  have ⟨_, _, _, _, label, _, offset, offset', _⟩ := invertedIf_spec window.found
  have operand := window.slotIf.operand
  rw [← window.slotIf.op, offset] at operand
  have here := window.invert_opAt_if
  have jpIf := window.invert_jp_if
  have live : 0 < ((P.invertIfGoto j m).jp j).size := by
    rw [jpIf]
    exact window.liveIf
  have ⟨pos, target, addr⟩ := window.target_goto accurate
  have goesTo : (P.invertIfGoto j m).labelAddr ((P.invertIfGoto j m).jp j).label = pos := by
    rw [invert_labelAddr, jpIf]
    exact addr
  rw [target, target_of_label (by rw [here]; exact label) (by rw [here]; exact offset'),
    (window.accurate_after accurate).slotAt_eq live (by rw [jpIf]; exact operand),
    Option.bind_some, slotTarget, goesTo, if_pos (Int.natCast_nonneg _), Int.toNat_natCast]

end

end IfGotoAt

/-- The two ways out of the window change places. -/
theorem matched_ifGoto {V W : Type} (M : Machine V W) {code code' : Code} {visible : Nat → Prop}
    {a g e l : Nat} {i i' k : Instr} (taken : Bool) (order : g ≤ e)
    (test : code a = some i) (testAction : i.action = .jumpIf taken) (behind : a + i.size = g)
    (skip : i.target = some e) (goto : code g = some k) (gotoAction : k.action = .goto)
    (goal : k.target = some l) (test' : code' a = some i')
    (testAction' : i'.action = .jumpIf (!taken)) (sizes : i'.size = i.size)
    (goal' : i'.target = some l)
    (gap : ∀ q, g ≤ q → q < e → ∃ i, code' q = some i ∧ i.action = .nop ∧ i.size = 1)
    (visibleSkip : visible e) (visibleGoal : visible l)
    {s : State V W} (here : s.pc = a) (within : ∀ x ∈ s.stack, x.Within visible) :
    Matched (M.step code) (M.step code') (State.Within visible) (fun _ => True) s := by
  obtain ⟨pc, stack, w⟩ := s
  dsimp only at here within
  subst here
  have stuck : (∀ v rest, stack ≠ .value v :: rest) →
      M.step code ⟨pc, stack, w⟩ = .halted [] .stuck ∧
        M.step code' ⟨pc, stack, w⟩ = .halted [] .stuck := by
    intro none
    simp only [Machine.step, test, test', Machine.execute, testAction, testAction']
    rcases stack with _ | ⟨_ | _ | _, rest⟩
    · exact ⟨rfl, rfl⟩
    · exact (none _ _ rfl).elim
    · exact ⟨rfl, rfl⟩
    · exact ⟨rfl, rfl⟩
  by_cases value : ∃ v rest, stack = .value v :: rest
  · obtain ⟨v, rest, top⟩ := value
    subst top
    have rests : ∀ x ∈ rest, x.Within visible := fun x member => within x (by simp [member])
    have step := step_jumpIf M test testAction v rest w
    have step' := step_jumpIf M test' testAction' v rest w
    rw [behind, skip] at step
    rw [sizes, behind, goal'] at step'
    by_cases decided : (M.test v w).1 = taken
    · rw [if_pos decided] at step
      rw [if_neg (by rw [decided]; cases taken <;> decide)] at step'
      have nops := path_nops M code' (fun _ => True) rest (M.test v w).2 order gap (fun _ _ _ => trivial)
      have run' := (Path.single step' trivial).append nops
      rw [Nat.add_comm] at run'
      exact matched_of_paths (Path.single step trivial) run' ⟨visibleSkip, rests⟩
    · rw [if_neg decided] at step
      rw [if_pos (by revert decided; cases (M.test v w).1 <;> cases taken <;> decide)] at step'
      have jump : M.step code ⟨g, rest, (M.test v w).2⟩ =
          .running [] ⟨l, rest, (M.test v w).2⟩ := by
        rw [step_goto M goto gotoAction, goal]
        rfl
      have run := (Path.free step).append
        (Path.single jump trivial)
      exact matched_of_paths run (Path.single step' trivial) ⟨visibleGoal, rests⟩
  · obtain ⟨stop, stop'⟩ := stuck fun v rest same => value ⟨v, rest, same⟩
    exact matched_of_same (stop'.trans stop.symm) trivial fun events t run => by
      rw [stop] at run
      cases run

theorem IfGotoAt.sameBehaviour {ifSize : Nat} (window : IfGotoAt P j m ifSize)
    (accurate : P.Accurate) (free : P.liveLabelTargets m.gotoPos = false) {V W : Type}
    (M : Machine V W) (w : W) : SameBehaviour (M.step P.code) (M.step (P.invertIfGoto j m).code)
      (Machine.entry w) := by
  have ⟨sizeOld, sizeNew, _, _, _, _, _, _, _, _, taken, actions⟩ := invertedIf_spec window.found
  have edit := window.windowEdit accurate free
  have nonzero := window.isGoto
  rw [window.gotoSize] at nonzero
  have ⟨_, _, _, _, gotoAction⟩ := gotoSize_spec nonzero
  have ⟨l, target, addr⟩ := window.target_goto accurate
  have ⟨l', addr', startGoal, insideGoal⟩ := accurate.jumpTarget window.liveGoto
  have same : l' = l := by omega
  subst same
  have size := window.invert_size
  refine edit.sameBehaviour accurate M w fun s here within => ?_
  refine matched_ifGoto M (g := m.gotoPos) taken (Nat.le_add_right _ _)
    (code_inside window.slotIf.inside) (actions _).1 ?_ (window.target_if accurate)
    (code_inside window.slotGoto.inside) (gotoAction _) target
    (code_inside (by rw [size]; exact window.slotIf.inside)) ?_ ?_ ?_ ?_ ?_ ?_ here within.stack
  · change m.ifPos + opSize (P.opAt m.ifPos) = m.gotoPos
    rw [window.opSize_if, window.gotoPos]
  · change actionOf (opAt _ m.ifPos) _ = _
    rw [window.invert_opAt_if]
    exact (actions _).2
  · change opSize (opAt _ m.ifPos) = opSize (P.opAt m.ifPos)
    rw [window.invert_opAt_if, sizeNew, sizeOld]
  · exact (window.target_inverted accurate).trans target
  · intro q low high
    have room := window.room accurate
    exact code_nop (by rw [size]; omega) (window.invert_opAt_goto accurate low high)
  · exact ⟨edit.stop, by omega⟩
  · refine ⟨startGoal, fun ⟨after, before⟩ => ?_⟩
    have live := accurate.labelTargets_live window.liveGoto addr'
      (Nat.lt_of_lt_of_le before edit.inside)
    rw [edit.unlabelled _ after before startGoal] at live
    cases live

/-! The whole pass. -/

/-- How far a state `R` of the pass may be from its input `P`, for the slots from `j` on. -/
structure Similar (P R : BcOut) (j : Nat) : Prop where
  size : R.size = P.size
  addrs : ∀ label, R.labelAddr label = P.labelAddr label
  gotos : ∀ q, gotoSize (R.opAt q) ≠ 0 → R.opAt q = P.opAt q
  slots : ∀ k, j ≤ k → 0 < (R.jp k).size → (R.jp k).size = (P.jp k).size ∧
    (R.jp k).pos = (P.jp k).pos ∧ (R.jp k).label = (P.jp k).label ∧
      (invertedIf? (R.jp k).op).map (·.2) = (invertedIf? (P.jp k).op).map (·.2)
  gotoSlots : ∀ k, 0 < (R.jp k).size → gotoSize (R.jp k).op ≠ 0 → R.jp k = P.jp k
  live : ∀ q, R.liveLabelTargets q = true → P.liveLabelTargets q = true

theorem Similar.refl (P : BcOut) (j : Nat) : Similar P P j where
  size := rfl
  addrs _ := rfl
  gotos _ _ := rfl
  slots _ _ _ := ⟨rfl, rfl, rfl, rfl⟩
  gotoSlots _ _ _ := rfl
  live _ found := found

theorem invertedIf_goto {op inverted size : Nat} (found : invertedIf? op = some (inverted, size)) :
    gotoSize op = 0 ∧ gotoSize inverted = 0 ∧ (invertedIf? inverted).map (·.2) = some size := by
  unfold invertedIf? at found
  split_ifs at found with isFalse isTrue isFalse8 isTrue8
  all_goals
    cases found
    subst op
    decide

theorem Similar.invertLnot (similar : Similar P R j) (window : LnotIf R p nr inverted size)
    (accurate : R.Accurate) (map : R.JumpMap posToJp) :
    Similar P (R.invertLnot posToJp p nr inverted) j ∧
      (R.invertLnot posToJp p nr inverted).JumpMap posToJp := by
  obtain ⟨notGoto, notGoto', classes⟩ := invertedIf_goto window.found
  have lookup : ((R.write p opNop).write nr inverted).findJumpSlot posToJp nr = posToJp (nr + 1) := by
    have room := window.room
    obtain ⟨_, _, _, _, _, _, _, _, width, positive, _⟩ := invertedIf_spec window.found
    exact findJumpSlot_eq (by simp only [write_size]; omega)
  have slots : ∀ k, (R.invertLnot posToJp p nr inverted).jp k = R.jp k ∨
      ((R.jp k).op = R.opAt nr ∧
        (R.invertLnot posToJp p nr inverted).jp k = { R.jp k with op := inverted }) := by
    intro k
    unfold BcOut.invertLnot
    dsimp only
    rw [lookup]
    cases found : posToJp (nr + 1) with
    | none => exact .inl rfl
    | some k' =>
        by_cases same : k = k'
        · subst same
          obtain ⟨live, here⟩ := (map _ _).mp found
          have slot := accurate.slot_of_pos window.startIf live here
          exact .inr ⟨slot.op.symm, jp_setJp_same (P := (R.write p opNop).write nr inverted)
            (jp_live_lt live) _⟩
        · exact .inl (jp_setJp_ne (P := (R.write p opNop).write nr inverted) same _)
  constructor
  · constructor
    · rw [invertLnot_size, similar.size]
    · intro label
      rw [← similar.addrs, labelAddr, labelAddr, labelSlot, labelSlot, invertLnot_labelSlots]
    · intro q nonzero
      by_cases first : q = p
      · rw [first, window.opAt_lnot] at nonzero
        exact (nonzero rfl).elim
      · by_cases second : q = nr
        · rw [second, window.opAt_inverted] at nonzero
          exact (nonzero notGoto').elim
        · rw [invertLnot_opAt first second] at nonzero ⊢
          exact similar.gotos q nonzero
    · intro k from_ live
      rcases slots k with same | ⟨op, same⟩
      · rw [same] at live ⊢
        exact similar.slots k from_ live
      · rw [same] at live ⊢
        obtain ⟨sizes, poss, labels, class_⟩ := similar.slots k from_ live
        refine ⟨sizes, poss, labels, ?_⟩
        rw [← class_, op, window.found, classes]
        rfl
    · intro k live nonzero
      rcases slots k with same | ⟨op, same⟩
      · rw [same] at live nonzero ⊢
        exact similar.gotoSlots k live nonzero
      · rw [same] at nonzero
        exact (nonzero notGoto').elim
    · intro q live
      apply similar.live
      rw [labelTargets_live_iff] at live ⊢
      simpa only [invertLnot_size, refCount, labelAddr, labelSlot, invertLnot_labelSlots] using live
  · intro q k
    rw [map q k]
    rcases slots k with same | ⟨_, same⟩ <;> rw [same]

theorem invertLnots_spec (fuel : Nat) {isLabelTarget : Nat → Bool} {P : BcOut}
    (similar : Similar P R 0) (accurate : R.Accurate) (map : R.JumpMap posToJp)
    (targets : ∀ q, R.liveLabelTargets q = isLabelTarget q) (start : R.Start p) :
    let S := invertLnots isLabelTarget posToJp fuel R p
    Similar P S 0 ∧ S.Accurate ∧ S.JumpMap posToJp ∧ ∀ {V W : Type} (M : Machine V W) (w : W),
      SameBehaviour (M.step R.code) (M.step S.code) (Machine.entry w) := by
  induction fuel generalizing R p with
  | zero => exact ⟨similar, accurate, map, fun M w => .refl _ _⟩
  | succ fuel ih =>
      rw [invertLnots]
      split
      · exact ⟨similar, accurate, map, fun M w => .refl _ _⟩
      · rename_i inside
        have inside : p < R.size := by omega
        have next := accurate.next start inside
        dsimp only
        split
        · exact ⟨similar, accurate, map, fun M w => .refl _ _⟩
        · split
          · rename_i inverted ifSize matched
            split
            · rename_i fits
              obtain ⟨lnot, found⟩ : R.opAt p = opLnot ∧
                  invertedIf? (R.opAt (R.skipNops isLabelTarget (p + opSize (R.opAt p)))) =
                    some (inverted, ifSize) := by
                split at matched
                · rename_i lnot
                  exact ⟨lnot, matched⟩
                · cases matched
              have one : p + opSize (R.opAt p) = p + 1 := by rw [lnot]; rfl
              rw [one] at found fits ⊢
              have window : LnotIf R p (R.skipNops isLabelTarget (p + 1)) inverted ifSize := {
                start := start
                inside := inside
                lnot := lnot
                order := le_skipNops _ _
                gap := fun q low high => by
                  rw [targets]
                  exact skipNops_skipped _ low high
                found := found
                room := fits.1
                free := by rw [targets]; exact fits.2 }
              obtain ⟨similar', map'⟩ := similar.invertLnot window accurate map
              have accurate' := window.accurate_after accurate map
              have targets' : ∀ q, (R.invertLnot posToJp p (R.skipNops isLabelTarget (p + 1))
                  inverted).liveLabelTargets q = isLabelTarget q := by
                intro q
                rw [← targets]
                simp only [liveLabelTargets, labelTargets, invertLnot_size, invertLnot_labelSlots]
              have start' : (R.invertLnot posToJp p (R.skipNops isLabelTarget (p + 1))
                  inverted).Start (R.skipNops isLabelTarget (p + 1) + ifSize) := by
                obtain ⟨_, sizeNew, _⟩ := invertedIf_spec window.found
                have startIf : (R.invertLnot posToJp p (R.skipNops isLabelTarget (p + 1))
                    inverted).Start (R.skipNops isLabelTarget (p + 1)) := by
                  rw [Start, invertLnot_buf]
                  exact (window.edit_if accurate).keeps_start
                    ((window.edit_lnot accurate).keeps_start window.startIf (.inr window.order))
                    (.inl (Nat.le_refl _))
                have after := accurate'.next startIf (by
                  rw [invertLnot_size]
                  exact window.insideIf)
                rwa [window.opAt_inverted, sizeNew] at after
              obtain ⟨similar'', accurate'', map'', same⟩ := ih similar' accurate' map' targets' start'
              exact ⟨similar'', accurate'', map'', fun M w =>
                (window.sameBehaviour accurate M w).trans (same M w)⟩
            · exact ih similar accurate map targets next
          · exact ih similar accurate map targets next

theorem IfGotoAt.similar {ifSize : Nat} (window : IfGotoAt R j m ifSize) (accurate : R.Accurate)
    (similar : Similar P R j) : Similar P (R.invertIfGoto j m) (j + 1) where
  size := window.invert_size.trans similar.size
  addrs label := (IfGotoAt.invert_labelAddr label).trans (similar.addrs label)
  gotos q nonzero := by
    have ⟨_, notGoto, _⟩ := invertedIf_goto window.found
    have behind := window.gotoPos
    have positive := window.size_pos
    by_cases first : q = m.ifPos
    · rw [first, window.invert_opAt_if] at nonzero
      exact (nonzero notGoto).elim
    · by_cases outside : q < m.gotoPos ∨ m.gotoPos + m.gotoSize ≤ q
      · rw [window.invert_opAt first outside] at nonzero ⊢
        exact similar.gotos q nonzero
      · rw [window.invert_opAt_goto accurate (by omega) (by omega)] at nonzero
        exact (nonzero rfl).elim
  slots k from_ live := by
    by_cases goto : k = m.gotoSlot
    · rw [goto, window.invert_jp_goto] at live
      cases live
    · rw [window.invert_jp_other (by omega) goto] at live ⊢
      exact similar.slots k (by omega) live
  gotoSlots k live nonzero := by
    by_cases isIf : k = j
    · rw [isIf, window.invert_jp_if] at nonzero
      have ⟨_, notGoto, _⟩ := invertedIf_goto window.found
      exact (nonzero notGoto).elim
    · by_cases goto : k = m.gotoSlot
      · rw [goto, window.invert_jp_goto] at live
        cases live
      · rw [window.invert_jp_other isIf goto] at live nonzero ⊢
        exact similar.gotoSlots k live nonzero
  live q found := by
    apply similar.live
    rw [labelTargets_live_iff] at found ⊢
    have ⟨inside, label, bound, counted, addr⟩ := found
    have length : (R.invertIfGoto j m).labelSlots.length = R.labelSlots.length := by
      simp [invertIfGoto, decRef, setLabel, setJp, writeNops]
      rfl
    rw [length] at bound
    rw [IfGotoAt.invert_refCount bound] at counted
    rw [IfGotoAt.invert_labelAddr] at addr
    refine ⟨window.invert_size ▸ inside, label, bound, ?_, addr⟩
    split at counted <;> omega

theorem IfGotoAt.jumpMap {ifSize : Nat} (window : IfGotoAt R j m ifSize) (accurate : R.Accurate)
    (map : R.JumpMap posToJp) : (R.invertIfGoto j m).JumpMap
      (Function.update posToJp (R.jp m.gotoSlot).pos.toNat none) := by
  have operand := window.slotGoto.operand
  intro q k
  by_cases erased : q = (R.jp m.gotoSlot).pos.toNat
  · subst erased
    rw [Function.update_self]
    constructor
    · intro found
      cases found
    · intro ⟨live, here⟩
      by_cases goto : k = m.gotoSlot
      · rw [goto, window.invert_jp_goto] at live
        cases live
      · have same : 0 < (R.jp k).size ∧ (R.jp k).pos = (R.jp m.gotoSlot).pos := by
          by_cases isIf : k = j
          · rw [isIf, window.invert_jp_if] at live here
            rw [isIf]
            exact ⟨live, by dsimp only at here; omega⟩
          · rw [window.invert_jp_other isIf goto] at live here
            exact ⟨live, by omega⟩
        exact (goto (accurate.index_eq same.1 window.liveGoto same.2)).elim
  · rw [Function.update_of_ne erased, map q k]
    by_cases goto : k = m.gotoSlot
    · subst goto
      rw [window.invert_jp_goto]
      constructor
      · intro ⟨_, here⟩
        exact (erased (by omega)).elim
      · intro ⟨live, _⟩
        cases live
    · by_cases isIf : k = j
      · subst isIf
        rw [window.invert_jp_if]
      · rw [window.invert_jp_other isIf goto]

/-- What part 2 matches in a state of the pass it also matches in the input. -/
theorem findIfGoto_of_similar (accurate : P.Accurate) (accurateR : R.Accurate)
    (map : R.JumpMap posToJp) (similar : Similar P R j) (found : R.findIfGoto posToJp j = some m) :
    ∃ newOp, P.findIfGoto P.posToJp j = some { m with newOp := newOp } := by
  have ⟨ifSize, window⟩ := findIfGoto_spec accurateR map found
  have ⟨sizes, poss, labels, classes⟩ := similar.slots j (Nat.le_refl _) window.liveIf
  have isGoto : gotoSize (R.jp m.gotoSlot).op ≠ 0 := by
    rw [← window.slotGoto.op, ← window.gotoSize]
    exact window.isGoto
  have gotoSame := similar.gotoSlots _ window.liveGoto isGoto
  have gotoOp : R.opAt m.gotoPos = P.opAt m.gotoPos :=
    similar.gotos _ (by rw [← window.gotoSize]; exact window.isGoto)
  unfold findIfGoto at found ⊢
  dsimp only at found ⊢
  rw [sizes, poss, labels] at found
  split at found
  · cases found
  · rename_i alive
    rw [if_neg alive]
    have opIf : invertedIf? (R.jp j).op = some (m.newOp, ifSize) := by
      rw [← window.slotIf.op]
      exact window.found
    rw [opIf] at found classes
    have ⟨pair, opposite, sameSize⟩ := Option.map_eq_some_iff.mp classes.symm
    have ⟨newOp, ifSize'⟩ := pair
    dsimp only at sameSize
    subst sameSize
    rw [opposite]
    dsimp only at found ⊢
    rw [similar.size, similar.addrs] at found
    split_ifs at found with outside notGoto otherTarget inside
    · cases lookup : posToJp (((P.jp j).pos - 1).toNat + (1 + (P.jp j).size) + 1) with
      | none =>
          rw [lookup] at found
          cases found
      | some gotoSlot =>
          rw [lookup] at found
          dsimp only at found
          split at found
          · cases found
          · rename_i fits
            have same := Option.some.inj found
            rw [← same] at gotoSame gotoOp
            dsimp only at gotoSame gotoOp
            have ⟨liveGoto, operand⟩ := (map _ _).mp lookup
            rw [gotoSame] at liveGoto operand
            have lookup' := (accurate.posToJp_map _ _).mpr ⟨liveGoto, operand⟩
            rw [similar.addrs, gotoSame] at fits
            rw [gotoOp] at notGoto otherTarget
            rw [if_neg outside, if_neg notGoto, if_neg otherTarget, if_pos inside, lookup']
            dsimp only
            rw [if_neg fits]
            exact ⟨newOp, by rw [← same, gotoOp]⟩

/-- No live label stands on the `goto` of a pair that part 2 rewrites. -/
def GotosUnlabelled (P : BcOut) : Prop :=
  ∀ j m, P.findIfGoto P.posToJp j = some m → P.liveLabelTargets m.gotoPos = false

theorem invertIfGotos_spec (count : Nat) (accurate : P.Accurate) (similar : Similar P R j)
    (accurateR : R.Accurate) (map : R.JumpMap posToJp) : let S := invertIfGotos count j R posToJp
    S.Accurate ∧ S.size = P.size ∧ (P.GotosUnlabelled → ∀ {V W : Type} (M : Machine V W) (w : W),
      SameBehaviour (M.step R.code) (M.step S.code) (Machine.entry w)) := by
  induction count generalizing R j posToJp with
  | zero => exact ⟨accurateR, similar.size, fun _ V W M w => .refl _ _⟩
  | succ count ih =>
      rw [invertIfGotos]
      cases found : R.findIfGoto posToJp j with
      | none =>
          have similar' : Similar P R (j + 1) :=
            { similar with slots := fun k from_ => similar.slots k (by omega) }
          exact ih similar' accurateR map
      | some m =>
          have ⟨ifSize, window⟩ := findIfGoto_spec accurateR map found
          have ⟨accurate', size', same⟩ := ih (window.similar accurateR similar)
            (window.accurate_after accurateR) (window.jumpMap accurateR map)
          refine ⟨accurate', size', fun clear V W M w => ?_⟩
          have ⟨newOp, inInput⟩ := findIfGoto_of_similar accurate accurateR map similar found
          have free : R.liveLabelTargets m.gotoPos = false := by
            rw [Bool.eq_false_iff]
            intro live
            have clearHere := clear j _ inInput
            dsimp only at clearHere
            rw [similar.live _ live] at clearHere
            cases clearHere
          exact (window.sameBehaviour accurateR free M w).trans (same clear M w)

theorem branchInversion_spec (accurate : P.Accurate) : P.branchInversion.Accurate ∧
    P.branchInversion.size = P.size ∧ (P.GotosUnlabelled → ∀ {V W : Type} (M : Machine V W) (w : W),
      SameBehaviour (M.step P.code) (M.step P.branchInversion.code) (Machine.entry w)) := by
  unfold branchInversion
  split
  · exact ⟨accurate, rfl, fun _ V W M w => .refl _ _⟩
  · have ⟨similar, accurate', map, same⟩ := invertLnots_spec P.size (Similar.refl P 0) accurate
      accurate.posToJp_map (fun _ => rfl) (.done 0)
    have ⟨accurate'', size, same'⟩ := invertIfGotos_spec
      (invertLnots P.liveLabelTargets P.posToJp P.size P 0).jumpSlots.length accurate similar
      accurate' map
    exact ⟨accurate'', size, fun clear V W M w => (same M w).trans (same' clear M w)⟩

/-- Branch inversion keeps events and result of every execution. -/
theorem branchInversion_preserves (accurate : P.Accurate) (clear : P.GotosUnlabelled)
    {V W : Type} (M : Machine V W) (w : W) :
    SameBehaviour (M.step P.code) (M.step P.branchInversion.code) (Machine.entry w) :=
  (branchInversion_spec accurate).2.2 clear M w

theorem gotosUnlabelled_of_check (checked : (List.range P.jumpSlots.length).all (fun j =>
    ((P.findIfGoto P.posToJp j).all fun m => !P.liveLabelTargets m.gotoPos)) = true) :
    P.GotosUnlabelled := by
  intro j m found
  by_cases bound : j < P.jumpSlots.length
  · have here := List.all_eq_true.mp checked j (List.mem_range.mpr bound)
    rw [found] at here
    simpa using here
  · have dead : (P.jp j).size = 0 := by
      by_contra alive
      exact bound (jp_live_lt (Nat.pos_of_ne_zero alive))
    rw [findIfGoto, if_pos dead] at found
    cases found

/-- `if (!a) goto L1; goto L2; L1: return 0; L2: return 1`. -/
def plainGoto : BcOut where
  buf := [206, 231, 3, 233, 3, 178, 40, 179, 40]
  jumpSlots := [⟨opIfFalse8, 1, 2, 0⟩, ⟨opGoto8, 1, 4, 1⟩]
  labelSlots := [⟨1, 5⟩, ⟨1, 7⟩]

theorem branchInversion_preserves_plainGoto : SameBehaviour (intMachine.step plainGoto.code)
    (intMachine.step plainGoto.branchInversion.code) (Machine.entry fun _ => 0) :=
  branchInversion_preserves (accurate_of_check (by decide +kernel))
    (gotosUnlabelled_of_check (by decide +kernel)) intMachine _

/-- `if (a) goto M; if (!b) goto L1; M: goto L2; L1: return 0; L2: return 1`. -/
def labelledGoto : BcOut where
  buf := [206, 232, 4, 207, 231, 3, 233, 3, 178, 40, 179, 40]
  jumpSlots := [⟨opIfTrue8, 1, 2, 0⟩, ⟨opIfFalse8, 1, 5, 1⟩, ⟨opGoto8, 1, 7, 2⟩]
  labelSlots := [⟨1, 6⟩, ⟨1, 8⟩, ⟨1, 10⟩]

theorem branchInversion_changes_result : ¬ ∀ P : BcOut, P.Accurate → ∀ (V W : Type)
    (M : Machine V W) (w : W),
      SameBehaviour (M.step P.code) (M.step P.branchInversion.code) (Machine.entry w) := by
  intro preserved
  have accurate : labelledGoto.Accurate := accurate_of_check (by decide +kernel)
  have same := preserved labelledGoto accurate Int (Var → Int) intMachine
    fun x => if x = ⟨.arg, 0⟩ then 1 else 0
  have values := value_of_sameBehaviour same 9 9 1 0 (by decide +kernel) (by decide +kernel)
  cases values

end BcOut

end PrimJs
