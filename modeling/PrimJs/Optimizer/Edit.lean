import Mathlib.Tactic.SplitIfs
import PrimJs.Optimizer.BcOut

/-! What the post passes do to `bc_out`, as edits of one run of whole instructions, one jump slot
or one label, and what each keeps of `BcOut.Accurate`. -/

namespace PrimJs.BcOut

variable {P P' : BcOut} {a e p q k : Nat}

namespace Accurate

section

variable (accurate : P.Accurate) (start : P.Start q) (inside : q < P.size)

include accurate start inside

theorem known : P.opAt q < opCount :=
  (start.suffix accurate.decodes inside.le).known inside

theorem next : P.Start (q + opSize (P.opAt q)) :=
  start.next_start accurate.decodes inside

theorem size_pos : 0 < opSize (P.opAt q) :=
  opSize_pos _ (accurate.known start inside)

end

section

variable (accurate : P.Accurate) (live : 0 < (P.jp k).size)

include accurate live

theorem index_eq {k' : Nat} (live' : 0 < (P.jp k').size) (same : (P.jp k).pos = (P.jp k').pos) :
    k = k' := by
  have bound := jp_live_lt live
  have bound' := jp_live_lt live'
  have pairs := List.pairwise_iff_getElem.mp accurate.distinct
  rw [jp_eq_getElem bound] at live same
  rw [jp_eq_getElem bound'] at live' same
  rcases Nat.lt_trichotomy k k' with before | equal | after
  · exact (pairs k k' bound bound' before live live' same).elim
  · exact equal
  · exact (pairs k' k bound' bound after live' live same.symm).elim

theorem slot : ∃ pos, P.SlotAccurate (P.jp k) pos :=
  accurate.slots _ (jp_mem (jp_live_lt live)) live

theorem jumpTarget : ∃ pos : Nat, P.labelAddr (P.jp k).label = pos ∧ P.Start pos ∧ pos ≤ P.size :=
  accurate.targets _ (jp_mem (jp_live_lt live)) live

end

end Accurate

theorem labelOffset_spec : ∀ op < opCount, hasLabelOperand op →
    labelOffset op + labelWidth op ≤ opSize op ∧ 0 < labelWidth op ∧
      (labelOffset op = 1 ∨ labelOffset op = 5 ∧ 10 ≤ opSize op) := by
  decide +kernel

/-- The slot of an operand right behind an instruction start describes that instruction. -/
theorem Accurate.slot_of_pos (accurate : P.Accurate) (start : P.Start p)
    (live : 0 < (P.jp k).size) (here : (P.jp k).pos = (p + 1 : Nat)) :
    P.SlotAccurate (P.jp k) p := by
  have ⟨q, slot⟩ := accurate.slot live
  have known := accurate.known slot.start slot.inside
  rw [slot.op] at known
  have ⟨_, _, offset⟩ := labelOffset_spec _ known slot.jump
  have operand := slot.operand
  rcases offset with one | ⟨five, wide⟩
  · have same : q = p := by omega
    rwa [← same]
  · have fits := slot.start.next_le start (by omega)
    have op := slot.op
    unfold opAt at op
    rw [op] at fits
    omega

variable {j : JumpSlot}

/-- Live slots that describe the same instruction are the same. -/
theorem Accurate.slot_eq (accurate : P.Accurate) {j' : JumpSlot} (member : j ∈ P.jumpSlots)
    (member' : j' ∈ P.jumpSlots) (live : 0 < j.size) (live' : 0 < j'.size)
    (slot : P.SlotAccurate j p) (slot' : P.SlotAccurate j' p) : j = j' := by
  have ⟨k, _, same⟩ := exists_jp member
  have ⟨k', _, same'⟩ := exists_jp member'
  subst same same'
  have operands : (P.jp k).pos = (P.jp k').pos := by
    rw [slot.operand, slot'.operand, ← slot.op, ← slot'.op]
  rw [accurate.index_eq live live' operands]

theorem Accurate.pos_lt_size (accurate : P.Accurate) (live : 0 < (P.jp k).size) :
    ∃ q : Nat, (P.jp k).pos = q ∧ q < P.size := by
  have ⟨p, slot⟩ := accurate.slot live
  have known := accurate.known slot.start slot.inside
  have fits := (slot.start.suffix accurate.decodes slot.inside.le).size_le slot.inside
  have op := slot.op
  unfold opAt at op
  rw [op] at fits
  rw [slot.op] at known
  have ⟨room, positive, _⟩ := labelOffset_spec _ known slot.jump
  exact ⟨_, slot.operand, by omega⟩

/-- The map of a pass is up to date: it leads from the operand of every live slot to the slot and
nowhere else. -/
def JumpMap (P : BcOut) (posToJp : Nat → Option Nat) : Prop :=
  ∀ q k, posToJp q = some k ↔ 0 < (P.jp k).size ∧ (P.jp k).pos = (q : Int)

theorem Accurate.posToJp_map (accurate : P.Accurate) : P.JumpMap P.posToJp := by
  intro q k
  have test : ∀ k', (decide (0 < (P.jp k').size) && (P.jp k').pos == (q : Int)) = true ↔
      0 < (P.jp k').size ∧ (P.jp k').pos = (q : Int) := by
    intro k'
    simp
  constructor
  · intro found
    unfold posToJp at found
    split at found
    · have passed := List.find?_some found
      exact (test k).mp passed
    · cases found
  · intro ⟨live, here⟩
    have ⟨q', pos, inside⟩ := accurate.pos_lt_size live
    have same : q' = q := by omega
    subst same
    rw [posToJp, if_pos inside]
    have member : k ∈ (List.range P.jumpSlots.length).reverse := by
      simpa using jp_live_lt live
    cases found : List.find? (fun k => decide (0 < (P.jp k).size) && (P.jp k).pos == (q' : Int))
        (List.range P.jumpSlots.length).reverse with
    | none =>
        have absent := List.find?_eq_none.mp found k member
        exact (absent ((test k).mpr ⟨live, here⟩)).elim
    | some k' =>
        have passed := List.find?_some found
        have ⟨live', here'⟩ := (test k').mp passed
        rw [accurate.index_eq live' live (here'.trans here.symm)]

theorem label_lt_of_addr {label : Nat} {pos : Nat} (addr : P.labelAddr label = pos) :
    label < P.labelSlots.length := by
  by_contra outside
  have none : P.labelSlots[label]? = .none := List.getElem?_eq_none (by omega)
  simp only [labelAddr, labelSlot, none, Option.getD_none] at addr
  omega

theorem slotAt_eq_some (found : P.slotAt q = some j) :
    j ∈ P.jumpSlots ∧ 0 < j.size ∧ j.pos = (q : Int) := by
  have test := List.find?_some found
  simp only [Bool.and_eq_true, decide_eq_true_eq, beq_iff_eq] at test
  exact ⟨List.mem_of_find?_eq_some found, test⟩

theorem Accurate.slotAt_eq (accurate : P.Accurate) (live : 0 < (P.jp k).size)
    (here : (P.jp k).pos = (q : Int)) : P.slotAt q = some (P.jp k) := by
  have member := jp_mem (jp_live_lt live)
  cases found : P.slotAt q with
  | none =>
      have absent := List.find?_eq_none.mp found _ member
      simp [live, here] at absent
  | some j =>
      have ⟨member', live', here'⟩ := slotAt_eq_some found
      have ⟨k', bound', same⟩ := exists_jp member'
      have index : k' = k := by
        apply accurate.index_eq
        · rwa [same]
        · exact live
        · rw [same, here', here]
      rw [← same, index]

theorem Accurate.labelTargets_live (accurate : P.Accurate) (live : 0 < (P.jp k).size)
    (addr : P.labelAddr (P.jp k).label = (q : Int)) (inside : q < P.size) :
    P.liveLabelTargets q = true := by
  have bound := label_lt_of_addr addr
  have counted := accurate.counts _ bound
  have positive : 0 < P.liveCount (P.jp k).label := by
    apply List.countP_pos_iff.mpr
    exact ⟨P.jp k, jp_mem (jp_live_lt live), by simp [live]⟩
  have slot : P.labelSlot (P.jp k).label = P.labelSlots[(P.jp k).label] := by
    simp [labelSlot, bound]
  have found : P.labelSlots[(P.jp k).label] ∈ P.labelSlots := List.getElem_mem bound
  simp only [liveLabelTargets, labelTargets, Bool.and_eq_true, decide_eq_true_eq, List.any_eq_true,
    beq_iff_eq]
  refine ⟨inside, _, found, ?_, ?_⟩
  · rw [refCount, slot] at counted
    omega
  · rw [← slot]
    exact addr

theorem labelTargets_live_iff : P.liveLabelTargets q = true ↔
    q < P.size ∧ ∃ label < P.labelSlots.length, 0 < P.refCount label ∧ P.labelAddr label = q := by
  simp only [liveLabelTargets, labelTargets, Bool.and_eq_true, decide_eq_true_eq, List.any_eq_true,
    beq_iff_eq]
  constructor
  · rintro ⟨inside, slot, member, counted, addr⟩
    obtain ⟨label, bound, found⟩ := List.getElem_of_mem member
    have here : P.labelSlot label = slot := by simp [labelSlot, bound, found]
    exact ⟨inside, label, bound, by rw [refCount, here]; exact counted,
      by rw [labelAddr, here]; exact addr⟩
  · rintro ⟨inside, label, bound, counted, addr⟩
    have here : P.labelSlot label = P.labelSlots[label] := by simp [labelSlot, bound]
    refine ⟨inside, _, List.getElem_mem bound, ?_, ?_⟩
    · rwa [refCount, here] at counted
    · rwa [labelAddr, here] at addr

theorem Accurate.start_of_live (accurate : P.Accurate) (live : P.liveLabelTargets q = true) :
    P.Start q := by
  have ⟨_, label, bound, counted, addr⟩ := labelTargets_live_iff.mp live
  have count := accurate.counts label bound
  have some : 0 < P.liveCount label := by omega
  have ⟨j, member, test⟩ := List.countP_pos_iff.mp some
  simp only [Bool.and_eq_true, decide_eq_true_eq, beq_iff_eq] at test
  have ⟨pos, addr', start, _⟩ := accurate.targets j member test.1
  rw [test.2] at addr'
  have same : pos = q := by omega
  rwa [← same]

theorem find?_set_map {α β : Type} (l : List α) (k : Nat) (new : α) (test : α → Bool) (f : α → β)
    (same : ∀ old, l[k]? = some old → test new = test old ∧ f new = f old) :
    ((l.set k new).find? test).map f = (l.find? test).map f := by
  induction l generalizing k with
  | nil => rfl
  | cons head tail ih =>
      cases k with
      | zero =>
          have ⟨sameTest, sameValue⟩ := same head rfl
          simp only [List.set_cons_zero, List.find?_cons, sameTest]
          cases test head with
          | true => simp [sameValue]
          | false => rfl
      | succ k =>
          simp only [List.set_cons_succ, List.find?_cons]
          cases test head with
          | true => rfl
          | false => exact ih k fun old found => same old found

/-- A jump whose slot keeps its place and its label still goes to the same position. -/
theorem target_setJp (j : JumpSlot) (size : j.size = (P.jp k).size) (pos : j.pos = (P.jp k).pos)
    (label : j.label = (P.jp k).label) : (P.setJp k j).target q = P.target q := by
  have slots : ∀ at_, ((P.setJp k j).slotAt at_).map (·.label) = (P.slotAt at_).map (·.label) := by
    intro at_
    apply find?_set_map
    intro old found
    have here : P.jp k = old := by simp [jp, found]
    rw [size, pos, label, here]
    exact ⟨rfl, rfl⟩
  have targets : ∀ at_, ((P.setJp k j).slotAt at_).bind (P.setJp k j).slotTarget =
      (P.slotAt at_).bind P.slotTarget := by
    intro at_
    have mapped := slots at_
    cases first : (P.setJp k j).slotAt at_ <;> cases second : P.slotAt at_ <;>
      simp only [first, second, Option.map_some, Option.map_none, Option.some.injEq, reduceCtorEq]
        at mapped
    · rfl
    · simp only [Option.bind_some, slotTarget, mapped]
      rfl
  unfold target
  rw [setJp_opAt, targets]

/-- `P'` differs from `P` in the bytes from `a` to `e` only, and there both are runs of whole
instructions. -/
structure SegmentEdit (P P' : BcOut) (a e : Nat) : Prop where
  size : P'.size = P.size
  start : P.Start a
  stop : P.Start e
  order : a ≤ e
  inside : e ≤ P.size
  decodes : Decodes P'.buf a e
  same : ∀ i, i < a ∨ e ≤ i → P'.opAt i = P.opAt i

namespace SegmentEdit

theorem keeps_start (edit : SegmentEdit P P' a e) (start : P.Start q) (outside : q ≤ a ∨ e ≤ q) :
    P'.Start q := by
  rcases outside with before | after
  · exact start.congr fun i _ below => edit.same i (.inl (by omega))
  · exact Decodes.splice edit.start edit.stop start after edit.decodes edit.same

theorem code_eq (edit : SegmentEdit P P' a e) (start : P.Start q) (known : P.opAt q < opCount)
    (outside : q < a ∨ e ≤ q) (target : P'.target q = P.target q) : P'.code q = P.code q := by
  refine code_congr edit.size known (fun i low high => edit.same i ?_) target
  rcases outside with before | after
  · have fits := start.next_le edit.start before
    exact .inl (by unfold opAt at high; omega)
  · exact .inr (by omega)

end SegmentEdit

theorem SegmentEdit.of_buf (edit : SegmentEdit P P' a e) (P'' : BcOut) (same : P''.buf = P'.buf) :
    SegmentEdit P P'' a e where
  size := by rw [BcOut.size, same]; exact edit.size
  start := edit.start
  stop := edit.stop
  order := edit.order
  inside := edit.inside
  decodes := by rw [same]; exact edit.decodes
  same i outside := by rw [opAt, same]; exact edit.same i outside

theorem target_congr (op : P'.opAt q = P.opAt q) (jumps : P'.jumpSlots = P.jumpSlots)
    (labels : P'.labelSlots = P.labelSlots) : P'.target q = P.target q := by
  have slots : P'.slotAt = P.slotAt := by
    funext at_
    rw [slotAt, slotAt, jumps]
  have addrs : ∀ label, P'.labelAddr label = P.labelAddr label := fun label => by
    simp only [labelAddr, labelSlot, labels]
  have targets : P'.slotTarget = P.slotTarget := by
    funext j
    rw [slotTarget, slotTarget, addrs]
  rw [target, target, op, slots, targets]

theorem SlotAccurate.ne_of_plain (slot : P.SlotAccurate j p)
    (plain : hasLabelOperand (P.opAt q) = false) : p ≠ q := by
  intro same
  have jump := slot.jump
  rw [← slot.op, same, plain] at jump
  cases jump

/-- The jump at `q` goes to the same place when the slots with its operand are the same. -/
theorem Accurate.target_congr (accurate : P.Accurate) (accurate' : P'.Accurate)
    (op : P'.opAt q = P.opAt q) (addrs : ∀ label, P'.labelAddr label = P.labelAddr label)
    (slots : hasLabelOperand (P.opAt q) → ∀ k, (P.jp k).pos = (q + labelOffset (P.opAt q) : Nat) ∨
      (P'.jp k).pos = (q + labelOffset (P.opAt q) : Nat) → P'.jp k = P.jp k) :
    P'.target q = P.target q := by
  have targets : P'.slotTarget = P.slotTarget := by
    funext j
    rw [slotTarget, slotTarget, addrs]
  unfold target
  rw [op, targets]
  split
  · rename_i label
    congr 1
    cases found : P.slotAt (q + labelOffset (P.opAt q)) with
    | some j =>
        have ⟨member, live, here⟩ := slotAt_eq_some found
        have ⟨k, _, same⟩ := exists_jp member
        subst same
        have kept := slots label k (.inl here)
        rw [accurate'.slotAt_eq (k := k) (by rwa [kept]) (by rwa [kept]), kept]
    | none =>
        cases found' : P'.slotAt (q + labelOffset (P.opAt q)) with
        | none => rfl
        | some j =>
            have ⟨member, live, here⟩ := slotAt_eq_some found'
            have ⟨k, _, same⟩ := exists_jp member
            subst same
            have kept := slots label k (.inr here)
            rw [kept] at live here
            rw [accurate.slotAt_eq live here] at found
            cases found
  · rfl

theorem refCount_decRef (label : Nat) {l : Nat} (bound : l < P.labelSlots.length) :
    (P.decRef label).refCount l = P.refCount l - (if label = l then 1 else 0) := by
  split
  · rename_i same
    subst same
    exact refCount_decRef_same bound
  · rename_i other
    rw [refCount_decRef_ne (Ne.symm other), Int.sub_zero]

section

variable (accurate : P.Accurate) (start : P.Start q) (inside : q < P.size)
  (label : hasLabelOperand (P.opAt q))

include accurate start inside label

/-- The operand of a label stands inside its instruction. -/
theorem Accurate.operand_inside :
    q < q + labelOffset (P.opAt q) ∧ q + labelOffset (P.opAt q) < q + opSize (P.opAt q) := by
  have ⟨room, positive, offset⟩ := labelOffset_spec _ (accurate.known start inside) label
  omega

/-- The slot that the operand of a jump leads to describes the jump. -/
theorem Accurate.slotAt_slot (found : P.slotAt (q + labelOffset (P.opAt q)) = some j) :
    P.SlotAccurate j q := by
  have ⟨member, live, here⟩ := slotAt_eq_some found
  have ⟨p, slot⟩ := accurate.slots j member live
  have operand := slot.operand
  rw [← slot.op] at operand
  have jump := slot.jump
  rw [← slot.op] at jump
  have ⟨low, high⟩ := accurate.operand_inside start inside label
  have ⟨low', high'⟩ := accurate.operand_inside slot.start slot.inside jump
  rcases Nat.lt_trichotomy p q with before | same | after
  · have fits := slot.start.next_le start before
    unfold opAt at *
    omega
  · rwa [← same]
  · have fits := start.next_le slot.start after
    unfold opAt at *
    omega

end

/-- Rewriting instructions that no live slot describes, with no live label inside them. -/
theorem Accurate.edit_plain (accurate : P.Accurate) (edit : SegmentEdit P P' a e)
    (jumps : P'.jumpSlots = P.jumpSlots) (labels : P'.labelSlots = P.labelSlots)
    (plain : ∀ j ∈ P.jumpSlots, 0 < j.size → ∀ q, P.SlotAccurate j q → q < a ∨ e ≤ q)
    (unlabelled : ∀ q, a < q → q < e → P.Start q → P.liveLabelTargets q = false) :
    P'.Accurate where
  decodes := by
    rw [edit.size]
    exact edit.keeps_start accurate.decodes (.inr edit.inside)
  slots j member live := by
    rw [jumps] at member
    have ⟨pos, slot⟩ := accurate.slots j member live
    have outside := plain j member live pos slot
    have sameOp : P'.opAt pos = P.opAt pos := edit.same pos outside
    exact ⟨pos, {
      start := edit.keeps_start slot.start (by omega)
      inside := edit.size ▸ slot.inside
      op := sameOp.trans slot.op
      jump := slot.jump
      width := slot.width
      operand := slot.operand }⟩
  distinct := by
    rw [jumps]
    exact accurate.distinct
  targets j member live := by
    rw [jumps] at member
    have ⟨k, bound, same⟩ := exists_jp member
    subst same
    have ⟨pos, addr, start, inside⟩ := accurate.targets _ member live
    have address : P'.labelAddr (P.jp k).label = pos := by
      rw [← addr]
      simp only [labelAddr, labelSlot, labels]
    have outside : pos ≤ a ∨ e ≤ pos := by
      by_contra within
      have room := edit.inside
      have label := accurate.labelTargets_live live addr (by omega)
      rw [unlabelled pos (by omega) (by omega) start] at label
      cases label
    exact ⟨pos, address, edit.keeps_start start outside, edit.size ▸ inside⟩
  counts label bound := by
    rw [labels] at bound
    have counted := accurate.counts label bound
    simpa only [refCount, labelSlot, labels, liveCount, jumps] using counted

/-- The edit of a single opcode byte to an opcode of the same size. -/
theorem segmentEdit_write (op : Nat) (accurate : P.Accurate) (start : P.Start p)
    (inside : p < P.size) (known : op < opCount) (size : opSize op = opSize (P.opAt p)) :
    SegmentEdit P (P.write p op) p (p + opSize (P.opAt p)) := by
  have small : op < 256 := Nat.lt_trans known (by decide)
  have here : (P.write p op).opAt p = op := opAt_write_same inside small
  refine ⟨write_size P p op, start, accurate.next start inside, by omega, ?_, ?_, ?_⟩
  · exact (accurate.next start inside).suffix accurate.decodes
      ((start.suffix accurate.decodes inside.le).size_le inside) |>.le
  · have single : Decodes (P.write p op).buf p (p + opSize ((P.write p op).opAt p)) :=
      Decodes.one (by rw [opAt] at here; rwa [here])
    rwa [here, size] at single
  · intro i outside
    have positive := accurate.size_pos start inside
    exact opAt_write_ne (by omega)

/-- Filling a whole instruction with `nop`s. -/
theorem segmentEdit_nops (accurate : P.Accurate) (start : P.Start p) (inside : p < P.size) :
    SegmentEdit P (P.nopFullInstruction p) p (p + opSize (P.opAt p)) := by
  have fits : p + opSize (P.opAt p) ≤ P.size :=
    (start.suffix accurate.decodes inside.le).size_le inside
  refine ⟨writeNops_size P _ _, start, accurate.next start inside, by omega, fits, ?_, ?_⟩
  · exact Decodes.nops (by omega) fun i low high =>
      opAt_writeNops_inside low high (by omega)
  · intro i outside
    exact opAt_writeNops_outside outside

/-! Jump slots: a slot is erased, its opcode turns into another one of the same form, or it goes
to another label. -/

theorem liveCount_set (bound : k < P.jumpSlots.length) (j : JumpSlot) (label : Nat)
    (jumps : P'.jumpSlots = P.jumpSlots.set k j) :
    P'.liveCount label + (if 0 < (P.jp k).size ∧ (P.jp k).label = label then 1 else 0) =
      P.liveCount label + (if 0 < j.size ∧ j.label = label then 1 else 0) := by
  have here : P.jumpSlots[k] = P.jp k := (jp_eq_getElem bound).symm
  have counted : P.liveCount label ≥ if 0 < (P.jp k).size ∧ (P.jp k).label = label then 1 else 0 := by
    split
    · rename_i live
      apply List.countP_pos_iff.mpr
      exact ⟨P.jp k, jp_mem bound, by simp [live]⟩
    · exact Nat.zero_le _
  unfold liveCount at counted ⊢
  rw [jumps, List.countP_set bound, here]
  simp only [Bool.and_eq_true, decide_eq_true_eq, beq_iff_eq]
  omega

theorem mem_set_jp {k : Nat} {new : JumpSlot} (member : j ∈ P.jumpSlots.set k new) :
    j = new ∨ ∃ k', k' ≠ k ∧ k' < P.jumpSlots.length ∧ P.jp k' = j := by
  have ⟨k', bound, found⟩ := List.getElem_of_mem member
  rw [List.length_set] at bound
  by_cases same : k = k'
  · subst same
    rw [List.getElem_set_self] at found
    exact .inl found.symm
  · rw [List.getElem_set_ne same] at found
    exact .inr ⟨k', fun equal => same equal.symm, bound, by rw [jp_eq_getElem bound, found]⟩

theorem pairwise_set {l : List JumpSlot} {new : JumpSlot}
    (distinct : l.Pairwise fun a b => 0 < a.size → 0 < b.size → a.pos ≠ b.pos)
    (fits : ∀ old, l[k]? = some old → 0 < new.size → 0 < old.size ∧ new.pos = old.pos) :
    (l.set k new).Pairwise fun a b => 0 < a.size → 0 < b.size → a.pos ≠ b.pos := by
  rw [List.pairwise_iff_getElem] at distinct ⊢
  intro i j boundI boundJ before liveI liveJ
  rw [List.length_set] at boundI boundJ
  by_cases first : k = i
  · subst first
    rw [List.getElem_set_self] at liveI ⊢
    rw [List.getElem_set_ne (by omega)] at liveJ ⊢
    have ⟨liveOld, pos⟩ := fits _ (List.getElem?_eq_getElem boundI) liveI
    rw [pos]
    exact distinct k j boundI boundJ before liveOld liveJ
  · rw [List.getElem_set_ne first] at liveI ⊢
    by_cases second : k = j
    · subst second
      rw [List.getElem_set_self] at liveJ ⊢
      have ⟨liveOld, pos⟩ := fits _ (List.getElem?_eq_getElem boundJ) liveJ
      rw [pos]
      exact distinct i k boundI boundJ before liveI liveOld
    · rw [List.getElem_set_ne second] at liveJ ⊢
      exact distinct i j boundI boundJ before liveI liveJ

section

variable (accurate : P.Accurate) (live : 0 < (P.jp k).size) (slot : P.SlotAccurate (P.jp k) p)
  (edit : SegmentEdit P P' p (p + opSize (P.opAt p)))

include accurate live slot edit

/-- The jump of slot `k` is overwritten and its slot becomes `new`: erased, or a description of
the jump that stands there now. -/
theorem Accurate.edit_slot {new : JumpSlot} (jumps : P'.jumpSlots = P.jumpSlots.set k new)
    (fits : 0 < new.size → P'.SlotAccurate new p ∧ new.pos = (P.jp k).pos ∧
      ∃ pos : Nat, P.labelAddr new.label = pos ∧ P.Start pos ∧ pos ≤ P.size)
    (addrs : ∀ label, P'.labelAddr label = P.labelAddr label)
    (length : P'.labelSlots.length = P.labelSlots.length) (refs : ∀ label < P.labelSlots.length,
      P'.refCount label + (if (P.jp k).label = label then 1 else 0) =
        P.refCount label + (if 0 < new.size ∧ new.label = label then 1 else 0)) : P'.Accurate := by
  have bound := jp_live_lt live
  have keeps : ∀ q, P.Start q → P'.Start q := by
    intro q start
    refine edit.keeps_start start ?_
    by_cases before : q ≤ p
    · exact .inl before
    · exact .inr (slot.start.next_le start (by omega))
  constructor
  · rw [edit.size]
    exact keeps _ accurate.decodes
  · intro j member liveJ
    rw [jumps] at member
    rcases mem_set_jp member with same | ⟨k', other, bound', same⟩
    · subst same
      exact ⟨p, (fits liveJ).1⟩
    · subst same
      obtain ⟨pos, slot'⟩ := accurate.slot liveJ
      have outside : pos < p ∨ p + opSize (P.opAt p) ≤ pos := by
        rcases Nat.lt_trichotomy pos p with before | equal | after
        · exact .inl before
        · subst equal
          refine (other ?_).elim
          apply accurate.index_eq liveJ live
          rw [slot'.operand, slot.operand, ← slot'.op, ← slot.op]
        · exact .inr (slot.start.next_le slot'.start after)
      exact ⟨pos, {
        start := keeps _ slot'.start
        inside := edit.size ▸ slot'.inside
        op := (edit.same pos outside).trans slot'.op
        jump := slot'.jump
        width := slot'.width
        operand := slot'.operand }⟩
  · rw [jumps]
    apply pairwise_set accurate.distinct
    intro old found alive
    have here : P.jp k = old := by simp [jp, found]
    rw [← here]
    exact ⟨live, (fits alive).2.1⟩
  · intro j member liveJ
    rw [jumps] at member
    rcases mem_set_jp member with same | ⟨k', _, _, same⟩
    · subst same
      obtain ⟨pos, addr, start, inside⟩ := (fits liveJ).2.2
      exact ⟨pos, (addrs _).trans addr, keeps _ start, edit.size ▸ inside⟩
    · subst same
      obtain ⟨pos, addr, start, inside⟩ := accurate.jumpTarget liveJ
      exact ⟨pos, (addrs _).trans addr, keeps _ start, edit.size ▸ inside⟩
  · intro label boundLabel
    rw [length] at boundLabel
    have counted := accurate.counts label boundLabel
    have moved := liveCount_set bound new label jumps
    have ref := refs label boundLabel
    simp only [live, true_and] at moved
    split_ifs at moved ref <;> omega

/-- The jump of slot `k` is overwritten by instructions that do not jump; its slot is erased and
its label loses a reference. -/
theorem Accurate.edit_kill {dead : JumpSlot} (erased : dead.size = 0)
    (jumps : P'.jumpSlots = P.jumpSlots.set k dead)
    (labels : P'.labelSlots = (P.decRef (P.jp k).label).labelSlots) : P'.Accurate := by
  have same : ∀ label, P'.labelSlot label = (P.decRef (P.jp k).label).labelSlot label :=
    fun label => by simp only [labelSlot, labels]
  refine accurate.edit_slot live slot edit jumps (fun alive => ?_) (fun label => ?_) ?_ ?_
  · omega
  · exact (congrArg (·.addr) (same label)).trans (decRef_labelAddr P _ _)
  · rw [labels]
    simp [decRef, setLabel]
  · intro label bound
    have ref : P'.refCount label = (P.decRef (P.jp k).label).refCount label :=
      congrArg (·.refCount) (same label)
    rw [ref]
    by_cases own : label = (P.jp k).label
    · subst own
      rw [refCount_decRef_same bound]
      simp [erased]
    · rw [refCount_decRef_ne own]
      simp [erased, Ne.symm own]

end

end PrimJs.BcOut
