import Mathlib.Data.List.Forall2
import PrimJs.Optimizer.JumpOffsets

/-! Passes that take bytes out of `bc_out`: a map of positions says where every instruction
goes, and the slots, labels and pc tables of the function follow it. -/

namespace PrimJs

structure LineNumberSlot where
  pc : Nat
  lineNum : Nat
  deriving DecidableEq, Repr

structure CallerStrSlot where
  pc : Nat
  deriving DecidableEq, Repr

/-- `bc_out` with the tables of its function that hold positions in it. -/
structure BcFunction extends BcOut where
  lineNumberSlots : List LineNumberSlot
  callerSlots : List CallerStrSlot
  deriving DecidableEq, Repr

namespace BcOut

section Definitions

variable (kept : Nat → Prop) (renders : Nat → Nat → Prop) (f : Nat → Nat) (P Q : BcOut)

/-- The instruction at `p` stands at `f p` in the new code and the next one follows it. -/
structure Rendered (p : Nat) : Prop where
  known : Q.opAt (f p) < opCount
  op : renders (P.opAt p) (Q.opAt (f p))
  operands : Q.operandBytes (f p) = P.operandBytes p
  next : f (p + opSize (P.opAt p)) = f p + opSize (Q.opAt (f p))

/-- `Q` is `P` without the instructions that are not `kept`, which lead to the next one. -/
structure Relocates : Prop where
  first : f 0 = 0
  last : f P.size = Q.size
  dropped : ∀ p, P.Start p → p < P.size → ¬ kept (P.opAt p) → f (p + opSize (P.opAt p)) = f p
  rendered : ∀ p, P.Start p → p < P.size → kept (P.opAt p) → Rendered renders f P Q p

structure SlotMoved (j j' : JumpSlot) : Prop where
  label : j'.label = j.label
  live : 0 < j'.size ↔ 0 < j.size
  slot : ∀ p, 0 < j.size → P.SlotAccurate j p → Q.SlotAccurate j' (f p)

/-- A label at an instruction, or at the end of the code, stays with it. -/
structure LabelMoved (l l' : LabelSlot) : Prop where
  refCount : l'.refCount = l.refCount
  unset : l.addr < 0 → l'.addr = l.addr
  addr : ∀ p : Nat, l.addr = p → P.Start p → p ≤ P.size → l'.addr = f p

/-- Labels and jump slots follow the instructions. -/
structure SlotsMoved : Prop where
  labels : List.Forall₂ (LabelMoved f P) P.labelSlots Q.labelSlots
  jumps : List.Forall₂ (SlotMoved f P Q) P.jumpSlots Q.jumpSlots

end Definitions

variable {kept : Nat → Prop} {renders : Nat → Nat → Prop} {f : Nat → Nat} {P Q : BcOut}
  {p q : Nat}

/-- What every instruction passes on to the next one holds from each instruction to the later
ones. -/
theorem Accurate.along {R : Nat → Nat → Prop} (accurate : P.Accurate) (refl : ∀ a, R a a)
    (trans : ∀ a b c, R a b → R b c → R a c)
    (step : ∀ a, P.Start a → a < P.size → R a (a + opSize (P.opAt a))) (start : P.Start p)
    (start' : P.Start q) (order : p ≤ q) (inside : q ≤ P.size) : R p q := by
  have walk : ∀ {a b : Nat}, Decodes P.buf a b → P.Start a → b ≤ P.size → R a b := by
    intro a b run
    induction run with
    | done a => exact fun _ _ => refl a
    | @instr a b known later ih =>
        intro here bound
        have before : a + opSize (P.opAt a) ≤ b := later.le
        have positive := opSize_pos _ known
        have within : a < P.size := by unfold opAt at before; omega
        exact trans _ _ _ (step a here within) (ih (accurate.next here within) bound)
  exact walk (start.suffix start' order) start inside

theorem slice_length {buf : List UInt8} {start count : Nat} (room : start + count ≤ buf.length) :
    (slice buf start count).length = count := by
  simp only [slice, List.length_take, List.length_drop]
  omega

theorem slice_moved {buf buf' : List UInt8} {a b count : Nat}
    (same : ∀ k < count, buf'[a + k]? = buf[b + k]?) : slice buf' a count = slice buf b count := by
  apply List.ext_getElem?
  intro k
  simp only [slice, List.getElem?_take, List.getElem?_drop]
  split
  · exact same k ‹_›
  · rfl

/-- An instruction that moved with its bytes -/
theorem Rendered.of_bytes (refl : ∀ op, renders op op) (accurate : P.Accurate) (start : P.Start p)
    (inside : p < P.size) (same : ∀ k < opSize (P.opAt p), Q.buf[f p + k]? = P.buf[p + k]?)
    (next : f (p + opSize (P.opAt p)) = f p + opSize (P.opAt p)) : Rendered renders f P Q p := by
  have known := accurate.known start inside
  have positive := accurate.size_pos start inside
  have op : Q.opAt (f p) = P.opAt p := by
    have first := same 0 positive
    simp only [Nat.add_zero] at first
    rw [opAt, byteAt, first]
    rfl
  have part (i count : Nat) (low : i + count ≤ opSize (P.opAt p)) :
      slice Q.buf (f p + i) count = slice P.buf (p + i) count :=
    slice_moved fun k inPart => by
      rw [Nat.add_assoc, Nat.add_assoc]
      exact same _ (by omega)
  refine ⟨op ▸ known, op ▸ refl _, ?_, by rw [op, next]⟩
  have wide := atomLabel_size _ known
  unfold operandBytes
  rw [op]
  split
  case h_1 | h_2 | h_3 | h_4 => rfl
  case h_5 format | h_6 format =>
    have room := wide (by simp [format])
    rw [part 1 4 (by omega), part 9 _ (by omega)]
  case h_7 => exact part 1 _ (by omega)

namespace Relocates

theorem step (moved : Relocates kept renders f P Q) (start : P.Start p) (inside : p < P.size)
    (there : Q.Start (f p)) :
    f p ≤ f (p + opSize (P.opAt p)) ∧ Q.Start (f (p + opSize (P.opAt p))) := by
  by_cases keep : kept (P.opAt p)
  · have here := moved.rendered p start inside keep
    rw [here.next]
    exact ⟨Nat.le_add_right _ _, there.trans (.one here.known)⟩
  · rw [moved.dropped p start inside keep]
    exact ⟨Nat.le_refl _, there⟩

theorem walk (moved : Relocates kept renders f P Q) (accurate : P.Accurate)
    (run : Decodes P.buf p q) (start : P.Start p) (inside : q ≤ P.size) (there : Q.Start (f p)) :
    f p ≤ f q ∧ Q.Start (f q) := by
  induction run with
  | done p => exact ⟨Nat.le_refl _, there⟩
  | @instr p q known later ih =>
      have positive := opSize_pos _ known
      have before := later.le
      have within : p < P.size := by omega
      have ⟨order, next⟩ := moved.step start within there
      have ⟨more, stop⟩ := ih (accurate.next start within) inside next
      exact ⟨by unfold opAt at order; omega, stop⟩

theorem start (moved : Relocates kept renders f P Q) (accurate : P.Accurate) (start : P.Start p)
    (inside : p ≤ P.size) : Q.Start (f p) := by
  have origin : Q.Start (f 0) := by
    rw [moved.first]
    exact .done 0
  exact (moved.walk accurate start (.done 0) inside origin).2

section

variable (moved : Relocates kept renders f P Q) (accurate : P.Accurate)

include moved accurate

theorem mono (start : P.Start p) (start' : P.Start q) (order : p ≤ q) (inside : q ≤ P.size) :
    f p ≤ f q := by
  have there := moved.start accurate start (by omega)
  exact (moved.walk accurate (start.suffix start' order) start inside there).1

theorem le_size (start : P.Start p) (inside : p ≤ P.size) : f p ≤ Q.size := by
  rw [← moved.last]
  exact moved.mono accurate start accurate.decodes inside (Nat.le_refl _)

theorem strict (start : P.Start p) (start' : P.Start q) (before : p < q) (inside : q ≤ P.size)
    (keep : kept (P.opAt p)) : f p < f q := by
  have within : p < P.size := by omega
  have here := moved.rendered p start within keep
  have positive := opSize_pos _ here.known
  have order := start.next_le start' before
  have after := moved.mono accurate (accurate.next start within) start' order inside
  rw [here.next] at after
  omega

/-- Where no instruction grows, none moves away from another. -/
theorem contract (narrow : ∀ op op', renders op op' → opSize op' ≤ opSize op) (start : P.Start p)
    (start' : P.Start q) (order : p ≤ q) (inside : q ≤ P.size) : f q + p ≤ f p + q := by
  refine accurate.along (R := fun a b => f b + a ≤ f a + b) (fun a => Nat.le_refl _)
    (fun a b c first second => by omega) ?_ start start' order inside
  intro a here within
  by_cases keep : kept (P.opAt a)
  · have rendered := moved.rendered a here within keep
    have narrower := narrow _ _ rendered.op
    rw [rendered.next]
    omega
  · rw [moved.dropped a here within keep]
    omega

theorem lt_size (start : P.Start p) (inside : p < P.size) (keep : kept (P.opAt p)) :
    f p < Q.size := by
  rw [← moved.last]
  exact moved.strict accurate start accurate.decodes inside (Nat.le_refl _) keep

theorem injective (start : P.Start p) (start' : P.Start q) (inside : p < P.size)
    (inside' : q < P.size) (keep : kept (P.opAt p)) (keep' : kept (P.opAt q)) (same : f p = f q) :
    p = q := by
  rcases Nat.lt_trichotomy p q with before | equal | after
  · have order := moved.strict accurate start start' before inside'.le keep
    omega
  · exact equal
  · have order := moved.strict accurate start' start after inside.le keep'
    omega

/-- Every instruction of the new code comes from a kept one. -/
theorem onto (there : Q.Start q) (inside : q < Q.size) :
    ∃ p, P.Start p ∧ p < P.size ∧ kept (P.opAt p) ∧ f p = q := by
  -- the walk over the old code cannot step over `q`
  have search : ∀ {a b : Nat}, Decodes P.buf a b → b = P.size → P.Start a → f a ≤ q →
      ∃ p, P.Start p ∧ p < P.size ∧ kept (P.opAt p) ∧ f p = q := by
    intro a b run
    induction run with
    | done a =>
        intro stop _ before
        rw [stop, moved.last] at before
        omega
    | @instr a b known later ih =>
        intro stop start before
        have positive := opSize_pos _ known
        have order := later.le
        have within : a < P.size := by omega
        have next := accurate.next start within
        by_cases keep : kept (P.opAt a)
        · by_cases here : f a = q
          · exact ⟨a, start, within, keep, here⟩
          · have rendered := moved.rendered a start within keep
            have fits := (moved.start accurate start within.le).next_le there (by omega)
            refine ih stop next ?_
            have after := rendered.next
            unfold opAt at after
            omega
        · refine ih stop next ?_
          have after := moved.dropped a start within keep
          unfold opAt at after
          omega
  refine search accurate.decodes rfl (.done 0) ?_
  rw [moved.first]
  exact Nat.zero_le _

end

end Relocates

theorem SlotsMoved.labelSlot (slots : SlotsMoved f P Q) (label : Nat)
    (bound : label < P.labelSlots.length) :
    LabelMoved f P (P.labelSlot label) (Q.labelSlot label) := by
  have length := slots.labels.length_eq
  have moved := (List.forall₂_iff_get.mp slots.labels).2 label bound (by omega)
  simpa [BcOut.labelSlot, bound, length ▸ bound] using moved

theorem SlotsMoved.labelAddr (slots : SlotsMoved f P Q) {label : Nat}
    (addr : P.labelAddr label = p) (start : P.Start p) (inside : p ≤ P.size) :
    Q.labelAddr label = f p :=
  (slots.labelSlot label (label_lt_of_addr addr)).addr p addr start inside

variable {j' j : JumpSlot}

theorem SlotsMoved.exists_old (slots : SlotsMoved f P Q) (member : j' ∈ Q.jumpSlots) :
    ∃ j ∈ P.jumpSlots, SlotMoved f P Q j j' := by
  have ⟨k, bound, found⟩ := List.getElem_of_mem member
  have same := slots.jumps.length_eq
  have bound' : k < P.jumpSlots.length := by omega
  refine ⟨P.jumpSlots[k], List.getElem_mem bound', ?_⟩
  have moved := (List.forall₂_iff_get.mp slots.jumps).2 k bound' bound
  rw [List.get_eq_getElem, List.get_eq_getElem, found] at moved
  exact moved

theorem countP_live_eq {l l' : List JumpSlot} (jumps : List.Forall₂ (SlotMoved f P Q) l l')
    (label : Nat) : l'.countP (fun j => decide (0 < j.size) && j.label == label) =
      l.countP fun j => decide (0 < j.size) && j.label == label := by
  induction jumps with
  | nil => rfl
  | @cons j j' _ _ moved _ ih =>
      have live : (decide (0 < j'.size) && j'.label == label) =
          (decide (0 < j.size) && j.label == label) := by
        rw [moved.label, decide_eq_decide.mpr moved.live]
      rw [List.countP_cons, List.countP_cons, ih, live]

theorem SlotsMoved.liveCount (slots : SlotsMoved f P Q) (label : Nat) :
    Q.liveCount label = P.liveCount label :=
  countP_live_eq slots.jumps label

/-- Slots that stand for one instruction have one operand position. -/
theorem SlotAccurate.pos_eq (slot : Q.SlotAccurate j q) (slot' : Q.SlotAccurate j' q) :
    j.pos = j'.pos := by
  rw [slot.operand, slot'.operand, ← slot.op, ← slot'.op]

theorem SlotAccurate.known (slot : Q.SlotAccurate j q) (whole : Q.Start Q.size) :
    Q.opAt q < opCount :=
  (slot.start.suffix whole slot.inside.le).known slot.inside

/-- The operand position tells the instruction. -/
theorem SlotAccurate.start_eq (slot : Q.SlotAccurate j p) (slot' : Q.SlotAccurate j' q)
    (whole : Q.Start Q.size) (same : j.pos = j'.pos) : p = q := by
  have inside : ∀ {j : JumpSlot} {p : Nat}, Q.SlotAccurate j p →
      (p : Int) < j.pos ∧ j.pos < (p + opSize (Q.opAt p) : Nat) := by
    intro j p slot
    have jump := slot.jump
    have operand := slot.operand
    rw [← slot.op] at jump operand
    have ⟨room, positive, offset⟩ := labelOffset_spec _ (slot.known whole) jump
    omega
  have here := inside slot
  have here' := inside slot'
  by_contra other
  have separate := apart_of_starts slot.start slot'.start other
  omega

/-- Accuracy moves with the code. -/
theorem Accurate.relocate (jumpsKept : ∀ op, hasLabelOperand op → kept op) (accurate : P.Accurate)
    (moved : Relocates kept renders f P Q) (slots : SlotsMoved f P Q) : Q.Accurate := by
  have whole : Q.Start Q.size := by
    rw [← moved.last]
    exact moved.start accurate accurate.decodes (Nat.le_refl _)
  refine ⟨whole, ?_, ?_, ?_, ?_⟩
  · intro j' member live
    have ⟨j, old, slotMoved⟩ := slots.exists_old member
    have alive := slotMoved.live.mp live
    have ⟨p, slot⟩ := accurate.slots j old alive
    exact ⟨f p, slotMoved.slot p alive slot⟩
  · rw [List.pairwise_iff_getElem]
    intro k k' bound bound' order live live' same
    have length := slots.jumps.length_eq
    have moves := (List.forall₂_iff_get.mp slots.jumps).2
    have first := moves k (by omega) bound
    have second := moves k' (by omega) bound'
    simp only [List.get_eq_getElem] at first second
    have alive := first.live.mp live
    have alive' := second.live.mp live'
    have ⟨p, slot⟩ := accurate.slots _ (List.getElem_mem _) alive
    have ⟨q, slot'⟩ := accurate.slots _ (List.getElem_mem _) alive'
    have images := (first.slot p alive slot).start_eq (second.slot q alive' slot') whole same
    have keep := jumpsKept _ (slot.op ▸ slot.jump)
    have keep' := jumpsKept _ (slot'.op ▸ slot'.jump)
    have equal := moved.injective accurate slot.start slot'.start slot.inside slot'.inside keep
      keep' images
    subst equal
    have pairs := List.pairwise_iff_getElem.mp accurate.distinct
    exact pairs k k' (by omega) (by omega) order alive alive' (slot.pos_eq slot')
  · intro j' member live
    have ⟨j, old, slotMoved⟩ := slots.exists_old member
    have ⟨p, addr, start, inside⟩ := accurate.targets j old (slotMoved.live.mp live)
    refine ⟨f p, ?_, moved.start accurate start inside, moved.le_size accurate start inside⟩
    rw [slotMoved.label]
    exact slots.labelAddr addr start inside
  · intro label bound
    have length := slots.labels.length_eq
    rw [slots.liveCount, ← accurate.counts label (by omega)]
    exact (slots.labelSlot label (by omega)).refCount

/-- Writing the offsets leaves the instructions where they are. -/
theorem Relocates.rewriteOffsets (moved : Relocates kept renders f P Q) (accurate : P.Accurate)
    (accurate' : Q.Accurate) : Relocates kept renders f P Q.rewriteOffsets where
  first := moved.first
  last := moved.last.trans (rewriteOffsets_size Q).symm
  dropped := moved.dropped
  rendered p start inside keep := by
    have here := moved.rendered p start inside keep
    have there := moved.start accurate start inside.le
    have within := moved.lt_size accurate start inside keep
    have op := accurate'.opAt_rewriteOffsets there within
    exact ⟨op ▸ here.known, op ▸ here.op,
      (accurate'.operandBytes_rewriteOffsets there within).trans here.operands, op ▸ here.next⟩

theorem SlotsMoved.rewriteOffsets (slots : SlotsMoved f P Q) (accurate : Q.Accurate) :
    SlotsMoved f P Q.rewriteOffsets where
  labels := slots.labels
  jumps := slots.jumps.imp fun _ _ moved => ⟨moved.label, moved.live, fun p live slot =>
    (moved.slot p live slot).rewriteOffsets accurate⟩

/-- A jump whose instruction is unchanged spans no more than before. -/
theorem Relocates.fits {t : Nat} (moved : Relocates kept renders f P Q) (accurate : P.Accurate)
    (narrow : ∀ op op', renders op op' → opSize op' ≤ opSize op) (slots : SlotsMoved f P Q)
    (keep : kept (P.opAt p)) (slot : P.SlotAccurate j p) (slot' : Q.SlotAccurate j' (f p))
    (op : j'.op = j.op) (label : j'.label = j.label) (addr : P.labelAddr j.label = t)
    (target : P.Start t) (bound : t ≤ P.size) (fits : FitsWidth j.size (P.diffOf j)) :
    FitsWidth j'.size (Q.diffOf j') := by
  have width : j'.size = j.size := by rw [slot'.width, op, ← slot.width]
  have addr' : Q.labelAddr j'.label = f t := label ▸ slots.labelAddr addr target bound
  have before : P.diffOf j = t - (p + labelOffset j.op : Nat) := by rw [diffOf, addr, slot.operand]
  have after : Q.diffOf j' = f t - (f p + labelOffset j.op : Nat) := by
    rw [diffOf, addr', slot'.operand, op]
  have next := (moved.rendered p slot.start slot.inside keep).next
  rw [slot'.op, slot.op, op] at next
  have inside := (accurate.operand_inside slot.start slot.inside (slot.op ▸ slot.jump)).2
  rw [slot.op] at inside
  have none : FitsWidth j.size 0 := by
    unfold FitsWidth
    split <;> omega
  rw [width]
  by_cases forward : p < t
  · have near := moved.contract accurate narrow slot.start target forward.le bound
    have room := slot.start.next_le target forward
    have start' := accurate.next slot.start slot.inside
    have far := moved.mono accurate start' target room bound
    have same : opSize (P.opAt p) = opSize j.op := by rw [slot.op]
    rw [same] at far
    exact none.between fits (by omega) (by omega)
  · have near := moved.contract accurate narrow target slot.start (by omega) slot.inside.le
    have far := moved.mono accurate target slot.start (by omega) slot.inside.le
    exact fits.between none (by omega) (by omega)

theorem SlotsMoved.refl (P : BcOut) : SlotsMoved id P P where
  labels := List.forall₂_same.mpr fun _ _ => ⟨rfl, fun _ => rfl, fun _ addr _ _ => addr⟩
  jumps := List.forall₂_same.mpr fun _ _ => ⟨rfl, Iff.rfl, fun _ _ slot => slot⟩

/-- The slot of an instruction that did not change -/
theorem SlotAccurate.carried {j j' : JumpSlot} (slot : P.SlotAccurate j q)
    (rendered : Rendered Eq f P Q q) (start : Q.Start (f q)) (inside : f q < Q.size)
    (op : j'.op = j.op) (size : j'.size = j.size) (pos : j'.pos + q = j.pos + f q) :
    Q.SlotAccurate j' (f q) where
  start := start
  inside := inside
  op := by rw [← rendered.op, slot.op, op]
  jump := op ▸ slot.jump
  width := by rw [size, op, slot.width]
  operand := by
    have operand := slot.operand
    rw [op]
    omega

end BcOut

end PrimJs
