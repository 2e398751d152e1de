import PrimJs.Optimizer.Edit

/-! The relative offsets that jump instructions carry. The passes work on slots and labels;
`opt_nop_strip` and `opt_jump_shrink` end by writing every offset from them. -/

namespace PrimJs

/-- The operand of `width` bytes at `pos`, with its sign. -/
def signedAt (buf : List UInt8) (pos width : Nat) : Int :=
  match width with
  | 1 => toInt8 (getU8 buf pos)
  | 2 => toInt16 (getU16 buf pos)
  | _ => toInt32 (getU32 buf pos)

/-- `diff` fits a signed operand of `width` bytes. -/
def FitsWidth (width : Nat) (diff : Int) : Prop :=
  match width with
  | 1 => -128 ≤ diff ∧ diff ≤ 127
  | 2 => -32768 ≤ diff ∧ diff ≤ 32767
  | _ => -2147483648 ≤ diff ∧ diff ≤ 2147483647

instance (width : Nat) (diff : Int) : Decidable (FitsWidth width diff) := by
  unfold FitsWidth
  split <;> infer_instance

theorem FitsWidth.between {width : Nat} {low high diff : Int} (lower : FitsWidth width low)
    (upper : FitsWidth width high) (above : low ≤ diff) (below : diff ≤ high) :
    FitsWidth width diff := by
  unfold FitsWidth at *
  split at lower <;> simp_all <;> omega

theorem signedAt_congr {buf buf' : List UInt8} {pos width : Nat}
    (known : width = 1 ∨ width = 2 ∨ width = 4)
    (same : ∀ i, pos ≤ i → i < pos + width → byteAt buf' i = byteAt buf i) :
    signedAt buf' pos width = signedAt buf pos width := by
  rcases known with one | two | four
  · subst one
    simp only [signedAt, getU8, same pos (by omega) (by omega)]
  · subst two
    simp only [signedAt, getU16_congr same]
  · subst four
    simp only [signedAt, getU32_congr same]

namespace BcOut

def diffOf (P : BcOut) (j : JumpSlot) : Int := P.labelAddr j.label - j.pos

def rewriteOffset (P : BcOut) (buf : List UInt8) (j : JumpSlot) : List UInt8 :=
  match j.size with
  | 1 => putU8 buf j.pos.toNat (ofInt32 (P.diffOf j))
  | 2 => putU16 buf j.pos.toNat (ofInt32 (P.diffOf j))
  | 4 => putU32 buf j.pos.toNat (ofInt32 (P.diffOf j))
  | _ => buf

def rewriteOffsets (P : BcOut) : BcOut :=
  { P with buf := P.jumpSlots.foldl P.rewriteOffset P.buf }

def OffsetsFit (P : BcOut) : Prop :=
  ∀ j ∈ P.jumpSlots, 0 < j.size → FitsWidth j.size (P.diffOf j)

instance (P : BcOut) : Decidable P.OffsetsFit :=
  inferInstanceAs (Decidable (∀ j ∈ P.jumpSlots, _))

def OffsetsLand (P : BcOut) : Prop :=
  ∀ j ∈ P.jumpSlots, 0 < j.size → j.pos + signedAt P.buf j.pos.toNat j.size = P.labelAddr j.label

instance (P : BcOut) : Decidable P.OffsetsLand :=
  inferInstanceAs (Decidable (∀ j ∈ P.jumpSlots, _))

variable {P : BcOut} {buf : List UInt8} {j : JumpSlot} {p i : Nat}

@[simp] theorem rewriteOffset_length (P : BcOut) (buf : List UInt8) (j : JumpSlot) :
    (P.rewriteOffset buf j).length = buf.length := by
  unfold rewriteOffset
  split <;> simp

theorem byteAt_rewriteOffset_outside (outside : i < j.pos.toNat ∨ j.pos.toNat + j.size ≤ i) :
    byteAt (P.rewriteOffset buf j) i = byteAt buf i := by
  unfold rewriteOffset
  split
  case h_1 one => exact byteAt_putU8_ne (by omega) _
  case h_2 two => exact byteAt_putU16_outside (by omega) _
  case h_3 four => exact byteAt_putU32_outside (by omega) _
  case h_4 => rfl

theorem toInt8_ofInt32 {diff : Int} (fits : FitsWidth 1 diff) : toInt8 (ofInt32 diff) = diff := by
  simp only [FitsWidth] at fits
  simp only [toInt8, ofInt32]
  omega

theorem toInt16_ofInt32 {diff : Int} (fits : FitsWidth 2 diff) : toInt16 (ofInt32 diff) = diff := by
  simp only [FitsWidth] at fits
  simp only [toInt16, ofInt32]
  omega

theorem toInt32_ofInt32 {diff : Int} (fits : FitsWidth 4 diff) : toInt32 (ofInt32 diff) = diff := by
  simp only [FitsWidth] at fits
  simp only [toInt32, ofInt32]
  omega

theorem toInt8_mod (v : Nat) : toInt8 (v % 256) = toInt8 v := by
  simp only [toInt8, Nat.reducePow, Nat.mod_mod]

theorem toInt16_mod (v : Nat) : toInt16 (v % 2^16) = toInt16 v := by
  simp only [toInt16, Nat.reducePow, Nat.mod_mod]

theorem signedAt_rewriteOffset_same (known : j.size = 1 ∨ j.size = 2 ∨ j.size = 4)
    (fits : FitsWidth j.size (P.diffOf j)) (room : j.pos.toNat + j.size ≤ buf.length) :
    signedAt (P.rewriteOffset buf j) j.pos.toNat j.size = P.diffOf j := by
  unfold rewriteOffset
  rcases known with one | two | four
  · rw [one] at fits room ⊢
    simp only [signedAt, getU8]
    rw [byteAt_putU8_same (by omega), toInt8_mod, toInt8_ofInt32 fits]
  · rw [two] at fits room ⊢
    simp only [signedAt]
    rw [getU16_putU16_mod (by omega), toInt16_mod, toInt16_ofInt32 fits]
  · rw [four] at fits room ⊢
    have small : ofInt32 (P.diffOf j) < 2^32 := by
      simp only [ofInt32]
      omega
    simp only [signedAt]
    rw [getU32_putU32 (by omega) small, toInt32_ofInt32 fits]

def Apart (a b : JumpSlot) : Prop :=
  0 < a.size → 0 < b.size → a.pos.toNat + a.size ≤ b.pos.toNat ∨ b.pos.toNat + b.size ≤ a.pos.toNat

theorem foldl_rewriteOffset_length (slots : List JumpSlot) :
    (slots.foldl P.rewriteOffset buf).length = buf.length := by
  induction slots generalizing buf with
  | nil => rfl
  | cons j slots ih => rw [List.foldl_cons, ih, rewriteOffset_length]

theorem byteAt_foldl_rewriteOffset {slots : List JumpSlot}
    (outside : ∀ j ∈ slots, 0 < j.size → i < j.pos.toNat ∨ j.pos.toNat + j.size ≤ i) :
    byteAt (slots.foldl P.rewriteOffset buf) i = byteAt buf i := by
  induction slots generalizing buf with
  | nil => rfl
  | cons j slots ih =>
      rw [List.foldl_cons, ih fun other member => outside other (List.mem_cons_of_mem _ member)]
      by_cases live : 0 < j.size
      · exact byteAt_rewriteOffset_outside (outside j List.mem_cons_self live)
      · exact byteAt_rewriteOffset_outside (by omega)

theorem signedAt_foldl_rewriteOffset {slots : List JumpSlot} (apart : slots.Pairwise Apart)
    (member : j ∈ slots) (known : j.size = 1 ∨ j.size = 2 ∨ j.size = 4)
    (fits : FitsWidth j.size (P.diffOf j)) (room : j.pos.toNat + j.size ≤ buf.length) :
    signedAt (slots.foldl P.rewriteOffset buf) j.pos.toNat j.size = P.diffOf j := by
  induction slots generalizing buf with
  | nil => cases member
  | cons head slots ih =>
      have ⟨first, rest⟩ := List.pairwise_cons.mp apart
      rw [List.foldl_cons]
      rcases List.mem_cons.mp member with here | later
      · subst here
        rw [← signedAt_rewriteOffset_same known fits room]
        apply signedAt_congr known
        intro i low high
        apply byteAt_foldl_rewriteOffset
        intro other present live
        have disjoint := first other present (by omega) live
        omega
      · exact ih rest later (by rwa [rewriteOffset_length])

theorem labelWidth_cases (op : Nat) : labelWidth op = 1 ∨ labelWidth op = 2 ∨ labelWidth op = 4 := by
  unfold labelWidth
  split <;> simp

/-- The operand of a live slot lies in the instruction the slot stands for. -/
theorem Accurate.slot_room (accurate : P.Accurate) (slot : P.SlotAccurate j p) :
    p < j.pos.toNat ∧ j.pos.toNat + j.size ≤ p + opSize (P.opAt p) := by
  have known := accurate.known slot.start slot.inside
  have jump := slot.jump
  rw [← slot.op] at jump
  have ⟨room, _, offset⟩ := labelOffset_spec _ known jump
  have operand := slot.operand
  have width := slot.width
  rw [← slot.op] at operand width
  omega

theorem Accurate.next_le_size (accurate : P.Accurate) (start : P.Start p) (inside : p < P.size) :
    p + opSize (P.opAt p) ≤ P.size :=
  start.next_le accurate.decodes inside

/-- Positions inside two instructions are apart unless it is one instruction. -/
theorem apart_of_starts {q : Nat} (start : P.Start p) (start' : P.Start q) (other : p ≠ q) :
    p + opSize (P.opAt p) ≤ q ∨ q + opSize (P.opAt q) ≤ p := by
  rcases Nat.lt_or_gt_of_ne other with before | after
  · exact .inl (start.next_le start' before)
  · exact .inr (start'.next_le start after)

theorem Accurate.apart (accurate : P.Accurate) : P.jumpSlots.Pairwise Apart := by
  refine accurate.distinct.imp_of_mem fun {a b} memberA memberB distinct liveA liveB => ?_
  have ⟨p, slotA⟩ := accurate.slots a memberA liveA
  have ⟨q, slotB⟩ := accurate.slots b memberB liveB
  have other : p ≠ q := by
    intro same
    subst same
    have equal := accurate.slot_eq memberA memberB liveA liveB slotA slotB
    exact distinct liveA liveB (by rw [equal])
  have roomA := accurate.slot_room slotA
  have roomB := accurate.slot_room slotB
  have separate := apart_of_starts slotA.start slotB.start other
  omega

@[simp] theorem rewriteOffsets_size (P : BcOut) : P.rewriteOffsets.size = P.size :=
  foldl_rewriteOffset_length _

section

variable (accurate : P.Accurate)

include accurate

section

variable (start : P.Start p) (inside : p < P.size)

include start inside

/-- Only operands of labels are written. -/
theorem Accurate.byteAt_rewriteOffsets (low : p ≤ i) (high : i < p + opSize (P.opAt p))
    (outside : hasLabelOperand (P.opAt p) → i < p + labelOffset (P.opAt p) ∨
      p + labelOffset (P.opAt p) + labelWidth (P.opAt p) ≤ i) :
    byteAt P.rewriteOffsets.buf i = byteAt P.buf i := by
  apply byteAt_foldl_rewriteOffset
  intro j member live
  have ⟨q, slot⟩ := accurate.slots j member live
  have room := accurate.slot_room slot
  by_cases same : q = p
  · subst same
    have operand := slot.operand
    have width := slot.width
    have jump := slot.jump
    rw [← slot.op] at operand width jump
    have place := outside jump
    omega
  · have separate := apart_of_starts slot.start start same
    omega

theorem Accurate.opAt_rewriteOffsets : P.rewriteOffsets.opAt p = P.opAt p := by
  have positive := accurate.size_pos start inside
  refine accurate.byteAt_rewriteOffsets start inside (Nat.le_refl p) (by omega) ?_
  intro jump
  exact .inl (accurate.operand_inside start inside jump).1

theorem Accurate.operandBytes_rewriteOffsets :
    P.rewriteOffsets.operandBytes p = P.operandBytes p := by
  have positive := accurate.size_pos start inside
  have part : ∀ first count, p ≤ first → first + count ≤ p + opSize (P.opAt p) →
      (hasLabelOperand (P.opAt p) → first + count ≤ p + labelOffset (P.opAt p) ∨
        p + labelOffset (P.opAt p) + labelWidth (P.opAt p) ≤ first) →
      slice P.rewriteOffsets.buf first count = slice P.buf first count := by
    intro first count low high outside
    apply slice_congr (rewriteOffsets_size P)
    intro i above below
    refine accurate.byteAt_rewriteOffsets start inside (by omega) (by omega) ?_
    intro jump
    have place := outside jump
    omega
  have wide := atomLabel_size _ (accurate.known start inside)
  unfold operandBytes
  rw [accurate.opAt_rewriteOffsets start inside]
  split
  case h_1 | h_2 | h_3 | h_4 => rfl
  case h_5 format | h_6 format =>
    have room := wide (by simp [format])
    have offset : labelOffset (P.opAt p) = 5 := by simp [labelOffset, format]
    have width : labelWidth (P.opAt p) = 4 := by simp [labelWidth, format]
    rw [part _ _ (by omega) (by omega) (by omega), part _ _ (by omega) (by omega) (by omega)]
  case h_7 n8 n16 n32 nu16 na8 na16 =>
    refine part _ _ (by omega) (by omega) fun jump => ?_
    unfold hasLabelOperand at jump
    split at jump <;> simp_all

end

theorem Accurate.start_rewriteOffsets (start : P.Start p) (inside : p ≤ P.size) :
    P.rewriteOffsets.Start p := by
  have walk : ∀ {a b : Nat}, Decodes P.buf a b → P.Start a → b ≤ P.size →
      Decodes P.rewriteOffsets.buf a b := by
    intro a b run
    induction run with
    | done a => exact fun _ _ => .done a
    | @instr a b known later ih =>
        intro here bound
        have before := later.le
        have positive := opSize_pos _ known
        have within : a < P.size := by omega
        have op : byteAt P.rewriteOffsets.buf a = byteAt P.buf a :=
          accurate.opAt_rewriteOffsets here within
        refine .instr (by rwa [op]) ?_
        rw [op]
        exact ih (accurate.next here within) bound
  exact walk start (.done 0) inside

theorem SlotAccurate.rewriteOffsets {j : JumpSlot} (slot : P.SlotAccurate j p) :
    P.rewriteOffsets.SlotAccurate j p where
  start := accurate.start_rewriteOffsets slot.start slot.inside.le
  inside := slot.inside.trans_eq (rewriteOffsets_size P).symm
  op := (accurate.opAt_rewriteOffsets slot.start slot.inside).trans slot.op
  jump := slot.jump
  width := slot.width
  operand := slot.operand

theorem Accurate.rewriteOffsets : P.rewriteOffsets.Accurate where
  decodes := by
    rw [rewriteOffsets_size]
    exact accurate.start_rewriteOffsets accurate.decodes (Nat.le_refl _)
  slots := by
    intro j member live
    have ⟨p, slot⟩ := accurate.slots j member live
    exact ⟨p, slot.rewriteOffsets accurate⟩
  distinct := accurate.distinct
  targets := by
    intro j member live
    have ⟨p, addr, start, inside⟩ := accurate.targets j member live
    exact ⟨p, addr, accurate.start_rewriteOffsets start inside, by rwa [rewriteOffsets_size]⟩
  counts := accurate.counts

/-- After the loop every operand leads to its label. -/
theorem Accurate.offsetsLand (fits : P.OffsetsFit) : P.rewriteOffsets.OffsetsLand := by
  intro j member live
  have ⟨p, slot⟩ := accurate.slots j member live
  have room := accurate.slot_room slot
  have stop : p + opSize (P.opAt p) ≤ P.buf.length := accurate.next_le_size slot.start slot.inside
  have inside : j.pos.toNat + j.size ≤ P.buf.length := by omega
  have width := labelWidth_cases j.op
  rw [← slot.width] at width
  have diff := signedAt_foldl_rewriteOffset accurate.apart member width (fits j member live) inside
  change j.pos + signedAt (P.jumpSlots.foldl P.rewriteOffset P.buf) j.pos.toNat j.size =
    P.labelAddr j.label
  rw [diff, diffOf]
  omega

end

end BcOut

end PrimJs
