import PrimJs.Gc.RunSlots

/-! The slots of one run, and what sweeping does to them. -/

namespace PrimJs

namespace RunSlots

open FreeList

variable {run : RunSlots} {runAddr : Nat} {mem mem' : SlotWords} {own lent released : List Nat} {a : Nat}
  {isObjectMarked : Nat → Bool}

/-! The page of a run. -/

theorem table_fits : ∀ idx < 57, 0 < runSizes.getD idx 0 ∧ 0 < maxSlots.getD idx 0 ∧
    getContentOffset + maxSlots.getD idx 0 * runSizes.getD idx 0 ≤ allocUtilPageSize := by
  decide

/-- A run lies on a page of its own, in the lower half of the addresses. -/
structure OnPage (run : RunSlots) (runAddr : Nat) : Prop where
  known : run.mIdx < 57
  page : allocUtilPageSize ∣ runAddr
  notNull : 0 < runAddr
  small : runAddr + allocUtilPageSize ≤ 2 ^ 63

section

variable (place : run.OnPage runAddr)

include place

theorem OnPage.bounds (member : a ∈ run.slots runAddr) :
    runAddr < a ∧ a < runAddr + allocUtilPageSize := by
  have ⟨size, _, fits⟩ := table_fits run.mIdx place.known
  have ⟨i, below, same⟩ := mem_slotAddrs.mp member
  have last := Nat.mul_le_mul_right (runSizes.getD run.mIdx 0) (Nat.succ_le_of_lt below)
  rw [Nat.succ_mul] at last
  simp only [getRunSize, getMaxSlots, getContentOffset] at *
  omega

theorem OnPage.slot_small (member : a ∈ run.slots runAddr) : a ≠ 0 ∧ a < 2 ^ 63 := by
  have ⟨low, high⟩ := place.bounds member
  have small := place.small
  omega

theorem OnPage.slots_nodup : (run.slots runAddr).Nodup :=
  slotAddrs_nodup (table_fits run.mIdx place.known).1 _ _

/-- Slots on different pages are different. -/
theorem OnPage.apart {run' : RunSlots} {runAddr' : Nat} (place' : run'.OnPage runAddr')
    (other : runAddr ≠ runAddr') (member : a ∈ run.slots runAddr) : a ∉ run'.slots runAddr' := by
  intro member'
  have ⟨low, high⟩ := place.bounds member
  have ⟨low', high'⟩ := place'.bounds member'
  have ⟨k, page⟩ := place.page
  have ⟨k', page'⟩ := place'.page
  have different : k ≠ k' := fun same => other (by rw [page, page', same])
  simp only [allocUtilPageSize] at *
  omega

end

/-! The free slots of a run. -/

/-- The slots in the free list of the run, and those that are lent to the mutator. The slots that are
not allocated are those of the two lists, each of them once. -/
structure Tracks (run : RunSlots) (runAddr : Nat) (mem : SlotWords) (own lent : List Nat) : Prop where
  place : run.OnPage runAddr
  init : run.hasInit = true
  spells : run.freeList.Spells mem own
  count : run.nFree = own.length
  nodup : (own ++ lent).Nodup
  sub : ∀ a ∈ own ++ lent, a ∈ run.slots runAddr
  free : ∀ a ∈ run.slots runAddr, mem.isAllocatedByAllocator a = false ↔ a ∈ own ++ lent

section

variable (tracks : run.Tracks runAddr mem own lent)

include tracks

theorem Tracks.notAllocated (member : a ∈ own) : mem.isAllocatedByAllocator a = false := by
  have either := List.mem_append_left lent member
  exact (tracks.free a (tracks.sub a either)).mpr either

theorem Tracks.small (member : a ∈ own) : a ≠ 0 ∧ a < 2 ^ 63 :=
  tracks.place.slot_small (tracks.sub a (List.mem_append_left lent member))

theorem Tracks.length_le : own.length + lent.length ≤ run.getMaxSlots := by
  have length := (List.subperm_of_subset tracks.nodup tracks.sub).length_le
  rw [List.length_append] at length
  rwa [slots, slotAddrs_length] at length

/-- An empty run has all its slots in its own list. -/
theorem Tracks.own_all (empty : run.isEmpty = true) : ∀ a ∈ run.slots runAddr, a ∈ own := by
  have full : (run.slots runAddr).length ≤ own.length := by
    rw [isEmpty, decide_eq_true_iff, tracks.count] at empty
    rw [slots, slotAddrs_length, empty]
  have inside : own ⊆ run.slots runAddr := fun a member =>
    tracks.sub a (List.mem_append_left lent member)
  exact (List.subperm_of_subset (List.nodup_append.mp tracks.nodup).1 inside).perm_of_length_le full
    |>.symm.subset

/-- The words of other slots do not matter. -/
theorem Tracks.congr (same : ∀ a ∈ run.slots runAddr, mem' a = mem a) :
    run.Tracks runAddr mem' own lent where
  place := tracks.place
  init := tracks.init
  spells := tracks.spells.congr fun a member => same a (tracks.sub a (List.mem_append_left lent member))
  count := tracks.count
  nodup := tracks.nodup
  sub := tracks.sub
  free a member := by
    rw [← tracks.free a member, SlotWords.isAllocatedByAllocator, same a member,
      SlotWords.isAllocatedByAllocator]

end

/-! Sweeping. -/

def unmarked (isObjectMarked : Nat → Bool) (mem : SlotWords) (slots : List Nat) : List Nat :=
  slots.filter fun a => mem.isAllocatedByAllocator a && !isObjectMarked a

/-- What becomes of a run some slots of which are released. -/
structure Released (s : SweptRun) (own released : List Nat) (s' : SweptRun) : Prop where
  spells : s'.run.freeList.Spells s'.mem (released.reverse ++ own)
  run : s'.run = { s.run with
    nFree := s.run.nFree + released.length
    freeList := s'.run.freeList }
  freed : ∀ a ∈ released, s'.mem.isAllocatedByAllocator a = false
  kept : ∀ a, a ∉ released → s'.mem a = s.mem a
  size : s'.releasedSize = s.releasedSize + released.length * s.run.getRunSize

theorem unmarked_congr {slots : List Nat} (same : ∀ a ∈ slots, mem' a = mem a) :
    unmarked isObjectMarked mem' slots = unmarked isObjectMarked mem slots :=
  List.filter_congr fun a member => by
    rw [SlotWords.isAllocatedByAllocator, same a member, SlotWords.isAllocatedByAllocator]

/-- One slot is released and then the others. -/
theorem sweepSlot_released {s s' : SweptRun} (small : s.run.freeList.head < 2 ^ 63)
    (notLater : a ∉ released) (later : Released (s.sweepSlot a) (a :: own) released s') :
    Released s own (a :: released) s' where
  spells := by
    rw [List.reverse_cons, List.append_assoc]
    exact later.spells
  run := by
    rw [later.run]
    simp only [SweptRun.sweepSlot, freeSlot, List.length_cons, Nat.add_assoc, Nat.add_comm 1]
  freed b member := by
    rcases List.mem_cons.mp member with same | inLater
    · rw [same, SlotWords.isAllocatedByAllocator, later.kept a notLater]
      exact isAllocated_setNext_self small
    · exact later.freed b inLater
  kept b outside := by
    have other : b ≠ a := fun same => outside (by rw [same]; exact List.mem_cons_self)
    rw [later.kept b fun member => outside (List.mem_cons_of_mem _ member)]
    exact setNext_of_ne other
  size := by
    have size : (s.sweepSlot a).run.getRunSize = s.run.getRunSize := rfl
    have first : (s.sweepSlot a).releasedSize = s.releasedSize + s.run.getRunSize := rfl
    rw [later.size, size, first, List.length_cons, Nat.succ_mul]
    omega

theorem foldl_released (isObjectMarked : Nat → Bool) (slots : List Nat) : ∀ (s : SweptRun) (own : List Nat),
    slots.Nodup → (∀ a ∈ slots, a ≠ 0 ∧ a < 2 ^ 63) →
    (∀ a ∈ own, a < 2 ^ 63 ∧ s.mem.isAllocatedByAllocator a = false) →
    s.run.freeList.Spells s.mem own →
    Released s own (unmarked isObjectMarked s.mem slots)
      (slots.foldl (fun s a => if s.mem.isAllocatedByAllocator a then
        SweptRun.sweepUnmarked isObjectMarked a s else s) s) := by
  induction slots with
  | nil =>
      intro s own _ _ _ spells
      exact ⟨spells, rfl, by simp [unmarked], fun a _ => rfl, by simp [unmarked]⟩
  | cons a rest ih =>
      intro s own nodup small free spells
      have ⟨notRest, nodup'⟩ := List.nodup_cons.mp nodup
      have small' : ∀ b ∈ rest, b ≠ 0 ∧ b < 2 ^ 63 := fun b member =>
        small b (List.mem_cons_of_mem _ member)
      rw [List.foldl_cons]
      by_cases visited : s.mem.isAllocatedByAllocator a = true ∧ isObjectMarked a = false
      · have ⟨allocated, notMarked⟩ := visited
        have ⟨notNull, below⟩ := small a List.mem_cons_self
        have fresh : a ∉ own := fun member => by
          rw [(free a member).2] at allocated
          cases allocated
        have head := spells.head_lt fun b member => (free b member).1
        have step : (if s.mem.isAllocatedByAllocator a then
            SweptRun.sweepUnmarked isObjectMarked a s else s) = s.sweepSlot a := by
          rw [if_pos allocated, SweptRun.sweepUnmarked, notMarked, if_neg Bool.false_ne_true]
        have same : ∀ b ∈ rest, (s.sweepSlot a).mem b = s.mem b := fun b member =>
          setNext_of_ne fun here => notRest (by rwa [← here])
        have first : unmarked isObjectMarked s.mem (a :: rest) =
            a :: unmarked isObjectMarked (s.sweepSlot a).mem rest := by
          rw [unmarked_congr same, unmarked, List.filter_cons_of_pos (by simp [visited])]
          rfl
        rw [step, first]
        refine sweepSlot_released head ?_ (ih (s.sweepSlot a) (a :: own) nodup' small' ?_ ?_)
        · exact fun member => notRest (List.mem_of_mem_filter member)
        · intro b member
          rcases List.mem_cons.mp member with here | inOwn
          · rw [here]
            exact ⟨below, isAllocated_setNext_self head⟩
          · have ⟨below', free'⟩ := free b inOwn
            refine ⟨below', ?_⟩
            have other : b ≠ a := fun here => fresh (by rwa [← here])
            exact (isAllocated_setNext_of_ne other).trans free'
        · exact insert_spells spells notNull fresh head
      · have step : (if s.mem.isAllocatedByAllocator a then
            SweptRun.sweepUnmarked isObjectMarked a s else s) = s := by
          by_cases allocated : s.mem.isAllocatedByAllocator a = true
          · have marked : isObjectMarked a = true := by
              rw [← Bool.not_eq_false]
              exact fun notMarked => visited ⟨allocated, notMarked⟩
            rw [if_pos allocated, SweptRun.sweepUnmarked, if_pos marked]
          · rw [if_neg allocated]
        have first : unmarked isObjectMarked s.mem (a :: rest) = unmarked isObjectMarked s.mem rest := by
          rw [unmarked, List.filter_cons_of_neg (by simpa using visited)]
          rfl
        rw [step, first]
        exact ih s own nodup' small' free spells

section

variable (tracks : run.Tracks runAddr mem own lent) (isObjectMarked : Nat → Bool)

include tracks

/-- Sweeping releases the slots that are allocated and not marked. -/
theorem Tracks.releases :
    Released ⟨run, mem, 0⟩ own (unmarked isObjectMarked mem (run.slots runAddr))
      (run.sweepSlots mem runAddr isObjectMarked) := by
  unfold sweepSlots freeIterator
  by_cases empty : run.isEmpty = true
  · have none_ : unmarked isObjectMarked mem (run.slots runAddr) = [] := by
      refine List.filter_eq_nil_iff.mpr fun a member => ?_
      rw [tracks.notAllocated (tracks.own_all empty a member)]
      simp
    rw [if_pos empty, none_]
    exact ⟨tracks.spells, rfl, by simp, fun a _ => rfl, by simp⟩
  · rw [if_neg empty]
    exact foldl_released isObjectMarked _ ⟨run, mem, 0⟩ own tracks.place.slots_nodup
      (fun a member => tracks.place.slot_small member)
      (fun a member => ⟨(tracks.small member).2, tracks.notAllocated member⟩) tracks.spells

/-- After sweeping, the run's own list has the released slots too. -/
theorem Tracks.swept :
    (run.sweepSlots mem runAddr isObjectMarked).run.Tracks runAddr
      (run.sweepSlots mem runAddr isObjectMarked).mem
      ((unmarked isObjectMarked mem (run.slots runAddr)).reverse ++ own) lent := by
  have released := tracks.releases isObjectMarked
  generalize sweptIs : run.sweepSlots mem runAddr isObjectMarked = swept at released
  generalize freed : unmarked isObjectMarked mem (run.slots runAddr) = list at released
  have memberFreed : ∀ a, a ∈ list ↔ a ∈ run.slots runAddr ∧ mem.isAllocatedByAllocator a = true ∧
      isObjectMarked a = false := by
    intro a
    rw [← freed, unmarked, List.mem_filter]
    simp
  have notFree : ∀ a ∈ list, a ∉ own ++ lent := by
    intro a member either
    have ⟨inSlots, allocated, _⟩ := (memberFreed a).mp member
    rw [(tracks.free a inSlots).mpr either] at allocated
    cases allocated
  have slotsEq : swept.run.slots runAddr = run.slots runAddr := by
    rw [released.run]
    rfl
  have listNodup : list.Nodup := by
    rw [← freed]
    exact tracks.place.slots_nodup.filter _
  refine {
    place := by
      have place := tracks.place
      rw [released.run]
      exact ⟨place.known, place.page, place.notNull, place.small⟩
    init := by
      rw [released.run]
      exact tracks.init
    spells := released.spells
    count := by
      rw [released.run, List.length_append, List.length_reverse, tracks.count, Nat.add_comm]
    nodup := ?_
    sub := fun a member => ?_
    free := fun a member => ?_ }
  · rw [List.append_assoc]
    refine List.nodup_append.mpr ⟨List.nodup_reverse.mpr listNodup, tracks.nodup, ?_⟩
    intro a member b inOld same
    rw [← same] at inOld
    exact notFree a (List.mem_reverse.mp member) inOld
  · rw [slotsEq]
    rw [List.append_assoc] at member
    rcases List.mem_append.mp member with new | old
    · exact ((memberFreed a).mp (List.mem_reverse.mp new)).1
    · exact tracks.sub a old
  · rw [slotsEq] at member
    rw [List.append_assoc, List.mem_append, List.mem_reverse]
    by_cases new : a ∈ list
    · exact iff_of_true (released.freed a new) (.inl new)
    · rw [SlotWords.isAllocatedByAllocator, released.kept a new, ← SlotWords.isAllocatedByAllocator,
        tracks.free a member]
      simp [new]

/-- The slots that are allocated after a sweep are those that were and are marked. -/
theorem Tracks.swept_allocated (member : a ∈ run.slots runAddr) :
    (run.sweepSlots mem runAddr isObjectMarked).mem.isAllocatedByAllocator a =
      (mem.isAllocatedByAllocator a && isObjectMarked a) := by
  have released := tracks.releases isObjectMarked
  by_cases freed : a ∈ unmarked isObjectMarked mem (run.slots runAddr)
  · have marked := (List.mem_filter.mp freed).2
    rw [released.freed a freed]
    simp only [Bool.and_eq_true, Bool.not_eq_true'] at marked
    simp [marked]
  · rw [SlotWords.isAllocatedByAllocator, released.kept a freed, ← SlotWords.isAllocatedByAllocator]
    rw [unmarked, List.mem_filter] at freed
    cases allocated : mem.isAllocatedByAllocator a
    · rfl
    · simpa [member, allocated] using freed

end

end RunSlots

end PrimJs
