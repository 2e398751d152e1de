import PrimJs.Gc.MemorySlots
import PrimJs.Gc.SpaceSpec

/-! What the accounting by memory slots keeps. -/

namespace PrimJs.RosAlloc

/-! Sums. -/

def weight (slot : Nat) (obj : RosObj) : Nat := if obj.memorySlot = slot then obj.internalSize else 0

/-- The internal sizes of the objects that are charged to the slot. -/
def charged (slot : Nat) (objects : List RosObj) : Nat := (objects.map (weight slot)).sum

def share (slot : Nat) (p : Nat × Nat) : Nat := if p.1 = slot then p.2 else 0

def batched (slot : Nat) (batches : List (List (Nat × Nat))) : Nat :=
  (batches.flatten.map (share slot)).sum

def pending (s : RosAlloc) (slot : Nat) : Nat :=
  if s.pendingMemorySlot = slot then s.pendingMemorySlotBytes else 0

variable {s s' : RosAlloc} {objects : List RosObj} {obj : RosObj} {slot i n : Nat}
  {batches : List (List (Nat × Nat))} {batch : List (Nat × Nat)}

theorem weight_le : weight slot obj ≤ obj.internalSize := by
  unfold weight
  split <;> omega

theorem charged_cons : charged slot (obj :: objects) = weight slot obj + charged slot objects := by
  unfold charged
  rw [List.map_cons, List.sum_cons]

theorem charged_le : charged slot objects ≤ (objects.map RosObj.internalSize).sum :=
  List.sum_le_sum fun _ _ => weight_le

theorem batched_le : batched slot batches ≤ (batches.flatten.map Prod.snd).sum :=
  List.sum_le_sum fun p _ => by
    unfold share
    split <;> omega

def markedWeight (slot : Nat) (obj : RosObj) : Nat := if obj.marked then weight slot obj else 0

def chargedMarked (slot : Nat) (objects : List RosObj) : Nat :=
  (objects.map (markedWeight slot)).sum

theorem chargedMarked_le : chargedMarked slot objects ≤ charged slot objects :=
  List.sum_le_sum fun obj _ => by
    unfold markedWeight
    split <;> omega

/-- An unmarked object is charged for besides the marked ones. -/
theorem chargedMarked_add_le (slot : Nat) (place : objects[i]? = some obj) (unmarked : obj.marked = false) :
    chargedMarked slot objects + weight slot obj ≤ charged slot objects := by
  have erased : charged slot (objects.eraseIdx i) + weight slot obj = charged slot objects :=
    sum_map_eraseIdx place
  have marked : chargedMarked slot (objects.eraseIdx i) + markedWeight slot obj =
      chargedMarked slot objects := sum_map_eraseIdx place
  have below : chargedMarked slot (objects.eraseIdx i) ≤ charged slot (objects.eraseIdx i) :=
    chargedMarked_le
  unfold markedWeight at marked
  rw [unmarked, if_neg Bool.false_ne_true] at marked
  omega

theorem batchAdd_sum (f : Nat × Nat → Nat) (bytes : Nat)
    (additive : ∀ a b, a + b < 2 ^ 64 → f (slot, add64 a b) = f (slot, a) + f (slot, b)) :
    ∀ batch : List (Nat × Nat), (batch.map Prod.snd).sum + bytes < 2 ^ 64 →
      ((batchAdd slot bytes batch).map f).sum = (batch.map f).sum + f (slot, bytes) := by
  intro batch
  induction batch with
  | nil =>
      intro _
      simp [batchAdd]
  | cons head rest ih =>
      have ⟨touched, before⟩ := head
      intro room
      rw [List.map_cons, List.sum_cons] at room
      dsimp only at room
      unfold batchAdd
      by_cases same : touched = slot
      · rw [if_pos same, List.map_cons, List.map_cons, List.sum_cons, List.sum_cons, same,
          additive before bytes (by omega)]
        omega
      · have later := ih (by omega)
        rw [if_neg same, List.map_cons, List.map_cons, List.sum_cons, List.sum_cons, later]
        omega

theorem additive_share (target : Nat) (a b : Nat) (small : a + b < 2 ^ 64) :
    share target (slot, add64 a b) = share target (slot, a) + share target (slot, b) := by
  unfold share add64
  rw [Nat.mod_eq_of_lt small]
  split <;> rfl

/-! Labels. -/

variable {pageMap pageMap' : Nat → PageLabel} {head rem : PageLabel} {page cnt p m : Nat}

def Follows (pageMap : Nat → PageLabel) : Prop :=
  ∀ p, pageMap (p + 1) = .largeObjRem → pageMap p = .largeObj ∨ pageMap p = .largeObjRem

/-- A large object of so many pages. -/
structure LargeAt (pageMap : Nat → PageLabel) (page n : Nat) : Prop where
  some_ : 0 < n
  fits : idxInGroup page + n ≤ kRosDefaultPageCountPerGroup
  labelled : Labelled pageMap .largeObj .largeObjRem ⟨page, n⟩
  ends : pageMap (page + n) ≠ .largeObjRem

theorem chunkFree_iff : chunkFree pageMap page cnt = true ↔
    0 < cnt ∧ idxInGroup page + cnt ≤ kRosDefaultPageCountPerGroup ∧
      ∀ p ∈ Set.Ico page (page + cnt), pageMap p = .free ∨ pageMap p = .released := by
  unfold chunkFree
  rw [decide_eq_true_eq, List.all_eq_true]
  refine and_congr_right fun _ => and_congr_right fun _ => forall_congr' fun p => ?_
  rw [List.mem_range'_1, Set.mem_Ico, decide_eq_true_eq]

theorem setAsPages_first : setAsPages head rem pageMap page cnt page = head := by
  unfold setAsPages
  rw [setLabels_outside (fun inside => by have ⟨low, _⟩ := inside; omega)]
  exact setLabels_inside ⟨Nat.le_refl _, by omega⟩

theorem setAsPages_rest (low : page < p) (high : p < page + cnt) :
    setAsPages head rem pageMap page cnt p = rem := setLabels_inside ⟨low, by omega⟩

theorem setAsPages_outside (some_ : 0 < cnt) (outside : p ∉ Set.Ico page (page + cnt)) :
    setAsPages head rem pageMap page cnt p = pageMap p := by
  rw [Set.mem_Ico] at outside
  unfold setAsPages
  rw [setLabels_outside (fun inside => by have ⟨low, high⟩ := inside; omega),
    setLabels_outside (fun inside => by have ⟨low, high⟩ := inside; omega)]

section

variable (large : LargeAt pageMap page n)

include large

theorem LargeAt.all (inside : p ∈ Set.Ico page (page + n)) :
    pageMap p = .largeObj ∨ pageMap p = .largeObjRem := large.labelled.all inside

/-- No large object has a page of a chunk that is free. -/
theorem LargeAt.chunk_apart
    (free : ∀ p ∈ Set.Ico i (i + cnt), pageMap p = .free ∨ pageMap p = .released) :
    Disjoint (Set.Ico page (page + n)) (Set.Ico i (i + cnt)) := by
  rw [Set.disjoint_left]
  intro p inside here
  rcases large.all inside with label | label <;> rcases free p here with other | other <;>
    rw [label] at other <;> cases other

theorem LargeAt.apart {q : Nat} (large' : LargeAt pageMap q m) (other : page ≠ q) :
    Disjoint (Set.Ico page (page + n)) (Set.Ico q (q + m)) := by
  rw [Set.disjoint_left]
  intro p ⟨low, high⟩ ⟨low', high'⟩
  rcases Nat.lt_or_gt_of_ne other with before | after
  · have label := large.labelled.2 q before (by unfold Interval.stop; dsimp only; omega)
    have head : pageMap q = .largeObj := large'.labelled.1
    rw [head] at label
    cases label
  · have label := large'.labelled.2 page after (by unfold Interval.stop; dsimp only; omega)
    have head : pageMap page = .largeObj := large.labelled.1
    rw [head] at label
    cases label

theorem LargeAt.congr (same : ∀ p ∈ Set.Ico page (page + n), pageMap' p = pageMap p)
    (ends : pageMap' (page + n) ≠ .largeObjRem) : LargeAt pageMap' page n where
  some_ := large.some_
  fits := large.fits
  labelled := large.labelled.congr large.some_ same
  ends := ends

end

section Chunk

variable (free : chunkFree pageMap page cnt = true)

include free

/-- The page after the chunk does not continue a large object. -/
theorem after_chunk (follows : Follows pageMap) : pageMap (page + cnt) ≠ .largeObjRem := by
  have ⟨some_, _, labels⟩ := chunkFree_iff.mp free
  intro wrong
  have stop : page + cnt - 1 + 1 = page + cnt := by omega
  rw [← stop] at wrong
  rcases follows _ wrong with label | label <;>
    rcases labels (page + cnt - 1) ⟨by omega, by omega⟩ with other | other <;>
      rw [label] at other <;> cases other

theorem largeAt_setAsPages (follows : Follows pageMap) :
    LargeAt (setAsPages .largeObj .largeObjRem pageMap page cnt) page cnt := by
  have ⟨some_, fits, _⟩ := chunkFree_iff.mp free
  refine ⟨some_, fits, ⟨setAsPages_first, fun p low high => setAsPages_rest low high⟩, ?_⟩
  rw [setAsPages_outside some_ fun inside => Nat.lt_irrefl _ inside.2]
  exact after_chunk free follows

theorem follows_setAsPages (follows : Follows pageMap)
    (kind : (head = .largeObj ∧ rem = .largeObjRem) ∨ (head = .run ∧ rem = .runRem)) :
    Follows (setAsPages head rem pageMap page cnt) := by
  have ⟨some_, _, labels⟩ := chunkFree_iff.mp free
  have notRem : head ≠ .largeObjRem := by
    rcases kind with ⟨same, _⟩ | ⟨same, _⟩ <;> rw [same] <;> decide
  intro p label
  by_cases inside : p + 1 ∈ Set.Ico page (page + cnt)
  · have ⟨low, high⟩ := inside
    rcases Nat.lt_or_eq_of_le low with later | first
    · rw [setAsPages_rest later high] at label
      have large : head = .largeObj ∧ rem = .largeObjRem := kind.resolve_right fun ⟨_, wrong⟩ => by
        rw [wrong] at label
        cases label
      rcases Nat.lt_or_eq_of_le (Nat.le_of_lt_succ later) with more | start
      · exact .inr ((setAsPages_rest more (by omega)).trans large.2)
      · rw [← start, setAsPages_first]
        exact .inl large.1
    · rw [← first, setAsPages_first] at label
      exact absurd label notRem
  · rw [setAsPages_outside some_ inside] at label
    have old := follows p label
    rw [setAsPages_outside some_ fun here => ?_]
    · exact old
    · rcases old with wrong | wrong <;> rcases labels p here with other | other <;>
        rw [wrong] at other <;> cases other

theorem LargeAt.setAsPages {q : Nat} (large : LargeAt pageMap q m) (notRem : head ≠ .largeObjRem) :
    LargeAt (RosAlloc.setAsPages head rem pageMap page cnt) q m := by
  have ⟨some_, _, labels⟩ := chunkFree_iff.mp free
  have apart := large.chunk_apart labels
  have positive := large.some_
  refine large.congr (fun p inside => ?_) ?_
  · exact setAsPages_outside some_ (Set.disjoint_left.mp apart inside)
  · by_cases here : q + m ∈ Set.Ico page (page + cnt)
    · rcases Nat.lt_or_eq_of_le here.1 with later | first
      · have last : q + m - 1 ∈ Set.Ico q (q + m) := ⟨by omega, by omega⟩
        have ⟨_, high⟩ := here
        exact absurd ⟨by omega, by omega⟩ (Set.disjoint_left.mp apart last)
      · rw [← first, setAsPages_first]
        exact notRem
    · rw [setAsPages_outside some_ here]
      exact large.ends

end Chunk

section Clear

variable (large : LargeAt pageMap page n)

include large

theorem clearLargeObjPageAndCount_spec : clearLargeObjPageAndCount pageMap page =
    some (n, Space.setLabels pageMap page n .free) := by
  have count := largeObjCount_spec large.labelled large.some_ large.fits (.inr large.ends)
  unfold clearLargeObjPageAndCount
  rw [if_pos large.labelled.1]
  dsimp only at count ⊢
  rw [count]

theorem follows_clear (follows : Follows pageMap) :
    Follows (Space.setLabels pageMap page n .free) := by
  intro p label
  by_cases inside : p + 1 ∈ Set.Ico page (page + n)
  · rw [setLabels_inside inside] at label
    cases label
  · rw [setLabels_outside inside] at label
    have old := follows p label
    rw [setLabels_outside fun here => ?_]
    · exact old
    · rw [Set.mem_Ico] at inside here
      have stop : p + 1 = page + n := by omega
      rw [stop] at label
      exact large.ends label

end Clear

theorem LargeAt.clear {q : Nat} (large : LargeAt pageMap q m)
    (apart : Disjoint (Set.Ico q (q + m)) (Set.Ico page (page + n))) :
    LargeAt (Space.setLabels pageMap page n .free) q m := by
  refine large.congr (fun p inside => ?_) ?_
  · exact setLabels_outside (Set.disjoint_left.mp apart inside)
  · by_cases here : q + m ∈ Set.Ico page (page + n)
    · rw [setLabels_inside here]
      decide
    · rw [setLabels_outside here]
      exact large.ends

/-! The invariant. -/

/-- What keeps the size of the object's memory says that it is its internal size. -/
def Described (s : RosAlloc) (obj : RosObj) : Prop :=
  match obj.kind with
  | .run page => ∃ idx, s.runs page = some idx ∧ obj.internalSize = getRunSize idx
  | .large page => ∃ n, LargeAt s.pageMap page n ∧ obj.internalSize = allocUtilPageSize * n
  | .huge groupIdx => s.hugeSize groupIdx = some obj.internalSize

/-- Only in a run are two objects at the same place. -/
def Distinct (k k' : ObjKind) : Prop := k = k' → ∃ page, k = .run page

/-- The phases in which a new object is marked. -/
def marksNew : GcPhase → Bool
  | .finalizing _ | .concurrentSweep => true
  | .mutator | .parallelSweep => false

/-- The bytes in the counters are those of the live objects and of the batches in flight, and in a
sweep no byte that is not marked is pending. -/
structure Inv (s : RosAlloc) : Prop where
  exact_ : ∀ slot, s.memorySizeSlots slot + s.pending slot =
    charged slot s.objects + batched slot s.batches
  total : s.totalBytes < 2 ^ 64
  swept : s.sweeping = true → ∀ slot, s.pending slot ≤ chargedMarked slot s.objects
  marking : marksNew s.phase = true → s.shouldMarkNewObj = true
  idle : s.sweeping = false → s.batches = []
  described : ∀ o ∈ s.objects, s.Described o
  distinct : (s.objects.map RosObj.kind).Pairwise Distinct
  runs : ∀ page idx, s.runs page = some idx → s.pageMap page = .run
  follows : Follows s.pageMap
  noUnderflow : s.underflow = false

theorem Inv.balance_lt (inv : s.Inv) (slot : Nat) : s.memorySizeSlots slot + s.pending slot < 2 ^ 64 := by
  have total := inv.total
  have objects : charged slot s.objects ≤ _ := charged_le
  have batches : batched slot s.batches ≤ _ := batched_le
  unfold totalBytes at total
  rw [inv.exact_]
  omega

/-! The counters. -/

/-- A state whose bytes were moved between the counters. -/
structure Moved (s s' : RosAlloc) (slot bytes : Nat) : Prop where
  balance : ∀ target, s'.memorySizeSlots target + s'.pending target =
    s.memorySizeSlots target + s.pending target + share target (slot, bytes)
  pending : ∀ target, s'.pending target ≤ s.pending target + share target (slot, bytes)
  rest : s' = { s with
    memorySizeSlots := s'.memorySizeSlots
    pendingMemorySlot := s'.pendingMemorySlot
    pendingMemorySlotBytes := s'.pendingMemorySlotBytes }

theorem flush_spec (slot : Nat)
    (small : ∀ target, s.memorySizeSlots target + s.pending target < 2 ^ 64) :
    Moved s s.flushPendingMemorySlotAllocations slot 0 ∧
      s.flushPendingMemorySlotAllocations.pendingMemorySlotBytes = 0 := by
  have none_ : ∀ target, share target (slot, 0) = 0 := fun target => by
    unfold share
    split <;> rfl
  unfold flushPendingMemorySlotAllocations
  by_cases empty : s.pendingMemorySlotBytes = 0
  · rw [if_pos empty]
    exact ⟨⟨fun target => by rw [none_, Nat.add_zero], fun target => Nat.le_add_right _ _, rfl⟩, empty⟩
  · rw [if_neg empty]
    refine ⟨⟨fun target => ?_, fun target => ?_, rfl⟩, rfl⟩
    · rw [none_, Nat.add_zero]
      have here := small target
      unfold pending at here ⊢
      dsimp only
      by_cases same : s.pendingMemorySlot = target
      · rw [if_pos same] at here ⊢
        rw [same, Function.update_self, Space.add64_eq here, if_pos rfl]
        rfl
      · rw [if_neg same, if_neg same, Function.update_of_ne (fun wrong => same wrong.symm)]
    · unfold pending
      dsimp only
      split <;> omega

theorem accumulate_spec {bytes : Nat}
    (small : ∀ target, s.memorySizeSlots target + s.pending target + share target (slot, bytes) < 2 ^ 64) :
    Moved s (s.accumulateMemorySlotAllocation slot bytes) slot bytes := by
  have own := small slot
  unfold share at own
  rw [if_pos rfl] at own
  unfold accumulateMemorySlotAllocation
  by_cases other : slot ≠ s.pendingMemorySlot
  · have ⟨moved, empty⟩ := flush_spec slot fun target =>
      (Nat.le_add_right _ _).trans_lt (small target)
    have none_ : ∀ target, s.flushPendingMemorySlotAllocations.pending target = 0 := fun target => by
      unfold pending
      rw [empty]
      split <;> rfl
    have grown : add64 0 bytes = bytes := by
      rw [Space.add64_eq (by omega), Nat.zero_add]
    rw [if_pos other]
    dsimp only
    rw [empty, grown]
    -- after the flush only the new bytes are pending
    refine ⟨fun target => ?_, fun target => Nat.le_add_left _ _, ?_⟩
    · have balance := moved.balance target
      have zero : share target (slot, 0) = 0 := by
        unfold share
        split <;> rfl
      rw [none_, zero] at balance
      change s.flushPendingMemorySlotAllocations.memorySizeSlots target +
        share target (slot, bytes) = _
      omega
    · rw [moved.rest]
  · rw [if_neg other]
    dsimp only
    have same : slot = s.pendingMemorySlot := not_not.mp other
    have grown : add64 s.pendingMemorySlotBytes bytes = s.pendingMemorySlotBytes + bytes := by
      refine Space.add64_eq ?_
      unfold pending at own
      rw [if_pos same.symm] at own
      omega
    refine ⟨fun target => ?_, fun target => ?_, rfl⟩
    · unfold share pending
      dsimp only
      rw [grown, same]
      split <;> omega
    · unfold share pending
      dsimp only
      rw [grown, same]
      split <;> omega

theorem share_weight : share slot (obj.memorySlot, obj.internalSize) = weight slot obj := rfl

/-! New objects. -/

/-- What an attempt gives: memory that no other object has, of the size that is charged. -/
structure Allocated.Good (a : Allocated) : Prop where
  inv : a.state.Inv
  sized : a.allocSize = a.internalSize
  described : ∀ size slot marked, a.state.Described ⟨a.kind, size, slot, marked, a.internalSize⟩
  fresh : ∀ o ∈ a.state.objects, a.kind = o.kind → ∃ page, a.kind = .run page

theorem newObj_inv {a : Allocated} {size : Nat} (good : a.Good)
    (mutating : a.state.mutating = true) (made : newObj a size slot = some s') : s'.Inv := by
  have inv := good.inv
  unfold newObj at made
  dsimp only at made
  by_cases full : a.state.totalBytes + a.internalSize ≥ 2 ^ 64
  · rw [if_pos full] at made
    cases made
  · rw [if_neg full] at made
    by_cases fault : a.internalSize < size + kHeaderSize
    · rw [if_pos fault] at made
      cases made
    · rw [if_neg fault, Option.some.injEq] at made
      have room : ∀ target, a.state.memorySizeSlots target + a.state.pending target +
          share target (slot, a.allocSize) < 2 ^ 64 := by
        intro target
        have objects : charged target a.state.objects ≤ _ := charged_le
        have batches : batched target a.state.batches ≤ _ := batched_le
        have own : share target (slot, a.allocSize) ≤ a.internalSize := by
          unfold share
          rw [good.sized]
          split <;> omega
        unfold totalBytes at full
        rw [inv.exact_]
        omega
      have moved := accumulate_spec room
      generalize a.state.accumulateMemorySlotAllocation slot a.allocSize = s1 at moved made
      have rest := moved.rest
      rw [good.sized] at moved
      rw [← made]
      have same : s1.objects = a.state.objects ∧ s1.batches = a.state.batches ∧
          s1.phase = a.state.phase ∧ s1.runs = a.state.runs ∧ s1.pageMap = a.state.pageMap ∧
          s1.hugeSize = a.state.hugeSize ∧ s1.shouldMarkNewObj = a.state.shouldMarkNewObj ∧
          s1.underflow = a.state.underflow := by
        rw [rest]
        exact ⟨rfl, rfl, rfl, rfl, rfl, rfl, rfl, rfl⟩
      have ⟨objects, batches, phase, runs, pageMap, hugeSize, marking, underflow⟩ := same
      generalize new : RosObj.mk a.kind _ slot _ a.internalSize = obj
      have charge : ∀ target, share target (slot, a.internalSize) = weight target obj := by
        intro target
        rw [← new]
        rfl
      have described : ∀ o, a.state.Described o → Described { s1 with objects := obj :: s1.objects } o := by
        intro o old
        unfold Described at old ⊢
        dsimp only
        rw [runs, pageMap, hugeSize]
        exact old
      exact {
        exact_ := fun target => by
          have balance := moved.balance target
          rw [charged_cons, objects, batches, ← charge]
          have before := inv.exact_ target
          change s1.memorySizeSlots target + s1.pending target = _
          omega
        total := by
          have size : obj.internalSize = a.internalSize := by rw [← new]
          unfold totalBytes at full ⊢
          dsimp only
          rw [List.map_cons, List.sum_cons, objects, batches, size]
          omega
        swept := fun active target => by
          have sweep : a.state.sweeping = true := by
            unfold sweeping at active ⊢
            dsimp only at active
            rw [← phase]
            exact active
          have concurrent : a.state.phase = .concurrentSweep := by
            unfold sweeping at sweep
            unfold RosAlloc.mutating at mutating
            rw [Bool.or_eq_true, decide_eq_true_eq, decide_eq_true_eq] at sweep
            rw [decide_eq_true_eq] at mutating
            exact sweep.resolve_right mutating
          have marked : obj.marked = true := by
            rw [← new]
            exact inv.marking (by rw [concurrent]; rfl)
          have before := inv.swept sweep target
          have own := moved.pending target
          rw [charge] at own
          change s1.pending target ≤ _
          unfold chargedMarked at before ⊢
          dsimp only
          rw [List.map_cons, List.sum_cons, objects]
          unfold markedWeight at before ⊢
          rw [if_pos marked]
          omega
        marking := fun concurrent => by
          change s1.shouldMarkNewObj = true
          rw [marking]
          refine inv.marking ?_
          rw [← phase]
          exact concurrent
        idle := fun active => by
          change s1.batches = []
          rw [batches]
          refine inv.idle ?_
          unfold sweeping at active ⊢
          rw [← phase]
          exact active
        described := fun o member => by
          rcases List.mem_cons.mp member with here | old
          · rw [here, ← new]
            exact described _ (good.described _ _ _)
          · rw [objects] at old
            exact described o (inv.described o old)
        distinct := by
          dsimp only
          rw [objects, List.map_cons, List.pairwise_cons]
          refine ⟨fun kind member => ?_, inv.distinct⟩
          have ⟨o, here, same⟩ := List.mem_map.mp member
          rw [← same, ← new]
          exact good.fresh o here
        runs := fun page idx run => by
          change s1.pageMap page = .run
          rw [pageMap]
          refine inv.runs page idx ?_
          rw [← runs]
          exact run
        follows := by
          change Follows s1.pageMap
          rw [pageMap]
          exact inv.follows
        noUnderflow := underflow.trans inv.noUnderflow }

end PrimJs.RosAlloc
