import PrimJs.Gc.MemorySlotsInvariant
import PrimJs.Gc.SpaceRelease

/-! What the steps of the mutator, the collector and the sweepers keep, and their runs. -/

namespace PrimJs.RosAlloc

variable {s s' : RosAlloc} {obj : RosObj} {i n size allocSize given page slot : Nat} {a : Allocated}

/-! Sizes. -/

theorem getRunSize_le (idx : Nat) : getRunSize idx ≤ kROSAllocLargeSize := by
  unfold getRunSize
  rw [List.getD_eq_getElem?_getD]
  cases slot : runSizes[idx]? with
  | none => exact Nat.zero_le _
  | some size =>
      have all : ∀ size ∈ runSizes, size ≤ kROSAllocLargeSize := by decide
      exact all size (List.mem_of_getElem? slot)

theorem pageRndUp_eq (size : Nat) :
    pageRndUp size = (size + 16383) % 2 ^ 64 / 16384 * 16384 := rfl

theorem pageRndUp_idem (size : Nat) : pageRndUp (pageRndUp size) = pageRndUp size := by
  rw [pageRndUp_eq, pageRndUp_eq]
  omega

/-- The size that is asked for, whatever attempts have failed. -/
theorem attemptedSize_iterate (allocSize fails : Nat) :
    attemptedSize^[fails] allocSize ≤ kROSAllocHugeSize ∨
      attemptedSize^[fails] allocSize = allocSize ∨
      attemptedSize^[fails] allocSize = pageRndUp allocSize := by
  have below : kROSAllocLargeSize ≤ kROSAllocHugeSize := by decide
  induction fails with
  | zero => exact .inr (.inl rfl)
  | succ fails ih =>
      rw [Function.iterate_succ_apply']
      generalize attemptedSize^[fails] allocSize = current at ih
      unfold attemptedSize
      by_cases inRun : current ≤ kROSAllocLargeSize
      · rw [if_pos inRun]
        exact .inl ((getRunSize_le _).trans below)
      · rw [if_neg inRun]
        by_cases huge : current > kROSAllocHugeSize
        · rw [if_pos huge]
          rcases ih with small | same | rounded
          · exact absurd small (Nat.not_le.mpr huge)
          · rw [same]
            exact .inr (.inr rfl)
          · rw [rounded, pageRndUp_idem]
            exact .inr (.inr rfl)
        · rw [if_neg huge]
          exact .inl (Nat.le_of_not_lt huge)

/-- A huge size asks for the object and its header, rounded up. -/
theorem asked_le (size fails : Nat) (huge : kROSAllocHugeSize <
      attemptedSize^[fails] (allocUtilRndUp (add64 size kHeaderSize) kAllocAlign)) :
    attemptedSize^[fails] (allocUtilRndUp (add64 size kHeaderSize) kAllocAlign) < 2 ^ 64 ∧
      attemptedSize^[fails] (allocUtilRndUp (add64 size kHeaderSize) kAllocAlign) ≤
        size + kHeaderSize + 16390 := by
  have rounded : allocUtilRndUp (add64 size kHeaderSize) kAllocAlign ≤
      sub64 (add64 (add64 size kHeaderSize) kAllocAlign) 1 := Nat.and_le_left
  have raised : sub64 (add64 (add64 size kHeaderSize) kAllocAlign) 1 ≤ size + kHeaderSize + 7 ∧
      sub64 (add64 (add64 size kHeaderSize) kAllocAlign) 1 < 2 ^ 64 := by
    unfold sub64 add64 kHeaderSize kAllocAlign
    omega
  have cases_ := attemptedSize_iterate (allocUtilRndUp (add64 size kHeaderSize) kAllocAlign) fails
  generalize attemptedSize^[fails] _ = asked at huge cases_ ⊢
  rcases cases_ with small | same | page
  · omega
  · omega
  · rw [pageRndUp_eq] at page
    omega

/-! Memory for an object. -/

/-- What describes the object itself is enough. -/
theorem described_of_own {o : RosObj} (old : s.Described o)
    (runs : ∀ page idx, o.kind = .run page → s.runs page = some idx → s'.runs page = some idx)
    (large : ∀ page n, o.kind = .large page → LargeAt s.pageMap page n → LargeAt s'.pageMap page n)
    (huge : ∀ g size, o.kind = .huge g → s.hugeSize g = some size → s'.hugeSize g = some size) :
    s'.Described o := by
  unfold Described at old ⊢
  cases kind : o.kind with
  | run page =>
      rw [kind] at old
      have ⟨idx, run, size⟩ := old
      exact ⟨idx, runs page idx kind run, size⟩
  | large page =>
      rw [kind] at old
      have ⟨n, at_, size⟩ := old
      exact ⟨n, large page n kind at_, size⟩
  | huge g =>
      rw [kind] at old
      exact huge g _ kind old

theorem described_of_kept {o : RosObj} (old : s.Described o)
    (runs : ∀ page idx, s.runs page = some idx → s'.runs page = some idx)
    (large : ∀ page n, LargeAt s.pageMap page n → LargeAt s'.pageMap page n)
    (huge : ∀ g size, s.hugeSize g = some size → s'.hugeSize g = some size) : s'.Described o :=
  described_of_own old (fun page idx _ => runs page idx) (fun page n _ => large page n)
    fun g size _ => huge g size

theorem allocFromRun_spec (inv : s.Inv) (run : s.allocFromRun allocSize page = some a) :
    a.Good ∧ a.state.phase = s.phase := by
  unfold allocFromRun at run
  dsimp only at run
  by_cases here : s.runs page = some (getRunIdx allocSize)
  · rw [if_pos here, Option.some.injEq] at run
    rw [← run]
    exact ⟨⟨inv, rfl, fun _ _ _ => ⟨_, here, rfl⟩, fun _ _ _ => ⟨page, rfl⟩⟩, rfl⟩
  · rw [if_neg here] at run
    cases run

/-- Where the mapping of a huge group does not hold what is charged for it, the object cannot be
cleared in it. -/
theorem mapped_short {reqSize : Int} {rounded mapped : Nat} (int : reqSize = Int.bmod rounded (2 ^ 32))
    (large : rounded = 0 ∧ 2 ^ 63 < size ∨ 2 ^ 31 ≤ rounded ∧ rounded ≤ size + kHeaderSize + 32773)
    (map : mapped = if reqSize = 0 then kRosDefaultPageGroupSize
      else ((reqSize + (kPageGroupOverHead * allocUtilPageSize : Nat)) % 2 ^ 64).toNat) :
    2 ^ 63 ≤ mapped ∨ mapped < size + kHeaderSize := by
  have overhead : kPageGroupOverHead * allocUtilPageSize = 49152 := rfl
  have group : kRosDefaultPageGroupSize = 524288 := rfl
  have header : kHeaderSize = 8 := rfl
  rw [overhead, group] at map
  rw [header] at large ⊢
  rw [Int.bmod_def] at int
  split at map
  · omega
  · split at int <;> omega

/-- The group of a huge object is as large as what is charged, or its memory cannot be cleared. -/
theorem allocHugeObject_spec (inv : s.Inv) (huge : kROSAllocHugeSize < allocSize)
    (small : allocSize < 2 ^ 64) (asked : allocSize ≤ size + kHeaderSize + 16390)
    (run : s.allocHugeObject size allocSize given = some a) :
    a.Good ∧ a.state.phase = s.phase := by
  have threshold : kROSAllocHugeSize = 475136 := rfl
  have header : kHeaderSize = 8 := rfl
  have rounded := pageRndUp_eq allocSize
  unfold allocHugeObject at run
  dsimp only at run
  by_cases taken : (s.hugeSize given).isSome = true
  · rw [if_pos taken] at run
    cases run
  · rw [if_neg taken] at run
    have free : s.hugeSize given = none := Option.not_isSome_iff_eq_none.mp taken
    by_cases fits : 0 < pageRndUp allocSize ∧ pageRndUp allocSize < 2 ^ 31
    · have int : Int.bmod (pageRndUp allocSize) (2 ^ 32) = pageRndUp allocSize :=
        Space.int_eq fits.2
      have some_ : (pageRndUp allocSize : Int) ≠ 0 := by omega
      rw [int, if_neg some_, if_neg some_, (Space.huge_sizes fits.2).1, (Space.huge_sizes fits.2).2] at run
      split at run
      · cases run
      · split at run
        · cases run
        · rw [Option.some.injEq] at run
          rw [← run]
          refine ⟨⟨?_, rfl, fun _ _ _ => ?_, fun o member same => ?_⟩, rfl⟩
          · exact { inv with
              described := fun o member => described_of_kept (inv.described o member)
                (fun _ _ run => run) (fun _ _ large => large) fun g size taken => by
                  have other : g ≠ given := by
                    intro wrong
                    rw [wrong, free] at taken
                    cases taken
                  dsimp only
                  rw [Function.update_of_ne other]
                  exact taken }
          · unfold Described
            dsimp only
            rw [Function.update_self]
          · have old := inv.described o member
            unfold Described at old
            rw [← same] at old
            dsimp only at old
            rw [free] at old
            cases old
    · have wide : pageRndUp allocSize = 0 ∧ 2 ^ 63 < size ∨
          2 ^ 31 ≤ pageRndUp allocSize ∧ pageRndUp allocSize ≤ size + kHeaderSize + 32773 := by
        omega
      generalize int : Int.bmod (pageRndUp allocSize) (2 ^ 32) = reqSize at run
      generalize map : (if reqSize = 0 then kRosDefaultPageGroupSize else _) = mapped at run
      by_cases long : mapped ≥ 2 ^ 63
      · rw [if_pos long] at run
        cases run
      · have short := (mapped_short int.symm wide map.symm).resolve_left long
        rw [if_neg long, if_pos short] at run
        cases run

theorem allocLargeObject_spec (inv : s.Inv) (large : kROSAllocLargeSize < allocSize)
    (sized : kROSAllocHugeSize < allocSize →
      allocSize < 2 ^ 64 ∧ allocSize ≤ size + kHeaderSize + 16390)
    (run : s.allocLargeObject size allocSize given = some a) :
    a.Good ∧ a.state.phase = s.phase := by
  unfold allocLargeObject at run
  by_cases huge : allocSize > kROSAllocHugeSize
  · rw [if_pos huge] at run
    exact allocHugeObject_spec inv huge (sized huge).1 (sized huge).2 run
  · rw [if_neg huge] at run
    dsimp only at run
    have ⟨n, some_, few, bytes, count⟩ :=
      Space.pageRndUp_spec (Nat.zero_lt_of_lt large) (Nat.le_of_not_lt huge)
    rw [count, bytes] at run
    by_cases free : chunkFree s.pageMap given n = true
    · rw [if_pos free, Option.some.injEq] at run
      rw [← run]
      have ⟨_, _, labels⟩ := chunkFree_iff.mp free
      refine ⟨⟨?_, rfl, fun _ _ _ => ?_, fun o member same => ?_⟩, rfl⟩
      · exact { inv with
          described := fun o member => described_of_kept (inv.described o member)
            (fun _ _ run => run) (fun _ _ large => large.setAsPages free (by decide))
            fun _ _ taken => taken
          runs := fun page idx run => by
            have label := inv.runs page idx run
            dsimp only
            rw [setAsPages_outside some_ fun here => ?_]
            · exact label
            · rcases labels page here with other | other <;> rw [label] at other <;> cases other
          follows := follows_setAsPages free inv.follows (.inl ⟨rfl, rfl⟩) }
      · refine ⟨n, largeAt_setAsPages free inv.follows, ?_⟩
        rw [Nat.mul_comm]
      · have old := inv.described o member
        unfold Described at old
        rw [← same] at old
        have ⟨m, at_, _⟩ := old
        have start : given ∈ Set.Ico given (given + n) := ⟨Nat.le_refl _, by omega⟩
        have positive := at_.some_
        exact absurd start (Set.disjoint_left.mp (at_.chunk_apart labels) ⟨Nat.le_refl _, by omega⟩)
    · rw [if_neg free] at run
      cases run

theorem newObjInternal_inv (inv : s.Inv) (mutating : s.mutating = true) (slot fails : Nat)
    {given : Option Nat} (made : s.newObjInternal size slot fails given = some s') : s'.Inv := by
  unfold newObjInternal at made
  by_cases invalid : slot > s.maxSlotIndex
  · rw [if_pos invalid] at made
    cases made
  · rw [if_neg invalid] at made
    have asked := asked_le size fails
    dsimp only at made
    generalize attemptedSize^[fails] _ = allocSize at made asked
    cases given with
    | none =>
        cases made
        exact inv
    | some given =>
        have ⟨a, run, made⟩ := Option.bind_eq_some_iff.mp made
        have ⟨good, same⟩ : a.Good ∧ a.state.phase = s.phase := by
          unfold allocAttempt at run
          by_cases inRun : allocSize ≤ kROSAllocLargeSize
          · rw [if_pos inRun] at run
            exact allocFromRun_spec inv run
          · rw [if_neg inRun] at run
            exact allocLargeObject_spec inv (Nat.lt_of_not_le inRun) asked run
        refine newObj_inv good ?_ made
        unfold RosAlloc.mutating at mutating ⊢
        rw [same]
        exact mutating

/-! Runs of slots. -/

theorem allocRun_inv {idx : Nat} (inv : s.Inv) (made : s.allocRun idx page = some s') : s'.Inv := by
  unfold allocRun at made
  split at made
  · rename_i guard
    have free := (Bool.and_eq_true_iff.mp guard).1
    have ⟨some_, _, labels⟩ := chunkFree_iff.mp free
    cases made
    exact { inv with
      described := fun o member => described_of_kept (inv.described o member)
        (fun q idx' run => by
          have label := inv.runs q idx' run
          have other : q ≠ page := by
            intro same
            rcases labels page ⟨Nat.le_refl _, by omega⟩ with wrong | wrong <;>
              rw [← same, label] at wrong <;> cases wrong
          dsimp only
          rw [Function.update_of_ne other]
          exact run)
        (fun _ _ large => large.setAsPages free (by decide)) fun _ _ taken => taken
      runs := fun q idx' run => by
        dsimp only at run ⊢
        by_cases here : q = page
        · rw [here, setAsPages_first]
        · rw [Function.update_of_ne here] at run
          rw [setAsPages_outside some_ fun inside => here (by have ⟨low, high⟩ := inside; omega)]
          exact inv.runs q idx' run
      follows := follows_setAsPages free inv.follows (.inr ⟨rfl, rfl⟩) }
  · cases made

theorem freeRun_inv (inv : s.Inv) (made : s.freeRun page = some s') : s'.Inv := by
  unfold freeRun at made
  split at made
  · cases made
  · rename_i empty
    split at made
    · rename_i live
      have ⟨idx, run⟩ := Option.isSome_iff_exists.mp live
      have label := inv.runs page idx run
      cases made
      have notLarge : ∀ q n, LargeAt s.pageMap q n →
          Disjoint (Set.Ico q (q + n)) (Set.Ico page (page + 1)) := by
        intro q n large
        rw [Set.disjoint_left]
        intro p inside ⟨low, high⟩
        have here : p = page := by omega
        rw [here] at inside
        rcases large.all inside with wrong | wrong <;> rw [label] at wrong <;> cases wrong
      exact { inv with
        described := fun o member => described_of_own (inv.described o member)
          (fun q idx' kind run' => by
            have other : q ≠ page := by
              intro same
              rw [same] at kind
              exact empty (List.any_eq_true.mpr ⟨o, member, decide_eq_true kind⟩)
            dsimp only
            rw [Function.update_of_ne other]
            exact run')
          (fun q n _ large => large.clear (notLarge q n large)) fun _ _ _ taken => taken
        runs := fun q idx' run' => by
          dsimp only at run' ⊢
          by_cases here : q = page
          · rw [here, Function.update_self] at run'
            cases run'
          · rw [Function.update_of_ne here] at run'
            rw [setLabels_outside fun inside => here (by have ⟨low, high⟩ := inside; omega)]
            exact inv.runs q idx' run'
        follows := by
          intro p next
          dsimp only at next ⊢
          by_cases inside : p + 1 ∈ Set.Ico page (page + 1)
          · rw [setLabels_inside inside] at next
            cases next
          · rw [setLabels_outside inside] at next
            have old := inv.follows p next
            rw [setLabels_outside fun here => ?_]
            · exact old
            · have same : p = page := by
                have ⟨low, high⟩ := here
                omega
              rw [same, label] at old
              rcases old with wrong | wrong <;> cases wrong }
    · cases made

/-! Changes of an object that its charge does not follow. -/

/-- Objects that differ in their payload and marks only. -/
theorem inv_set {obj' : RosObj} (inv : s.Inv) (place : s.objects[i]? = some obj)
    (kind : obj'.kind = obj.kind) (slot : obj'.memorySlot = obj.memorySlot)
    (bytes : obj'.internalSize = obj.internalSize)
    (marked : obj'.marked = obj.marked ∨ s.sweeping = false) :
    Inv { s with objects := s.objects.set i obj' } := by
  have sameWeight : ∀ target, weight target obj' = weight target obj := by
    intro target
    unfold weight
    rw [slot, bytes]
  have member := List.mem_of_getElem? place
  have inside := (List.getElem?_eq_some_iff.mp place).1
  exact { inv with
    exact_ := fun target => by
      have sums : charged target (s.objects.set i obj') + weight target obj =
          charged target s.objects + weight target obj' := sum_map_set place
      rw [sameWeight] at sums
      have before := inv.exact_ target
      dsimp only
      change s.memorySizeSlots target + s.pending target = _
      omega
    total := by
      have sums := sum_map_set (f := RosObj.internalSize) (b := obj') place
      rw [bytes] at sums
      have before := inv.total
      unfold totalBytes at before ⊢
      dsimp only
      omega
    swept := fun active target => by
      have sums : chargedMarked target (s.objects.set i obj') + markedWeight target obj =
          chargedMarked target s.objects + markedWeight target obj' := sum_map_set place
      have same := marked.resolve_right fun idle => by
        change s.sweeping = true at active
        rw [idle] at active
        cases active
      have before := inv.swept active target
      change s.pending target ≤ _
      dsimp only
      unfold markedWeight at sums
      rw [same, sameWeight] at sums
      omega
    described := fun o old => by
      rcases List.mem_or_eq_of_mem_set old with before | here
      · exact inv.described o before
      · have described := inv.described obj member
        unfold Described at described ⊢
        rw [here, kind, bytes]
        exact described
    distinct := by
      have same : (s.objects.map RosObj.kind)[i]? = some obj'.kind := by
        rw [List.getElem?_map, place, kind]
        rfl
      have ⟨inside, here⟩ := List.getElem?_eq_some_iff.mp same
      dsimp only
      rw [List.map_set, ← here, List.set_getElem_self]
      exact inv.distinct }

theorem inv_resetBitmap (inv : s.Inv) {phase : GcPhase} {batches : List (List (Nat × Nat))}
    {marking : Bool} (idle : phase = .mutator) (empty : batches = [] ∧ s.batches.flatten = []) :
    Inv { s with
      objects := resetBitmap s.objects
      batches := batches
      phase := phase
      shouldMarkNewObj := marking } := by
  have noBatch : ∀ target, batched target s.batches = 0 := fun target => by
    rw [batched, empty.2]
    rfl
  have quiet : (decide (phase = .concurrentSweep) || decide (phase = .parallelSweep)) = false := by
    rw [idle]
    rfl
  exact { inv with
    exact_ := fun target => by
      have before := inv.exact_ target
      rw [noBatch] at before
      have sums : charged target (resetBitmap s.objects) = charged target s.objects := by
        unfold charged resetBitmap
        rw [List.map_map]
        rfl
      dsimp only
      rw [sums, empty.1]
      exact before
    total := by
      have before := inv.total
      have sums : (resetBitmap s.objects).map RosObj.internalSize =
          s.objects.map RosObj.internalSize := by
        unfold resetBitmap
        rw [List.map_map]
        rfl
      unfold totalBytes at before ⊢
      dsimp only
      rw [sums, empty.1]
      exact (Nat.add_le_add_left (Nat.zero_le _) _).trans_lt before
    swept := fun active => by
      change _ = true at active
      unfold sweeping at active
      dsimp only at active
      rw [quiet] at active
      cases active
    marking := fun wrong => by
      rw [idle] at wrong
      cases wrong
    idle := fun _ => empty.1
    described := fun o member => by
      have ⟨old, here, same⟩ := List.mem_map.mp member
      rw [← same]
      exact inv.described old here
    distinct := by
      have kinds : (resetBitmap s.objects).map RosObj.kind = s.objects.map RosObj.kind := by
        unfold resetBitmap
        rw [List.map_map]
        rfl
      dsimp only
      rw [kinds]
      exact inv.distinct }

/-! Sweeps. -/

section

variable (inv : s.Inv)

include inv

theorem inv_flush : Inv s.flushPendingMemorySlotAllocations ∧
    s.flushPendingMemorySlotAllocations.pendingMemorySlotBytes = 0 := by
  have ⟨moved, empty⟩ := flush_spec 0 inv.balance_lt
  have zero : ∀ target, share target (0, 0) = 0 := fun target => by
    unfold share
    split <;> rfl
  refine ⟨?_, empty⟩
  have rest := moved.rest
  generalize s.flushPendingMemorySlotAllocations = s1 at moved rest ⊢
  rw [rest]
  exact { inv with
    exact_ := fun target => by
      have balance := moved.balance target
      rw [zero] at balance
      exact balance.trans (inv.exact_ target)
    swept := fun active target => by
      have less := moved.pending target
      rw [zero] at less
      exact less.trans (inv.swept active target) }

theorem inv_beginSweep {phase : GcPhase} {workers : Nat} {marking : Bool}
    (idle : s.sweeping = false) (marks : marksNew phase = true → marking = true)
    (active : (decide (phase = .concurrentSweep) || decide (phase = .parallelSweep)) = true) :
    Inv { s.beginSweep phase workers with shouldMarkNewObj := marking } := by
  have ⟨inv', empty⟩ := inv_flush inv
  have none_ : s.flushPendingMemorySlotAllocations.batches = [] := by
    have same : s.flushPendingMemorySlotAllocations.batches = s.batches := by
      unfold flushPendingMemorySlotAllocations
      split <;> rfl
    rw [same]
    exact inv.idle idle
  have flat : (List.replicate workers ([] : List (Nat × Nat))).flatten = [] :=
    List.flatten_replicate_nil
  unfold beginSweep
  exact { inv' with
    exact_ := fun target => by
      have before := inv'.exact_ target
      rw [none_] at before
      dsimp only [batched] at before ⊢
      rw [flat]
      exact before
    total := by
      have before := inv'.total
      unfold totalBytes at before ⊢
      rw [none_] at before
      dsimp only
      rw [flat]
      exact before
    swept := fun _ target => by
      unfold pending
      dsimp only
      rw [empty]
      split <;> exact Nat.zero_le _
    marking := marks
    idle := fun wrong => by
      unfold sweeping at wrong
      dsimp only at wrong
      rw [active] at wrong
      cases wrong }

section

variable (active : s.sweeping = true) (place : s.objects[i]? = some obj)
  (unmarked : obj.marked = false)

include active place unmarked

/-- What an unmarked object is charged for is in the counter of its slot. -/
theorem weight_le_committed :
    obj.internalSize + batched obj.memorySlot s.batches ≤ s.memorySizeSlots obj.memorySlot := by
  have exact_ := inv.exact_ obj.memorySlot
  have swept := inv.swept active obj.memorySlot
  have marked := chargedMarked_add_le obj.memorySlot place unmarked
  have own : weight obj.memorySlot obj = obj.internalSize := if_pos rfl
  omega

/-- An unmarked object goes, and its bytes leave the counter of its slot. -/
theorem inv_release {pageMap : Nat → PageLabel} {hugeSize : Nat → Option Nat}
    (described : ∀ o ∈ s.objects.eraseIdx i,
      Described { s with
        pageMap := pageMap
        hugeSize := hugeSize } o)
    (runs : ∀ page idx, s.runs page = some idx → pageMap page = .run) (follows : Follows pageMap) :
    Inv { s.releaseMemorySlotBytes obj.memorySlot obj.internalSize with
      objects := s.objects.eraseIdx i
      pageMap := pageMap
      hugeSize := hugeSize } := by
  have enough := weight_le_committed inv active place unmarked
  have small := (Nat.le_add_right _ _).trans_lt (inv.balance_lt obj.memorySlot)
  have charge : ∀ target, charged target (s.objects.eraseIdx i) + weight target obj =
      charged target s.objects := fun target => sum_map_eraseIdx place
  unfold releaseMemorySlotBytes
  exact { inv with
    exact_ := fun target => by
      have before := inv.exact_ target
      have less := charge target
      change Function.update s.memorySizeSlots obj.memorySlot
        (sub64 (s.memorySizeSlots obj.memorySlot) obj.internalSize) target + s.pending target =
          charged target (s.objects.eraseIdx i) + batched target s.batches
      rw [Space.sub64_eq (by omega) small]
      by_cases here : target = obj.memorySlot
      · rw [here, Function.update_self]
        rw [here] at before less
        have own : weight obj.memorySlot obj = obj.internalSize := if_pos rfl
        omega
      · rw [Function.update_of_ne here]
        have other : weight target obj = 0 := if_neg fun wrong => here wrong.symm
        omega
    total := by
      have sums := sum_map_eraseIdx (f := RosObj.internalSize) place
      have before := inv.total
      unfold totalBytes at before ⊢
      dsimp only
      omega
    swept := fun _ target => by
      have sums : chargedMarked target (s.objects.eraseIdx i) + markedWeight target obj =
          chargedMarked target s.objects := sum_map_eraseIdx place
      have before := inv.swept active target
      change s.pending target ≤ _
      unfold markedWeight at sums
      rw [unmarked, if_neg Bool.false_ne_true] at sums
      dsimp only
      omega
    described := described
    distinct := by
      exact inv.distinct.sublist ((List.eraseIdx_sublist _ _).map _)
    runs := runs
    follows := follows
    noUnderflow := by
      dsimp only
      rw [inv.noUnderflow, decide_eq_false (by omega)]
      rfl }

end

theorem distinct_eraseIdx (place : s.objects[i]? = some obj)
    (notRun : ∀ page, obj.kind ≠ .run page) :
    ∀ o ∈ s.objects.eraseIdx i, o ∈ s.objects ∧ o.kind ≠ obj.kind := by
  have ⟨inside, same⟩ := List.getElem?_eq_some_iff.mp place
  have symm_ : ∀ {k k' : ObjKind}, Distinct k k' → Distinct k' k := by
    intro k k' distinct equal
    rw [equal]
    exact distinct equal.symm
  have perm := (List.getElem_cons_eraseIdx_perm inside).map RosObj.kind
  have apart := (perm.symm.pairwise_iff symm_).mp inv.distinct
  rw [same, List.map_cons, List.pairwise_cons] at apart
  intro o member
  refine ⟨List.mem_of_mem_eraseIdx member, fun equal => ?_⟩
  have ⟨page, wrong⟩ := apart.1 o.kind (List.mem_map_of_mem member) equal.symm
  exact notRun page wrong

theorem sweepSlot_inv {worker : Nat} (made : s.sweepSlot worker i = some s') : s'.Inv := by
  unfold sweepSlot at made
  have ⟨obj, place, made⟩ := Option.bind_eq_some_iff.mp made
  have ⟨batch, open_, made⟩ := Option.bind_eq_some_iff.mp made
  cases kind : obj.kind with
  | run page =>
      rw [kind] at made
      have ⟨idx, run, made⟩ := Option.bind_eq_some_iff.mp made
      split at made
      · rename_i guard
        rw [Bool.and_eq_true, Bool.not_eq_true'] at guard
        have ⟨active, unmarked⟩ := guard
        have size : obj.internalSize = getRunSize idx := by
          have old := inv.described obj (List.mem_of_getElem? place)
          unfold Described at old
          rw [kind] at old
          have ⟨idx', run', size⟩ := old
          rw [run, Option.some.injEq] at run'
          rw [run']
          exact size
        have charge : ∀ target, charged target (s.objects.eraseIdx i) + weight target obj =
            charged target s.objects := fun target => sum_map_eraseIdx place
        have bytes := sum_map_eraseIdx (f := RosObj.internalSize) place
        have before := inv.total
        have inBatch : (batch.map Prod.snd).sum ≤ (s.batches.flatten.map Prod.snd).sum := by
          have split_ := sum_map_flatten_set (f := Prod.snd) [] open_
          rw [List.map_nil, List.sum_nil, Nat.add_zero] at split_
          omega
        have room : (batch.map Prod.snd).sum + getRunSize idx < 2 ^ 64 := by
          unfold totalBytes at before
          omega
        have added : ∀ target, batched target (s.batches.set worker
            (batchAdd obj.memorySlot (getRunSize idx) batch)) =
              batched target s.batches + weight target obj := by
          intro target
          have replaced := sum_map_flatten_set (f := share target)
            (batchAdd obj.memorySlot (getRunSize idx) batch) open_
          rw [batchAdd_sum (share target) _ (additive_share target) _ room, ← size,
            share_weight] at replaced
          unfold batched
          rw [← size]
          omega
        cases made
        exact { inv with
          exact_ := fun target => by
            have exact_ := inv.exact_ target
            have less := charge target
            have more := added target
            dsimp only
            change s.memorySizeSlots target + s.pending target = _
            omega
          total := by
            have replaced := sum_map_flatten_set (f := Prod.snd)
              (batchAdd obj.memorySlot (getRunSize idx) batch) open_
            rw [batchAdd_sum Prod.snd _ (fun a b small => Space.add64_eq small) _ room] at replaced
            unfold totalBytes at before ⊢
            dsimp only at replaced ⊢
            omega
          swept := fun _ target => by
            have sums : chargedMarked target (s.objects.eraseIdx i) + markedWeight target obj =
                chargedMarked target s.objects := sum_map_eraseIdx place
            have swept := inv.swept active target
            unfold markedWeight at sums
            rw [unmarked, if_neg Bool.false_ne_true] at sums
            change s.pending target ≤ _
            dsimp only
            omega
          idle := fun wrong => by
            change s.sweeping = false at wrong
            rw [active] at wrong
            cases wrong
          described := fun o member => inv.described o (List.mem_of_mem_eraseIdx member)
          distinct := by
            exact inv.distinct.sublist ((List.eraseIdx_sublist _ _).map _) }
      · cases made
  | large page =>
      rw [kind] at made
      cases made
  | huge g =>
      rw [kind] at made
      cases made

theorem releaseBatch_inv {worker : Nat} (made : s.releaseBatch worker = some s') : s'.Inv := by
  unfold releaseBatch at made
  split at made
  · rename_i slot bytes rest open_
    have active : s.sweeping = true := by
      by_contra wrong
      rw [Bool.not_eq_true] at wrong
      rw [inv.idle wrong] at open_
      cases open_
    have replaced : ∀ target, batched target (s.batches.set worker rest) + share target (slot, bytes) =
        batched target s.batches := by
      intro target
      have sums := sum_map_flatten_set (f := share target) rest open_
      rw [List.map_cons, List.sum_cons] at sums
      unfold batched
      omega
    have own : share slot (slot, bytes) = bytes := if_pos rfl
    have enough : bytes ≤ s.memorySizeSlots slot := by
      have exact_ := inv.exact_ slot
      have swept := inv.swept active slot
      have marked : chargedMarked slot s.objects ≤ charged slot s.objects := chargedMarked_le
      have here := replaced slot
      omega
    have small := (Nat.le_add_right _ _).trans_lt (inv.balance_lt slot)
    cases made
    unfold releaseMemorySlotBytes
    exact { inv with
      exact_ := fun target => by
        have before := inv.exact_ target
        have less := replaced target
        change Function.update s.memorySizeSlots slot (sub64 (s.memorySizeSlots slot) bytes) target +
          s.pending target = charged target s.objects + batched target (s.batches.set worker rest)
        rw [Space.sub64_eq enough small]
        by_cases here : target = slot
        · rw [here, Function.update_self]
          rw [here] at before less
          omega
        · rw [Function.update_of_ne here]
          have other : share target (slot, bytes) = 0 := if_neg fun wrong => here wrong.symm
          omega
      total := by
        have sums := sum_map_flatten_set (f := Prod.snd) rest open_
        rw [List.map_cons, List.sum_cons] at sums
        have before := inv.total
        unfold totalBytes at before ⊢
        dsimp only at sums ⊢
        omega
      idle := fun wrong => by
        change s.sweeping = false at wrong
        rw [active] at wrong
        cases wrong
      noUnderflow := by
        dsimp only
        rw [inv.noUnderflow, decide_eq_false (by omega)]
        rfl }
  · cases made

theorem freeLargeObj_inv (made : s.freeLargeObj i = some s') : s'.Inv := by
  unfold freeLargeObj at made
  have ⟨obj, place, made⟩ := Option.bind_eq_some_iff.mp made
  cases kind : obj.kind with
  | run page =>
      rw [kind] at made
      cases made
  | large page =>
      rw [kind] at made
      dsimp only at made
      split at made
      · rename_i guard
        rw [Bool.and_eq_true, Bool.not_eq_true'] at guard
        have ⟨active, unmarked⟩ := guard
        have old := inv.described obj (List.mem_of_getElem? place)
        unfold Described at old
        rw [kind] at old
        have ⟨n, large, size⟩ := old
        have few : n ≤ kRosDefaultPageCountPerGroup := by
          have fits := large.fits
          omega
        rw [clearLargeObjPageAndCount_spec large, Option.map_some, Option.some.injEq,
          Space.pageCnt2Byte_eq few, ← size] at made
        rw [← made]
        refine inv_release inv active place unmarked (fun o member => ?_) (fun q idx run => ?_)
          (follows_clear large inv.follows)
        · have ⟨before, other⟩ := distinct_eraseIdx inv place
            (fun page wrong => by rw [kind] at wrong; cases wrong) o member
          refine described_of_own (inv.described o before) (fun _ _ _ run => run)
            (fun q m kind' large' => large'.clear (large'.apart large fun same => ?_))
            fun _ _ _ taken => taken
          rw [kind', kind, same] at other
          exact other rfl
        · have label := inv.runs q idx run
          dsimp only
          rw [setLabels_outside fun inside => ?_]
          · exact label
          · rcases large.all inside with wrong | wrong <;> rw [label] at wrong <;> cases wrong
      · cases made
  | huge g =>
      rw [kind] at made
      cases made

theorem freeHugeObj_inv (made : s.freeHugeObj i = some s') : s'.Inv := by
  unfold freeHugeObj at made
  have ⟨obj, place, made⟩ := Option.bind_eq_some_iff.mp made
  cases kind : obj.kind with
  | run page =>
      rw [kind] at made
      cases made
  | large page =>
      rw [kind] at made
      cases made
  | huge g =>
      rw [kind] at made
      have ⟨size, group, made⟩ := Option.bind_eq_some_iff.mp made
      split at made
      · rename_i guard
        rw [Bool.and_eq_true, Bool.not_eq_true'] at guard
        have ⟨active, unmarked⟩ := guard
        have old := inv.described obj (List.mem_of_getElem? place)
        unfold Described at old
        rw [kind] at old
        dsimp only at old
        rw [group, Option.some.injEq] at old
        rw [Option.some.injEq, old] at made
        rw [← made]
        refine inv_release inv active place unmarked (fun o member => ?_) inv.runs inv.follows
        have ⟨before, other⟩ := distinct_eraseIdx inv place
          (fun page wrong => by rw [kind] at wrong; cases wrong) o member
        refine described_of_own (inv.described o before) (fun _ _ _ run => run)
          (fun _ _ _ large => large) fun h size kind' taken => ?_
        have apart : h ≠ g := by
          intro same
          rw [kind', kind, same] at other
          exact other rfl
        dsimp only
        rw [Function.update_of_ne apart]
        exact taken
      · cases made

end

/-! Runs. -/

theorem start_inv : start.Inv where
  exact_ := fun slot => by
    unfold pending
    split <;> rfl
  total := by decide
  swept := fun wrong => by cases wrong
  marking := fun wrong => by cases wrong
  idle := fun _ => rfl
  described := nofun
  distinct := List.Pairwise.nil
  runs := fun _ _ wrong => by cases wrong
  follows := fun _ wrong => by cases wrong
  noUnderflow := rfl

theorem sweeping_of_phase {phase : GcPhase} (idle : s.phase = phase)
    (quiet : (decide (phase = .concurrentSweep) || decide (phase = .parallelSweep)) = false) :
    s.sweeping = false := by
  rw [sweeping, idle]
  exact quiet

theorem mutator_inv {step : RosAlloc → Option RosAlloc}
    (kept : s.mutating = true → step s = some s' → s'.Inv) (made : s.mutator step = some s') :
    s'.Inv := by
  unfold mutator at made
  by_cases mutating : s.mutating = true
  · rw [if_pos mutating] at made
    exact kept mutating made
  · rw [if_neg mutating] at made
    cases made

/-- What each step keeps. -/
theorem apply_inv {op : RosOp} (inv : s.Inv) (made : s.apply op = some s') : s'.Inv := by
  cases op with
  | allocateMemorySlot =>
      rw [apply] at made
      refine mutator_inv (fun _ made => ?_) made
      cases made
      split
      · exact inv
      · exact { inv with }
  | selectSlot slot =>
      rw [apply] at made
      refine mutator_inv (fun _ made => ?_) made
      cases made
      exact { inv with }
  | allocRun idx page =>
      rw [apply] at made
      exact mutator_inv (fun _ made => allocRun_inv inv made) made
  | freeRun page => exact freeRun_inv inv made
  | allocateObj size fails given =>
      rw [apply] at made
      exact mutator_inv (fun mutating made => newObjInternal_inv inv mutating _ fails made) made
  | tryAllocateObj size given =>
      rw [apply] at made
      refine mutator_inv (fun mutating made => ?_) made
      unfold tryAllocateObj at made
      dsimp only at made
      split at made
      · cases made
        exact inv
      · split at made
        · cases made
        · cases given with
          | none =>
              cases made
              exact inv
          | some page =>
              have ⟨a, run, made⟩ := Option.bind_eq_some_iff.mp made
              have ⟨good, same⟩ := allocFromRun_spec inv run
              refine newObj_inv good ?_ made
              unfold RosAlloc.mutating at mutating ⊢
              rw [same]
              exact mutating
  | reallocateObj ptr size fails given =>
      rw [apply] at made
      refine mutator_inv (fun mutating made => ?_) made
      unfold reallocateObj at made
      split at made
      · cases made
        exact inv
      · cases ptr with
        | none => exact newObjInternal_inv inv mutating _ fails made
        | some i =>
            have ⟨obj, place, made⟩ := Option.bind_eq_some_iff.mp made
            split at made
            · cases made
            · split at made
              · cases made
                exact inv_set inv place rfl rfl rfl (.inl rfl)
              · exact newObjInternal_inv inv mutating _ fails made
  | getMemorySizeSlots =>
      rw [apply] at made
      refine mutator_inv (fun _ made => ?_) made
      cases made
      exact (inv_flush inv).1
  | mark i =>
      have ⟨obj, place, made⟩ := Option.bind_eq_some_iff.mp made
      split at made
      · cases made
      · rename_i idle
        cases made
        exact inv_set inv place rfl rfl rfl (.inr (Bool.not_eq_true _ ▸ idle))
  | terminateConMark =>
      rw [apply] at made
      split at made
      · rename_i idle
        have quiet := sweeping_of_phase idle rfl
        have empty := inv.idle quiet
        cases made
        exact inv_resetBitmap inv idle ⟨empty, by rw [empty]; rfl⟩
      · cases made
  | finalizerPrologue concurrent =>
      rw [apply] at made
      split at made
      · rename_i idle
        have quiet := sweeping_of_phase idle rfl
        cases made
        exact { inv with
          swept := fun wrong => by cases wrong
          marking := fun _ => rfl
          idle := fun _ => inv.idle quiet }
      · cases made
  | conSweepPrologue workers =>
      rw [apply] at made
      split at made
      · rename_i idle
        have quiet := sweeping_of_phase idle rfl
        cases made
        have kept : s.flushPendingMemorySlotAllocations.shouldMarkNewObj = s.shouldMarkNewObj := by
          unfold flushPendingMemorySlotAllocations
          split <;> rfl
        refine inv_beginSweep inv quiet (fun _ => ?_) rfl
        rw [kept]
        exact inv.marking (by rw [idle]; rfl)
      · cases made
  | parallelFreeAll workers =>
      rw [apply] at made
      split at made
      · rename_i idle
        have quiet := sweeping_of_phase idle rfl
        cases made
        exact inv_beginSweep inv quiet (fun wrong => by cases wrong) rfl
      · cases made
  | sweepSlot worker i => exact sweepSlot_inv inv made
  | releaseBatch worker => exact releaseBatch_inv inv made
  | freeLargeObj i => exact freeLargeObj_inv inv made
  | freeHugeObj i => exact freeHugeObj_inv inv made
  | finishSweep =>
      rw [apply] at made
      split at made
      · rename_i guard
        have ⟨_, empty⟩ := Bool.and_eq_true_iff.mp guard
        cases made
        refine inv_resetBitmap inv rfl ⟨rfl, ?_⟩
        rw [List.flatten_eq_nil_iff]
        intro batch member
        exact List.isEmpty_iff.mp (List.all_eq_true.mp empty batch member)
      · cases made

theorem run_inv (ops : List RosOp) : ∀ s : RosAlloc, s.Inv → s.run ops = some s' → s'.Inv := by
  induction ops with
  | nil =>
      intro s inv reached
      cases reached
      exact inv
  | cons op rest ih =>
      intro s inv reached
      have ⟨s1, made, later⟩ := Option.bind_eq_some_iff.mp reached
      exact ih s1 (apply_inv inv made) later

/-- The counters of a state are exact: the committed and the pending bytes of every slot are those of
its live objects, of the size the allocator finds for them, and of the batches that are still to be
released, of which there are none outside a sweep. -/
structure Exact (s : RosAlloc) : Prop where
  balance : ∀ slot, s.memorySizeSlots slot + s.pending slot =
    charged slot s.objects + batched slot s.batches
  sized : ∀ o ∈ s.objects, s.getAllocatedObjectSize o.kind = some o.internalSize
  idle : s.sweeping = false → s.batches = []
  noUnderflow : s.underflow = false

theorem getAllocatedObjectSize_eq (described : s.Described obj) :
    s.getAllocatedObjectSize obj.kind = some obj.internalSize := by
  unfold Described at described
  unfold getAllocatedObjectSize
  cases kind : obj.kind with
  | run page =>
      rw [kind] at described
      have ⟨idx, run, size⟩ := described
      dsimp only
      rw [run, size]
      rfl
  | large page =>
      rw [kind] at described
      have ⟨n, large, size⟩ := described
      have few : n ≤ kRosDefaultPageCountPerGroup := (Nat.le_add_left _ _).trans large.fits
      dsimp only
      rw [clearLargeObjPageAndCount_spec large, Option.map_some, Space.pageCnt2Byte_eq few, size]
  | huge g =>
      rw [kind] at described
      exact described

/-- In every state that any interleaving of steps reaches the accounting by slots is exact. -/
theorem run_exact (ops : List RosOp) (reached : start.run ops = some s) : s.Exact := by
  have inv := run_inv ops start start_inv reached
  exact ⟨inv.exact_, fun o member => getAllocatedObjectSize_eq (inv.described o member), inv.idle,
    inv.noUnderflow⟩

/-- Objects in a run, of pages and of a group of their own are charged to two slots and collected while
the mutator goes on. -/
def sweptRun : List RosOp :=
  [.allocRun 3 0, .allocateObj 30 0 (some 0), .selectSlot 2, .allocateObj 20000 0 (some 1),
    .allocateObj 500000 1 (some 0), .reallocateObj (some 0) 600000 0 (some 1), .mark 0,
    .finalizerPrologue true, .tryAllocateObj 32 (some 0), .conSweepPrologue 1,
    .allocateObj 9000 0 (some 4), .sweepSlot 0 5, .freeLargeObj 4, .getMemorySizeSlots,
    .releaseBatch 0, .freeHugeObj 3, .finishSweep]

theorem run_exact_swept : ((start.run sweptRun).get (by decide +kernel)).Exact :=
  run_exact sweptRun (Option.some_get _).symm

end PrimJs.RosAlloc
