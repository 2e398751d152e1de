import PrimJs.Gc.SpaceSpec

/-! Huge groups, the release of groups and pages, and the limit of the heap. -/

namespace PrimJs.Space

variable {s : Space} {regions : List Region} {groups : List PageGroup} {g : PageGroup}
  {a n i p : Nat}

/-! Huge groups. -/

theorem getHeapHeadroom_le (headroom : n ≤ s.getHeapHeadroom) (some_ : 0 < n) :
    s.usedHeapSize + n ≤ s.heapSize := by
  unfold getHeapHeadroom at headroom
  split at headroom <;> omega

theorem sums_huge {old new : List PageGroup} {next : Nat} (occupied : Occupied old new i g next)
    (kind : g.huge = true) :
    sumOf PageGroup.ordinaryCount new = sumOf PageGroup.ordinaryCount old ∧
      sumOf PageGroup.hugeCapacity new = sumOf PageGroup.hugeCapacity old + g.maxCapacity ∧
      sumOf PageGroup.capacity new = sumOf PageGroup.capacity old + g.maxCapacity ∧
      sumOf PageGroup.mapped new = sumOf PageGroup.mapped old + g.memMappedSize := by
  have ⟨ready, other⟩ : g.initialized = true ∧ g.ordinary = false := by
    rcases g.cases_kind with ⟨_, _, wrong⟩ | ⟨_, _, wrong⟩ | ⟨ready, other, _⟩
    · rw [kind] at wrong
      cases wrong
    · rw [kind] at wrong
      cases wrong
    · exact ⟨ready, other⟩
  refine ⟨?_, ?_, ?_, ?_⟩
  · rw [occupied.sums _ fun g idle => by simp [PageGroup.ordinaryCount, PageGroup.ordinary, idle]]
    simp [PageGroup.ordinaryCount, other]
  · rw [occupied.sums _ fun g idle => by simp [PageGroup.hugeCapacity, PageGroup.huge, idle]]
    simp [PageGroup.hugeCapacity, kind]
  · rw [occupied.sums _ fun g idle => by simp [PageGroup.capacity, idle]]
    simp [PageGroup.capacity, ready]
  · rw [occupied.sums _ fun g idle => by simp [PageGroup.mapped, idle]]
    simp [PageGroup.mapped, ready]

theorem int_eq {reqSize : Nat} (small : reqSize < 2 ^ 31) :
    Int.bmod reqSize (2 ^ 32) = reqSize := by
  rw [Int.bmod_eq_of_le] <;> omega

theorem huge_sizes {reqSize : Nat} (small : reqSize < 2 ^ 31) :
    (((reqSize : Int) + (kPageGroupOverHead * allocUtilPageSize : Nat)) % 2 ^ 64).toNat =
        reqSize + kPageGroupOverHead * allocUtilPageSize ∧
      ((reqSize : Int) % 2 ^ 64).toNat = reqSize := by
  simp only [kPageGroupOverHead, allocUtilPageSize]
  omega

/-- A huge group whose size is an `int`. -/
theorem newHugeGroup_spec (inv : s.Inv regions) {reqSize : Nat} (large : kROSAllocHugeSize < reqSize)
    (small : reqSize < 2 ^ 31) :
    ∃ result s', s.newHugeGroup reqSize = some (result, s') ∧ s'.Inv regions := by
  unfold newHugeGroup
  by_cases refused : (s.getHeapHeadroom < reqSize || s.exceedsAllocatedPageLimit reqSize) = true
  · rw [if_pos refused]
    exact ⟨none, s, rfl, inv⟩
  · rw [if_neg refused]
    simp only [Bool.or_eq_true, decide_eq_true_eq, not_or, Nat.not_lt] at refused
    have room := getHeapHeadroom_le refused.1 (by omega)
    have high := inv.heapHigh
    have growth := inv.growth
    have bounds := inv.bounds
    have current := inv.current_lt (by omega)
    have ⟨group, groups, constructed, idle, notHuge, occupied⟩ :=
      ensureConstructed_spec inv.slots inv.shaped inv.few current
    have some_ : (reqSize : Int) ≠ 0 := by omega
    unfold newHugeMem
    rw [if_neg (Nat.not_le.mpr current), constructed]
    simp only [Option.bind_eq_bind, Option.bind_some, idle, if_neg Bool.false_ne_true,
      int_eq small, if_pos some_]
    unfold initHugeGroup
    rw [(huge_sizes small).1, (huge_sizes small).2]
    dsimp only
    generalize made : PageGroup.mk _ _ _ _ _ = new
    have ready : new.initialized = true := by rw [← made]
    have kind : new.huge = true := by rw [← made]; rfl
    have other : new.ordinary = false := by rw [← made]; rfl
    have capacity : new.maxCapacity = reqSize := by rw [← made]
    have mapped : new.memMappedSize = reqSize + kPageGroupOverHead * allocUtilPageSize := by
      rw [← made]
    have shape : new.Shaped := by
      refine ⟨fun wrong => ?_, fun wrong => ?_, fun _ => ⟨?_, ?_⟩⟩
      · rw [ready] at wrong
        cases wrong
      · rw [other] at wrong
        cases wrong
      · rw [capacity]
        exact large
      · rw [mapped, capacity]
    have occupied := occupied new ready shape
    have ⟨count, hugeSum, capacitySum, mappedSum⟩ := sums_huge occupied kind
    have pages := occupied.huge other
    have overhead : kPageGroupOverHead * allocUtilPageSize < 2 ^ 40 := by decide
    rw [occupied.slot, Option.bind_some, capacity, mapped, add64_eq (by omega), add64_eq (by omega),
      add64_eq (by omega)]
    refine ⟨_, _, rfl, ?_⟩
    exact { inv with
      slots := occupied.slots
      shaped := occupied.shaped
      few := occupied.few
      whole := by
        rw [pages]
        exact inv.whole
      total := by
        rw [count]
        exact inv.total
      allocated := by
        have before := inv.allocated
        rw [hugeSum, capacity]
        dsimp only
        omega
      usedMem := by
        rw [capacitySum, capacity, ← inv.usedMem]
      usedHeap := by
        rw [mappedSum, mapped, ← inv.usedHeap]
      resident := by
        rw [pages]
        exact inv.resident
      usedHeapBound := by
        dsimp only
        omega }

/-- A group that went out of use. -/
structure Vacated (old new : List PageGroup) (i : Nat) (g : PageGroup) : Prop where
  slots : Slots new i
  shaped : ∀ g ∈ new, g.Shaped
  few : new.length ≤ kRosDefaultPageGroupNums
  sums : ∀ f : PageGroup → Nat, (∀ g, g.initialized = false → f g = 0) → sumOf f new + f g = sumOf f old
  pages : ordinaryPages new = ordinaryPages old \ groupPages i

theorem releaseMem_spec (slots : Slots s.groups s.currentIdx) (shaped : ∀ g ∈ s.groups, g.Shaped)
    (few : s.groups.length ≤ kRosDefaultPageGroupNums) (slot : s.groups[i]? = some g)
    (ready : g.initialized = true) :
    ∃ groups, s.releaseMem i = some { s with
        groups := groups
        currentIdx := i } ∧ Vacated s.groups groups i g := by
  unfold releaseMem
  rw [slot]
  simp only [Option.bind_eq_bind, Option.bind_some, ready, Bool.not_true, if_neg Bool.false_ne_true]
  refine ⟨_, rfl, ?_⟩
  generalize made : PageGroup.mk _ _ _ _ _ = new
  have idle : new.initialized = false := by rw [← made]
  have following : new.nextFreeIdx = s.currentIdx := by rw [← made]
  have other : new.ordinary = false := by rw [PageGroup.ordinary, idle, Bool.false_and]
  refine {
    slots := slots.release slot ready idle following
    shaped := fun g' member => ?_
    few := by
      rw [List.length_set]
      exact few
    sums := fun f vanishes => ?_
    pages := ordinaryPages_set_remove slot other }
  · rcases List.mem_or_eq_of_mem_set member with old | here
    · exact shaped g' old
    · rw [here]
      refine ⟨fun _ => by rw [← made], fun wrong => ?_, fun wrong => ?_⟩
      · rw [other] at wrong
        cases wrong
      · rw [PageGroup.huge, idle] at wrong
        cases wrong
  · have sums := sumOf_set (f := f) new slot
    rw [vanishes new idle, Nat.add_zero] at sums
    exact sums

theorem releaseHugeMem_spec (inv : s.Inv regions) (slot : s.groups[i]? = some g)
    (kind : g.huge = true) : ∃ s', s.releaseHugeMem i = some s' ∧ s'.Inv regions := by
  have member := List.mem_of_getElem? slot
  obtain ⟨ready, other⟩ : g.initialized = true ∧ g.ordinary = false := by
    rcases g.cases_kind with ⟨_, _, wrong⟩ | ⟨_, _, wrong⟩ | ⟨ready, other, _⟩
    · rw [kind] at wrong
      cases wrong
    · rw [kind] at wrong
      cases wrong
    · exact ⟨ready, other⟩
  obtain ⟨groups, run, vacated⟩ := releaseMem_spec (s := { s with
    usedHeapSize := s.usedHeapSize - g.memMappedSize
    usedMemSize := s.usedMemSize - g.maxCapacity
    allocatedPageSize := s.allocatedPageSize - g.maxCapacity }) inv.slots inv.shaped inv.few slot ready
  have vacated : Vacated s.groups groups i g := vacated
  have count := vacated.sums PageGroup.ordinaryCount fun g idle => by
    simp [PageGroup.ordinaryCount, PageGroup.ordinary, idle]
  have hugeSum := vacated.sums PageGroup.hugeCapacity fun g idle => by
    simp [PageGroup.hugeCapacity, PageGroup.huge, idle]
  have capacitySum := vacated.sums PageGroup.capacity fun g idle => by
    simp [PageGroup.capacity, idle]
  have mappedSum := vacated.sums PageGroup.mapped fun g idle => by
    simp [PageGroup.mapped, idle]
  have none_ : g.ordinaryCount = 0 := by rw [PageGroup.ordinaryCount, other]; rfl
  have hugeOwn : g.hugeCapacity = g.maxCapacity := by rw [PageGroup.hugeCapacity, kind]; rfl
  have own : g.capacity = g.maxCapacity := by rw [PageGroup.capacity, ready]; rfl
  have whole : g.mapped = g.memMappedSize := by rw [PageGroup.mapped, ready]; rfl
  rw [none_, Nat.add_zero] at count
  rw [hugeOwn] at hugeSum
  rw [own] at capacitySum
  rw [whole] at mappedSum
  have pages : ordinaryPages groups = ordinaryPages s.groups := by
    rw [vacated.pages, sdiff_eq_left.mpr]
    rw [Set.disjoint_left]
    intro p inside here
    obtain ⟨g2, slot2, wrong, _⟩ := ordinaryPages_iff.mp inside
    rw [(mem_groupPages.mp here).1, slot, Option.some.injEq] at slot2
    rw [← slot2, other] at wrong
    cases wrong
  have bounds := inv.bounds
  have allocated := inv.allocated
  have usedMem := inv.usedMem
  have usedHeap := inv.usedHeap
  unfold releaseHugeMem
  rw [slot]
  simp only [Option.bind_eq_bind, Option.bind_some]
  rw [subtracts_eq (a := s.usedHeapSize) (by omega), subtracts_eq (a := s.usedMemSize) (by omega),
    subtracts_eq (a := s.allocatedPageSize) (by omega), sub64_eq (by omega) (by omega),
    sub64_eq (by omega) (by omega), sub64_eq (by omega) (by omega), run]
  refine ⟨_, rfl, ?_⟩
  exact { inv with
    slots := vacated.slots
    shaped := vacated.shaped
    few := vacated.few
    whole := by
      rw [pages]
      exact inv.whole
    total := by
      rw [count]
      exact inv.total
    allocated := by
      dsimp only
      omega
    usedMem := by
      dsimp only
      omega
    usedHeap := by
      dsimp only
      omega
    resident := by
      rw [pages]
      exact inv.resident
    usedHeapBound := by
      have bound := inv.usedHeapBound
      dsimp only
      omega }

/-! Releasing free groups. -/

/-- How many groups have only free pages: each is a node of the tree. -/
def freeGroups (s : Space) : Nat :=
  s.pageCTree.intervals.countP fun x => x.size = kRosDefaultPageCountPerGroup

theorem countP_totalSize (xs : List Interval) (c : Nat) :
    c * xs.countP (fun x => x.size = c) ≤ totalSize xs := by
  induction xs with
  | nil => exact Nat.zero_le _
  | cons x xs ih =>
      rw [totalSize_cons, List.countP_cons]
      split
      · rename_i same
        rw [decide_eq_true_eq] at same
        rw [Nat.mul_add, Nat.mul_one, same]
        omega
      · rw [Nat.add_zero]
        omega

theorem freeGroups_le (inv : s.Inv regions) : s.freeGroups ≤ s.groups.length := by
  have pages : kRosDefaultPageCountPerGroup = 29 := rfl
  have total := inv.total
  have counted := countP_totalSize s.pageCTree.intervals kRosDefaultPageCountPerGroup
  have each : sumOf PageGroup.ordinaryCount s.groups ≤ sumOf (fun _ => 1) s.groups :=
    sumOf_le fun g _ => by
      unfold PageGroup.ordinaryCount
      split <;> omega
  have all : sumOf (fun _ => 1) s.groups = s.groups.length := by simp [sumOf]
  unfold freeGroups
  unfold CartesianTree.total at total
  rw [pages] at *
  omega

/-- No node of the tree has more pages than a group. -/
theorem size_le (inv : s.Inv regions) {x : Interval} (member : x ∈ s.pageCTree.intervals) :
    x.size ≤ kRosDefaultPageCountPerGroup := by
  have sub : Set.Ico x.start (x.start + x.size) ⊆ s.pageCTree.pages :=
    fun p inside => ⟨x, member, inside⟩
  have fits := fits_of_sub (inv.tree.positive x member) (sub.trans inv.pages_sub)
  omega

/-- Where nothing is taken every node of the tree is a group. -/
theorem size_of_unused (inv : s.Inv []) {x : Interval} (member : x ∈ s.pageCTree.intervals) :
    x.size = kRosDefaultPageCountPerGroup := by
  have atMost := size_le inv member
  have some_ := inv.tree.positive x member
  have whole : covers s.pageCTree.intervals = ordinaryPages s.groups := by
    have whole := inv.whole
    rw [extents, List.map_nil, covers_nil, Set.union_empty] at whole
    exact whole
  have sub : x.points ⊆ ordinaryPages s.groups := by
    rw [← whole]
    exact fun p inside => ⟨x, member, inside⟩
  have fits := fits_of_sub some_ sub
  have ⟨g, slot, kind, _⟩ := ordinaryPages_iff.mp
    (sub ⟨Nat.le_refl _, by unfold Interval.stop; omega⟩ : x.start ∈ _)
  -- a page of the group next to the node would be free as well, and in no other node
  have next : ∀ p, x.start ≤ p + 1 → p ≤ x.stop → groupIdxOf p = groupIdxOf x.start →
      idxInGroup p < kRosDefaultPageCountPerGroup → p ∈ x.points := by
    intro p low high same small
    have held : p ∈ ordinaryPages s.groups :=
      ordinaryPages_iff.mpr ⟨g, by rw [same]; exact slot, kind, small⟩
    rw [← whole] at held
    have ⟨y, member', inside⟩ := mem_covers_iff.mp held
    rw [inv.tree.separated.eq_of_near member member' low high inside]
    exact inside
  have pages : kRosDefaultPageCountPerGroup = 29 := rfl
  rw [pages] at next fits atMost ⊢
  have first : idxInGroup x.start = 0 := by
    refine Nat.eq_zero_of_not_pos fun later => ?_
    have ⟨wrong, _⟩ := next (x.start - 1) (by omega) (by unfold Interval.stop; omega)
      (by unfold groupIdxOf; unfold idxInGroup at later; omega) (by unfold idxInGroup at *; omega)
    unfold idxInGroup at later
    omega
  refine Nat.le_antisymm atMost (Nat.le_of_not_lt fun short => ?_)
  have ⟨_, wrong⟩ := next x.stop (by unfold Interval.stop; omega) (Nat.le_refl _)
    (by unfold groupIdxOf Interval.stop; unfold idxInGroup at first; omega)
    (by unfold idxInGroup Interval.stop at *; omega)
  exact Nat.lt_irrefl _ wrong

/-- So the stack of the tree's insertion gives back what it needs for another group. -/
theorem groupSettles_of_unused (inv : s.Inv []) (current : s.currentIdx < kRosDefaultPageGroupNums) :
    s.GroupSettles := by
  have held : ∀ x ∈ s.pageCTree.intervals, ∀ p ∈ x.points,
      idxInGroup p < kRosDefaultPageCountPerGroup := fun x member p inside => by
    have ⟨_, _, _, small⟩ := ordinaryPages_iff.mp (inv.pages_sub ⟨x, member, inside⟩)
    exact small
  have pages : kRosDefaultPageCountPerGroup = 29 := rfl
  rw [pages] at held
  unfold GroupSettles
  refine CartesianTree.settles_of_apart ?_ inv.tree.bounded (fun x member => ?_)
    fun x member => (size_of_unused inv member).ge
  · simp only [kRosDefaultPageGroupNums] at current
    rw [pages]
    unfold pageIdxOf
    omega
  · have some_ := inv.tree.positive x member
    have first := held x member x.start ⟨Nat.le_refl _, by unfold Interval.stop; omega⟩
    have last := held x member (x.stop - 1)
      ⟨by unfold Interval.stop; omega, by unfold Interval.stop; omega⟩
    rw [pages]
    unfold pageIdxOf idxInGroup Interval.stop at *
    omega

theorem freeGroups_of_unused (inv : s.Inv []) :
    s.freeGroups = sumOf PageGroup.ordinaryCount s.groups := by
  have all : ∀ x ∈ s.pageCTree.intervals, x.size = kRosDefaultPageCountPerGroup :=
    fun x member => size_of_unused inv member
  have total := inv.total
  have counted : s.freeGroups = s.pageCTree.intervals.length :=
    List.countP_eq_length.mpr fun x member => decide_eq_true (all x member)
  have size : s.pageCTree.total = kRosDefaultPageCountPerGroup * s.pageCTree.intervals.length := by
    unfold CartesianTree.total totalSize
    rw [List.map_congr_left all, List.map_const', List.sum_replicate_nat, Nat.mul_comm]
  rw [size, extents, List.map_nil] at total
  rw [counted]
  exact Nat.eq_of_mul_eq_mul_left (by decide) total

theorem find_group {u : CartesianTree} (inv : s.Inv regions)
    (found : s.pageCTree.find kRosDefaultPageCountPerGroup = some (a, u)) :
    s.freeGroups = { s with pageCTree := u }.freeGroups + 1 := by
  have some_ : kRosDefaultPageCountPerGroup ≠ 0 := by decide
  rw [CartesianTree.find, if_neg some_] at found
  obtain ⟨_, _, xs, x, ys, taken, _⟩ :=
    CartesianTree.findFrom_some inv.tree (Nat.pos_of_ne_zero some_) found
  have atMost := size_le inv (x := x) (by rw [taken.before]; simp)
  have exact_ : x.size = kRosDefaultPageCountPerGroup := Nat.le_antisymm atMost taken.enough
  unfold freeGroups
  dsimp only
  rw [taken.before, taken.after, if_pos exact_, List.nil_append, List.countP_append,
    List.countP_append, List.countP_cons, if_pos (decide_eq_true exact_)]
  omega

/-- A group whose pages were all free goes out of use; the counters are as they are to become. -/
theorem releaseGroup_inv {u : CartesianTree} {heap mem : Nat} (inv : Inv { s with
      usedHeapSize := heap
      usedMemSize := mem } regions)
    (found : s.pageCTree.find kRosDefaultPageCountPerGroup = some (a, u)) :
    ∃ groups, { s with pageCTree := u }.releaseMem (groupIdxOf a) = some { s with
        pageCTree := u
        groups := groups
        currentIdx := groupIdxOf a } ∧
      kRosDefaultPageGroupSize ≤ heap ∧ kRosDefaultPageGroupValidSize ≤ mem ∧
      Inv { s with
        pageCTree := u
        groups := groups
        currentIdx := groupIdxOf a
        usedHeapSize := heap - kRosDefaultPageGroupSize
        usedMemSize := mem - kRosDefaultPageGroupValidSize } regions := by
  have some_ : 0 < kRosDefaultPageCountPerGroup := by decide
  obtain ⟨treeInv, sub, pages, total⟩ := find_some inv.tree found
  have held : Set.Ico a (a + kRosDefaultPageCountPerGroup) ⊆ ordinaryPages s.groups :=
    sub.trans inv.pages_sub
  have whole : Set.Ico a (a + kRosDefaultPageCountPerGroup) = groupPages (groupIdxOf a) := by
    have fits := fits_of_sub some_ held
    have start : pageIdxOf (groupIdxOf a) 0 = a := by
      unfold pageIdxOf groupIdxOf
      unfold idxInGroup at fits
      omega
    rw [groupPages, start]
  obtain ⟨g, slot, kind, _⟩ := ordinaryPages_iff.mp (held ⟨Nat.le_refl a, by omega⟩)
  obtain ⟨ready, notHuge⟩ : g.initialized = true ∧ g.huge = false := by
    rcases g.cases_kind with ⟨_, wrong, _⟩ | ⟨ready, _, notHuge⟩ | ⟨_, wrong, _⟩
    · rw [kind] at wrong
      cases wrong
    · exact ⟨ready, notHuge⟩
    · rw [kind] at wrong
      cases wrong
  obtain ⟨capacity, mapped⟩ := (inv.shaped g (List.mem_of_getElem? slot)).normal kind
  obtain ⟨groups, run, vacated⟩ := releaseMem_spec (s := { s with pageCTree := u }) inv.slots inv.shaped
    inv.few slot ready
  have vacated : Vacated s.groups groups (groupIdxOf a) g := vacated
  have count := vacated.sums PageGroup.ordinaryCount fun g idle => by
    simp [PageGroup.ordinaryCount, PageGroup.ordinary, idle]
  have hugeSum := vacated.sums PageGroup.hugeCapacity fun g idle => by
    simp [PageGroup.hugeCapacity, PageGroup.huge, idle]
  have capacitySum := vacated.sums PageGroup.capacity fun g idle => by
    simp [PageGroup.capacity, idle]
  have mappedSum := vacated.sums PageGroup.mapped fun g idle => by
    simp [PageGroup.mapped, idle]
  have one : g.ordinaryCount = 1 := by rw [PageGroup.ordinaryCount, kind]; rfl
  have none_ : g.hugeCapacity = 0 := by rw [PageGroup.hugeCapacity, notHuge]; rfl
  have own : g.capacity = kRosDefaultPageGroupValidSize := by
    rw [PageGroup.capacity, ready, if_pos rfl, capacity]
  have ownMapped : g.mapped = kRosDefaultPageGroupSize := by
    rw [PageGroup.mapped, ready, if_pos rfl, mapped]
  have usedMem : mem = sumOf PageGroup.capacity s.groups := inv.usedMem
  have usedHeap : heap = sumOf PageGroup.mapped s.groups := inv.usedHeap
  rw [one] at count
  rw [none_, Nat.add_zero] at hugeSum
  rw [own, ← usedMem] at capacitySum
  rw [ownMapped, ← usedHeap] at mappedSum
  have apart : Disjoint (Set.Ico a (a + kRosDefaultPageCountPerGroup)) (covers (extents regions)) :=
    Set.disjoint_of_subset_left sub inv.apart
  have remaining : ordinaryPages groups =
      ordinaryPages s.groups \ Set.Ico a (a + kRosDefaultPageCountPerGroup) := by
    rw [whole]
    exact vacated.pages
  refine ⟨groups, run, by omega, by omega, ?_⟩
  exact { inv with
    tree := treeInv
    slots := vacated.slots
    shaped := vacated.shaped
    few := vacated.few
    apart := by
      change Disjoint u.pages _
      rw [pages]
      exact Set.disjoint_of_subset_left Set.sdiff_subset inv.apart
    whole := by
      have before : s.pageCTree.pages ∪ covers (extents regions) = ordinaryPages s.groups := inv.whole
      change u.pages ∪ _ = _
      rw [pages, remaining, ← before, Set.union_sdiff_distrib, sdiff_eq_left.mpr apart.symm]
    total := by
      change u.total + _ = _
      have before := inv.total
      dsimp only at before total ⊢
      rw [← count, Nat.mul_add, Nat.mul_one] at before
      omega
    freeLabels := by
      intro p inside
      change p ∈ u.pages at inside
      rw [pages] at inside
      exact inv.freeLabels p inside.1
    allocated := by
      rw [hugeSum]
      exact inv.allocated
    usedMem := by
      dsimp only
      omega
    usedHeap := by
      dsimp only
      omega
    resident := by
      have fewer : (PrimJs.resident (ordinaryPages groups) s.pageMap).ncard ≤
          (PrimJs.resident (ordinaryPages s.groups) s.pageMap).ncard := by
        refine Set.ncard_le_ncard (fun p inside => ?_) (resident_finite inv.held_finite)
        rw [mem_resident, remaining] at inside
        exact ⟨inside.1.1, inside.2⟩
      exact (Nat.mul_le_mul_left _ fewer).trans inv.resident
    usedHeapBound := by
      have bound := inv.usedHeapBound
      dsimp only at bound ⊢
      omega }

/-- The loop, with the counters as they are to become. -/
theorem releaseGroupsLoop_spec (fuel : Nat) :
    ∀ (s : Space) (cnt heap mem : Nat), Inv { s with
        usedHeapSize := heap
        usedMemSize := mem } regions → s.freeGroups ≤ fuel →
      ∃ s' heap' mem', releaseGroupsLoop fuel s cnt = some (cnt + s.freeGroups, s') ∧
        Inv { s' with
          usedHeapSize := heap'
          usedMemSize := mem' } regions ∧
        heap = heap' + s.freeGroups * kRosDefaultPageGroupSize ∧
        mem = mem' + s.freeGroups * kRosDefaultPageGroupValidSize ∧
        s'.usedHeapSize = s.usedHeapSize ∧ s'.usedMemSize = s.usedMemSize ∧
        s'.heapSize = s.heapSize := by
  induction fuel with
  | zero =>
      intro s cnt heap mem inv none_
      have zero : s.freeGroups = 0 := Nat.le_zero.mp none_
      rw [releaseGroupsLoop.eq_def]
      cases found : s.pageCTree.find kRosDefaultPageCountPerGroup with
      | none =>
          dsimp only
          rw [zero, found]
          exact ⟨s, heap, mem, rfl, inv, by omega, by omega, rfl, rfl, rfl⟩
      | some taken =>
          have ⟨a, u⟩ := taken
          have more := find_group inv found
          change s.freeGroups = _ at more
          omega
  | succ fuel ih =>
      intro s cnt heap mem inv enough
      rw [releaseGroupsLoop.eq_def]
      cases found : s.pageCTree.find kRosDefaultPageCountPerGroup with
      | none =>
          have zero : s.freeGroups = 0 := by
            have ⟨_, exact_⟩ := CartesianTree.find_step (s := kRosDefaultPageCountPerGroup) inv.tree
            rcases exact_ with ⟨small, _⟩ | ⟨_, _, wrong, _⟩
            · refine List.countP_eq_zero.mpr fun x member => ?_
              rw [decide_eq_true_eq]
              exact Nat.ne_of_lt (small.resolve_left (by decide) x member)
            · change s.pageCTree.find kRosDefaultPageCountPerGroup = _ at wrong
              rw [found] at wrong
              cases wrong
          dsimp only
          rw [zero, found]
          exact ⟨s, heap, mem, rfl, inv, by omega, by omega, rfl, rfl, rfl⟩
      | some taken =>
          have ⟨a, u⟩ := taken
          have more := find_group inv found
          have ⟨groups, run, heapEnough, memEnough, inv'⟩ := releaseGroup_inv inv found
          have ⟨next, made⟩ : ∃ next : Space, next = { s with
            pageCTree := u
            groups := groups
            currentIdx := groupIdxOf a } := ⟨_, rfl⟩
          rw [← made] at run
          have more : s.freeGroups = next.freeGroups + 1 := by
            rw [made]
            exact more
          have ⟨s', heap', mem', loop, inv'', heapSum, memSum, sameHeap, sameMem, sameSize⟩ :=
            ih next (cnt + 1) (heap - kRosDefaultPageGroupSize) (mem - kRosDefaultPageGroupValidSize)
              (by
                rw [made]
                exact inv') (by omega)
          dsimp only
          rw [found]
          dsimp only
          rw [run, Option.bind_eq_bind, Option.bind_some, loop, more]
          refine ⟨s', heap', mem', by rw [Nat.add_right_comm, Nat.add_assoc], inv'', ?_, ?_, ?_⟩
          · rw [Nat.succ_mul]
            omega
          · rw [Nat.succ_mul]
            omega
          · rw [sameHeap, sameMem, sameSize, made]
            exact ⟨rfl, rfl, rfl⟩

/-- What the release of the free groups leaves of the heap is at least a group. -/
def GroupsFit (s : Space) : Prop :=
  forceDecHeapSize s.heapSize = true → (s.freeGroups + 1) * kRosDefaultPageGroupSize ≤ s.heapSize

instance : Decidable s.GroupsFit := inferInstanceAs (Decidable (_ → _))

theorem releaseFreeGroups_spec (inv : s.Inv regions) (fit : s.GroupsFit) :
    ∃ s', s.releaseFreeGroups = some (s.freeGroups, s') ∧ s'.Inv regions := by
  have ⟨s', heap, mem, loop, inv', heapSum, memSum, sameHeap, sameMem, sameSize⟩ :=
    releaseGroupsLoop_spec s.groups.length s 0 s.usedHeapSize s.usedMemSize inv (freeGroups_le inv)
  have bounds := inv.bounds
  have high := inv.heapHigh
  have growth := inv.growth
  have limit : kMaxHeap < 2 ^ 40 := by decide
  unfold releaseFreeGroups releaseAllFreeGroups
  rw [loop, Nat.zero_add]
  simp only [Option.bind_eq_bind, Option.bind_some]
  rw [Nat.mod_eq_of_lt (a := s.freeGroups * kRosDefaultPageGroupSize) (by omega),
    Nat.mod_eq_of_lt (a := s.freeGroups * kRosDefaultPageGroupValidSize) (by omega), sameHeap,
    subtracts_eq (s := s') (a := s.usedHeapSize) (by omega), sameMem,
    subtracts_eq (s := s') (a := s.usedMemSize) (by omega), sameHeap, sameMem,
    sub64_eq (a := s.usedHeapSize) (by omega) (by omega),
    sub64_eq (a := s.usedMemSize) (by omega) (by omega)]
  rw [← Nat.eq_sub_of_add_eq heapSum.symm, ← Nat.eq_sub_of_add_eq memSum.symm]
  by_cases forced : (forceDecHeapSize s'.heapSize && decide (s.freeGroups > 0)) = true
  · rw [if_pos forced]
    rw [sameSize, Bool.and_eq_true] at forced
    have enough := fit forced.1
    rw [Nat.add_mul, Nat.one_mul] at enough
    rw [sameSize, subtracts_eq (a := s.heapSize) (by omega),
      sub64_eq (a := s.heapSize) (by omega) (by omega)]
    have low : kRosDefaultPageGroupSize ≤
        s.heapSize - s.freeGroups * kRosDefaultPageGroupSize := by omega
    have high' := inv'.heapHigh
    dsimp only at high'
    rw [sameSize] at high'
    refine ⟨_, rfl, ?_⟩
    exact { inv' with
      heapLow := low
      heapHigh := (Nat.sub_le _ _).trans high' }
  · rw [if_neg forced]
    exact ⟨_, rfl, inv'⟩

/-- Where the groups do not fit, the heap loses its last group or the subtraction goes below zero. -/
theorem releaseFreeGroups_unfit (inv : s.Inv regions) (unfit : ¬s.GroupsFit) :
    ∃ s', s.releaseFreeGroups = some (s.freeGroups, s') ∧
      (s'.heapSize < kRosDefaultPageGroupSize ∨ s'.wrapped = true) := by
  have ⟨s', heap, mem, loop, _, heapSum, memSum, sameHeap, sameMem, sameSize⟩ :=
    releaseGroupsLoop_spec s.groups.length s 0 s.usedHeapSize s.usedMemSize inv (freeGroups_le inv)
  have bounds := inv.bounds
  have low := inv.heapLow
  have high := inv.heapHigh
  have growth := inv.growth
  have limit : kMaxHeap < 2 ^ 40 := by decide
  unfold GroupsFit at unfit
  rw [Classical.not_imp, Nat.not_le, Nat.add_mul, Nat.one_mul] at unfit
  have ⟨force, short⟩ := unfit
  have some_ : 0 < s.freeGroups := by
    refine Nat.pos_of_ne_zero fun zero => ?_
    rw [zero, Nat.zero_mul, Nat.zero_add] at short
    exact Nat.not_le.mpr short low
  unfold releaseFreeGroups releaseAllFreeGroups
  rw [loop, Nat.zero_add]
  simp only [Option.bind_eq_bind, Option.bind_some]
  rw [Nat.mod_eq_of_lt (a := s.freeGroups * kRosDefaultPageGroupSize) (by omega),
    Nat.mod_eq_of_lt (a := s.freeGroups * kRosDefaultPageGroupValidSize) (by omega), sameHeap,
    subtracts_eq (s := s') (a := s.usedHeapSize) (by omega), sameMem,
    subtracts_eq (s := s') (a := s.usedMemSize) (by omega), sameSize, force,
    if_pos (by rw [Bool.true_and, decide_eq_true_eq]; exact some_)]
  refine ⟨_, rfl, ?_⟩
  by_cases below : s.heapSize < s.freeGroups * kRosDefaultPageGroupSize
  · right
    dsimp only [subtracts]
    rw [decide_eq_true below, Bool.or_true]
  · left
    dsimp only [subtracts]
    rw [sub64_eq (by omega) (by omega)]
    omega

/-! Releasing free pages. -/

def residentFree (s : Space) : Nat :=
  (s.pageCTree.intervals.map fun x =>
    (List.range' x.start x.size).countP fun p => s.pageMap p ≠ .released).sum

theorem ncard_resident_covers {xs : List Interval} (apart : Apart xs) (pageMap : Nat → PageLabel) :
    (PrimJs.resident (covers xs) pageMap).ncard = (xs.map fun x =>
      (List.range' x.start x.size).countP fun p => pageMap p ≠ .released).sum := by
  induction xs with
  | nil =>
      have empty : PrimJs.resident (covers []) pageMap = ∅ := by
        rw [Set.eq_empty_iff_forall_notMem]
        rintro p ⟨⟨_, member, _⟩, _⟩
        cases member
      rw [empty, Set.ncard_empty]
      rfl
  | cons x xs ih =>
      obtain ⟨first, rest⟩ := apart_cons.mp apart
      have split_ : PrimJs.resident (covers (x :: xs)) pageMap =
          {p | p ∈ Set.Ico x.start (x.start + x.size) ∧ decide (pageMap p ≠ .released) = true} ∪
            PrimJs.resident (covers xs) pageMap := by
        ext p
        rw [Set.mem_union, mem_resident, mem_resident, covers_cons, Set.mem_union, or_and_right,
          Set.mem_ofPred_eq, decide_eq_true_eq]
        rfl
      rw [split_, Set.ncard_union_eq ?_ ((Set.finite_Ico _ _).subset fun _ inside => inside.1)
        (resident_finite (covers_finite xs)), ncard_filter_Ico, ih rest, List.map_cons, List.sum_cons]
      rw [Set.disjoint_left]
      intro p inside here
      exact Set.disjoint_left.mp first inside.1 here.1

/-- The loop releases the pages of the intervals. -/
theorem releasePagesLoop_spec {held : Set Nat} (finite : held.Finite) (xs : List Interval) :
    ∀ (s : Space) (total : Nat),
      (∀ x ∈ xs, 0 < x.size ∧ idxInGroup x.start + x.size ≤ kRosDefaultPageCountPerGroup) →
      (∀ p ∈ covers xs, p ∈ held ∧ (s.pageMap p = .released ∨ s.pageMap p = .free)) →
      total + allocUtilPageSize * (PrimJs.resident held s.pageMap).ncard < 2 ^ 64 →
      ∃ pageMap count, releasePagesLoop xs s total =
          some (total + allocUtilPageSize * count, { s with pageMap := pageMap }) ∧
        (PrimJs.resident held pageMap).ncard + count =
          (PrimJs.resident held s.pageMap).ncard ∧
        (∀ p ∈ covers xs, pageMap p = .released) ∧ ∀ p ∉ covers xs, pageMap p = s.pageMap p := by
  induction xs with
  | nil =>
      intro s total _ _ _
      refine ⟨s.pageMap, 0, rfl, rfl, fun p wrong => ?_, fun _ _ => rfl⟩
      have ⟨_, member, _⟩ := mem_covers_iff.mp wrong
      cases member
  | cons x xs ih =>
      intro s total sized free small
      have ⟨some_, fits⟩ := sized x List.mem_cons_self
      have inFirst : ∀ p ∈ Set.Ico x.start (x.start + x.size), p ∈ covers (x :: xs) :=
        fun p inside => mem_covers_iff.mpr ⟨x, List.mem_cons_self, inside⟩
      have run := setRangeAndCount_release some_ fits fun p inside => (free p (inFirst p inside)).2
      have sum := resident_release s.pageMap finite
        fun p inside => (free p (inFirst p inside)).1
      generalize (List.range' x.start x.size).countP _ = c at run sum
      have few : c ≤ kRosDefaultPageCountPerGroup := by
        have counted := setRangeAndCount_release some_ fits fun p inside =>
          (free p (inFirst p inside)).2
        rw [run, Option.some.injEq, Prod.mk.injEq] at counted
        rw [counted.1]
        refine (List.countP_le_length).trans ?_
        rw [List.length_range']
        omega
      have bytes := pageCnt2Byte_eq few
      have small' : total + allocUtilPageSize * c + allocUtilPageSize *
          (PrimJs.resident held (setLabels s.pageMap x.start x.size .released)).ncard < 2 ^ 64 := by
        rw [← sum, Nat.mul_add] at small
        omega
      have free' : ∀ p ∈ covers xs, p ∈ held ∧
          (setLabels s.pageMap x.start x.size .released p = .released ∨
            setLabels s.pageMap x.start x.size .released p = .free) := by
        intro p inside
        have ⟨here, label⟩ := free p (covers_cons ▸ .inr inside)
        by_cases first : p ∈ Set.Ico x.start (x.start + x.size)
        · rw [setLabels_inside first]
          exact ⟨here, .inl rfl⟩
        · rw [setLabels_outside first]
          exact ⟨here, label⟩
      have ⟨pageMap, count, loop, sum', released, kept⟩ := ih
        { s with pageMap := setLabels s.pageMap x.start x.size .released }
        (total + allocUtilPageSize * c) (fun y member => sized y (List.mem_cons_of_mem x member))
        free' small'
      refine ⟨pageMap, c + count, ?_, ?_, fun p inside => ?_, fun p outside => ?_⟩
      · rw [releasePagesLoop, run]
        simp only [Option.bind_eq_bind, Option.bind_some]
        rw [bytes, add64_eq (by omega), loop, Nat.mul_add, Nat.add_assoc]
      · dsimp only at sum'
        omega
      · rw [covers_cons] at inside
        by_cases later : p ∈ covers xs
        · exact released p later
        · rw [kept p later]
          exact setLabels_inside (inside.resolve_right later)
      · rw [covers_cons, Set.mem_union, not_or] at outside
        rw [kept p outside.2]
        exact setLabels_outside outside.1

/-- What is in memory after the pages are released is at least what is allocated. -/
def PagesFit (s : Space) (aggressive : Bool) : Prop :=
  s.allocatedPageSize + (if aggressive then allocUtilPageSize * s.residentFree else 0) ≤
    s.nonReleasedPageSize

instance {aggressive : Bool} : Decidable (s.PagesFit aggressive) :=
  inferInstanceAs (Decidable (_ ≤ _))

theorem releaseAllFreePages_spec (inv : s.Inv regions) (fit : s.PagesFit true) :
    ∃ s', s.releaseAllFreePages = some s' ∧ s'.Inv regions ∧
      s'.allocatedPageSize = s.allocatedPageSize ∧
      s'.nonReleasedPageSize = s.nonReleasedPageSize - allocUtilPageSize * s.residentFree := by
  have apart := inv.tree.separated.apart
  have held : ∀ p ∈ covers s.pageCTree.intervals, p ∈ ordinaryPages s.groups :=
    fun p inside => inv.pages_sub inside
  have resident := inv.resident
  have bound := inv.nonReleased
  have ⟨pageMap, count, loop, sum, released, kept⟩ := releasePagesLoop_spec inv.held_finite
    s.pageCTree.intervals s 0
    (fun x member => by
      have some_ := inv.tree.positive x member
      have sub : Set.Ico x.start (x.start + x.size) ⊆ ordinaryPages s.groups :=
        fun p inside => held p (mem_covers_iff.mpr ⟨x, member, inside⟩)
      exact ⟨some_, fits_of_sub some_ sub⟩)
    (fun p inside => ⟨held p inside, inv.freeLabels p inside⟩) (by omega)
  have free : PrimJs.resident (ordinaryPages s.groups) pageMap =
      PrimJs.resident (ordinaryPages s.groups) s.pageMap \
        PrimJs.resident (covers s.pageCTree.intervals) s.pageMap := by
    ext p
    rw [Set.mem_sdiff, mem_resident, mem_resident, mem_resident]
    by_cases inside : p ∈ covers s.pageCTree.intervals
    · refine iff_of_false (fun wrong => wrong.2 (released p inside)) fun ⟨old, wrong⟩ => ?_
      exact wrong ⟨inside, old.2⟩
    · rw [kept p inside]
      exact ⟨fun old => ⟨old, fun wrong => inside wrong.1⟩, fun old => old.1⟩
  have counted : count = s.residentFree := by
    have sums := Set.ncard_sdiff_add_ncard_of_subset
      (s := PrimJs.resident (covers s.pageCTree.intervals) s.pageMap)
      (t := PrimJs.resident (ordinaryPages s.groups) s.pageMap)
      (fun p inside => ⟨held p inside.1, inside.2⟩) (resident_finite inv.held_finite)
    rw [← free, ncard_resident_covers apart] at sums
    unfold residentFree
    omega
  unfold PagesFit at fit
  rw [if_pos rfl] at fit
  unfold releaseAllFreePages
  rw [loop, counted, Nat.zero_add]
  simp only [Option.bind_eq_bind, Option.bind_some]
  rw [subtracts_eq (by omega), sub64_eq (by omega) bound]
  refine ⟨_, rfl, ?_, rfl, rfl⟩
  exact { inv with
    freeLabels := fun p inside => .inl (released p inside)
    labelled := fun r member => (inv.labelled r member).congr (inv.sized r member) fun p inside =>
      kept p fun wrong => Set.disjoint_left.mp inv.apart wrong (region_sub member inside)
    resident := by
      rw [counted] at sum
      rw [← sum, Nat.mul_add] at resident
      dsimp only
      omega
    nonReleased := by
      dsimp only
      omega }

theorem releaseFreePages_spec (inv : s.Inv regions) {aggressive : Bool}
    (fit : s.PagesFit aggressive) :
    ∃ released s', s.releaseFreePages aggressive = some (released, s') ∧ s'.Inv regions := by
  have bound := inv.nonReleased
  have before : s.allocatedPageSize ≤ s.nonReleasedPageSize := by
    unfold PagesFit at fit
    omega
  unfold releaseFreePages getFreePageSize
  dsimp only
  rw [subtracts_eq before, sub64_eq before bound]
  cases aggressive with
  | false =>
      rw [if_neg Bool.false_ne_true]
      simp only [Option.bind_eq_bind, Option.bind_some]
      rw [subtracts_eq before, sub64_eq before bound, subtracts_eq (Nat.le_refl _)]
      exact ⟨_, s, rfl, inv⟩
  | true =>
      have ⟨s', run, inv', sameAllocated, less⟩ := releaseAllFreePages_spec inv fit
      have after : s'.allocatedPageSize ≤ s'.nonReleasedPageSize := by
        unfold PagesFit at fit
        rw [if_pos rfl] at fit
        omega
      rw [if_pos rfl, run]
      simp only [Option.bind_eq_bind, Option.bind_some]
      rw [subtracts_eq after, sub64_eq after inv'.nonReleased, subtracts_eq (by omega)]
      exact ⟨_, s', rfl, inv'⟩

/-! The limit of the heap. -/

theorem autoAdjustHeapSize_inv {newHeapSize : Nat} (inv : s.Inv regions) (allocSize : Nat) :
    ({ s with heapSize := newHeapSize }.autoAdjustHeapSize allocSize).Inv regions := by
  have low := inv.heapLow
  have high := inv.heapHigh
  unfold autoAdjustHeapSize
  dsimp only
  generalize saturatingAdd _ _ = grown
  split <;> split <;>
    exact { inv with
      heapLow := Nat.le_max_right _ _
      heapHigh := Nat.max_le.mpr ⟨Nat.min_le_left _ _, low.trans high⟩ }

theorem updateHeapSizeLimit_inv (inv : s.Inv regions) (allocSize newHeapSize : Nat) :
    (s.updateHeapSizeLimit allocSize newHeapSize).Inv regions :=
  autoAdjustHeapSize_inv inv allocSize

theorem updateHeapSizeLimitForBusymode_inv (inv : s.Inv regions) (allocSize : Nat) :
    (s.updateHeapSizeLimitForBusymode allocSize).Inv regions :=
  autoAdjustHeapSize_inv inv allocSize

end PrimJs.Space
