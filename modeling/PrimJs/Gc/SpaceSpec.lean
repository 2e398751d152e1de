import PrimJs.Gc.SpaceInvariant

/-! What the operations of the space keep, with the regions the allocator has taken from it. -/

namespace PrimJs

inductive RegionKind where
  | run
  | large
  deriving DecidableEq, Repr

def RegionKind.head : RegionKind → PageLabel
  | .run => .run
  | .large => .largeObj

def RegionKind.rem : RegionKind → PageLabel
  | .run => .runRem
  | .large => .largeObjRem

/-- Pages in use by the allocator. -/
structure Region where
  kind : RegionKind
  pages : Interval
  deriving DecidableEq, Repr

abbrev extents (regions : List Region) : List Interval := regions.map Region.pages

namespace Space

/-- The pages of the ordinary groups are free or of one region, and every counter counts what it is
for. -/
structure Inv (s : Space) (regions : List Region) : Prop where
  tree : s.pageCTree.Inv
  slots : Slots s.groups s.currentIdx
  shaped : ∀ g ∈ s.groups, g.Shaped
  few : s.groups.length ≤ kRosDefaultPageGroupNums
  sized : ∀ r ∈ regions, 0 < r.pages.size
  regionsApart : Apart (extents regions)
  apart : Disjoint s.pageCTree.pages (covers (extents regions))
  whole : s.pageCTree.pages ∪ covers (extents regions) = ordinaryPages s.groups
  total : s.pageCTree.total + totalSize (extents regions) =
    kRosDefaultPageCountPerGroup * sumOf PageGroup.ordinaryCount s.groups
  freeLabels : ∀ p ∈ s.pageCTree.pages, s.pageMap p = .released ∨ s.pageMap p = .free
  labelled : ∀ r ∈ regions, Labelled s.pageMap r.kind.head r.kind.rem r.pages
  allocated : s.allocatedPageSize =
    allocUtilPageSize * totalSize (extents regions) + sumOf PageGroup.hugeCapacity s.groups
  usedMem : s.usedMemSize = sumOf PageGroup.capacity s.groups
  usedHeap : s.usedHeapSize = sumOf PageGroup.mapped s.groups
  resident : allocUtilPageSize * (resident (ordinaryPages s.groups) s.pageMap).ncard ≤
    s.nonReleasedPageSize
  nonReleased : s.nonReleasedPageSize < 2 ^ 64
  usedHeapBound : s.usedHeapSize ≤ kMaxHeap + kPageGroupOverHead * allocUtilPageSize
  heapLow : kRosDefaultPageGroupSize ≤ s.heapSize
  heapHigh : s.heapSize ≤ s.heapGrowthLimit
  growth : s.heapGrowthLimit ≤ kMaxHeap
  unwrapped : s.wrapped = false

variable {s : Space} {regions : List Region} {r : Region} {groups : List PageGroup}
  {g : PageGroup} {a n p : Nat}

theorem add64_eq {a b : Nat} (small : a + b < 2 ^ 64) : add64 a b = a + b := Nat.mod_eq_of_lt small

theorem sub64_eq {a b : Nat} (below : b ≤ a) (small : a < 2 ^ 64) : sub64 a b = a - b := by
  unfold sub64
  omega

theorem subtracts_eq {a b : Nat} (below : b ≤ a) : s.subtracts a b = s := by
  unfold subtracts
  rw [decide_eq_false (Nat.not_lt.mpr below), Bool.or_false]

namespace Inv

variable (inv : s.Inv regions)

include inv

theorem allocated_add_free :
    s.allocatedPageSize + allocUtilPageSize * s.pageCTree.total = s.usedMemSize := by
  have total := inv.total
  have split_ : sumOf PageGroup.capacity s.groups = sumOf PageGroup.hugeCapacity s.groups +
      kRosDefaultPageGroupValidSize * sumOf PageGroup.ordinaryCount s.groups := by
    rw [sumOf_congr fun g member => (inv.shaped g member).capacity_eq, sumOf_add_mul]
  rw [inv.allocated, inv.usedMem, split_]
  simp only [kRosDefaultPageGroupValidSize, kRosDefaultPageCountPerGroup, kRosDefaultPageGroupSize,
    kPageGroupOverHead, allocUtilPageSize] at total ⊢
  omega

theorem allocated_le : s.allocatedPageSize ≤ s.usedMemSize := by
  rw [← inv.allocated_add_free]
  exact Nat.le_add_right _ _

theorem usedMem_le : s.usedMemSize ≤ s.usedHeapSize := by
  rw [inv.usedMem, inv.usedHeap]
  exact sumOf_le fun g member => (inv.shaped g member).capacity_le

theorem live_le : kRosDefaultPageGroupSize * sumOf PageGroup.live s.groups ≤ s.usedHeapSize := by
  have scaled : sumOf (fun g => 0 + kRosDefaultPageGroupSize * g.live) s.groups ≤
      sumOf PageGroup.mapped s.groups :=
    sumOf_le fun g member => by
      rw [Nat.zero_add]
      exact (inv.shaped g member).live_le
  have zero : sumOf (fun _ => 0) s.groups = 0 := by simp [sumOf]
  rw [sumOf_add_mul, zero, Nat.zero_add] at scaled
  rw [inv.usedHeap]
  exact scaled

theorem bounds : s.allocatedPageSize < 2 ^ 40 ∧ s.usedMemSize < 2 ^ 40 ∧ s.usedHeapSize < 2 ^ 40 := by
  have first := inv.allocated_le
  have second := inv.usedMem_le
  have third := inv.usedHeapBound
  have bound : kMaxHeap + kPageGroupOverHead * allocUtilPageSize < 2 ^ 40 := by decide
  omega

theorem pages_sub : s.pageCTree.pages ⊆ ordinaryPages s.groups := by
  rw [← inv.whole]
  exact Set.subset_union_left

theorem regions_sub : covers (extents regions) ⊆ ordinaryPages s.groups := by
  rw [← inv.whole]
  exact Set.subset_union_right

theorem held_finite : (ordinaryPages s.groups).Finite := by
  rw [← inv.whole]
  exact (covers_finite _).union (covers_finite _)

/-- There is a slot for another group as long as one fits below the largest heap. -/
theorem current_lt (room : s.usedHeapSize + kROSAllocHugeSize < kMaxHeap) :
    s.currentIdx < kRosDefaultPageGroupNums := by
  have few := inv.few
  rcases Nat.lt_or_eq_of_le inv.slots.current_le with below | last
  · omega
  · have slots := inv.slots
    rw [last] at slots
    have all := slots.all_live
    have live := inv.live_le
    simp only [kMaxHeap, kRosDefaultPageGroupNums, kRosDefaultPageGroupSize, kROSAllocHugeSize,
      kRosDefaultPageGroupValidSize] at *
    omega

end Inv

theorem region_sub (member : r ∈ regions) : r.pages.points ⊆ covers (extents regions) :=
  fun _ inside => ⟨r.pages, List.mem_map_of_mem member, inside⟩

theorem fits_of_sub (some_ : 0 < n) (sub : Set.Ico a (a + n) ⊆ ordinaryPages groups) :
    idxInGroup a + n ≤ kRosDefaultPageCountPerGroup := by
  have last : a + (n - 1) ∈ groupPages (groupIdxOf a) :=
    Ico_in_group some_ sub ⟨by omega, by omega⟩
  have first : a ∈ groupPages (groupIdxOf a) := Ico_in_group some_ sub ⟨by omega, by omega⟩
  have ⟨same, small⟩ := mem_groupPages.mp last
  have pages : kRosDefaultPageCountPerGroup = 29 := rfl
  rw [pages] at small ⊢
  unfold groupIdxOf idxInGroup at *
  omega

/-! New groups. -/

/-- The slots after the group of the current one came into use. -/
structure Occupied (old new : List PageGroup) (i : Nat) (g : PageGroup) (next : Nat) : Prop where
  slots : Slots new next
  shaped : ∀ g ∈ new, g.Shaped
  few : new.length ≤ kRosDefaultPageGroupNums
  slot : new[i]? = some g
  sums : ∀ f : PageGroup → Nat, (∀ g, g.initialized = false → f g = 0) → sumOf f new = sumOf f old + f g
  ordinary : g.ordinary = true → ordinaryPages new = ordinaryPages old ∪ groupPages i ∧
    Disjoint (ordinaryPages old) (groupPages i)
  huge : g.ordinary = false → ordinaryPages new = ordinaryPages old

theorem occupied_of_slot {next : Nat} {old : PageGroup} {i : Nat} (slots : Slots groups i)
    (shaped : ∀ g ∈ groups, g.Shaped) (few : groups.length ≤ kRosDefaultPageGroupNums)
    (slot : groups[i]? = some old) (idle : old.initialized = false) (ready : g.initialized = true)
    (shape : g.Shaped) (following : old.nextFreeIdx = next) :
    Occupied groups (groups.set i g) i g next := by
  have inside := (List.getElem?_eq_some_iff.mp slot).1
  have other : old.ordinary = false := by
    rw [PageGroup.ordinary, idle, Bool.false_and]
  refine {
    slots := by
      rw [← following]
      exact slots.occupy slot ready
    shaped := fun g' member => ?_
    few := by
      rw [List.length_set]
      exact few
    slot := List.getElem?_set_self inside
    sums := fun f vanishes => ?_
    ordinary := fun kind => ordinaryPages_set_add slot other kind
    huge := fun kind => ?_ }
  · rcases List.mem_or_eq_of_mem_set member with old | new
    · exact shaped g' old
    · rw [new]
      exact shape
  · have sums := sumOf_set (f := f) g slot
    rw [vanishes old idle, Nat.add_zero] at sums
    exact sums
  · rw [ordinaryPages_set_remove slot kind, sdiff_eq_left.mpr]
    rw [Set.disjoint_left]
    intro p inside' here
    have ⟨g2, slot2, wrong, _⟩ := ordinaryPages_iff.mp inside'
    rw [(mem_groupPages.mp here).1, slot, Option.some.injEq] at slot2
    rw [← slot2, other] at wrong
    cases wrong

theorem ensureConstructed_spec (slots : Slots s.groups s.currentIdx)
    (shaped : ∀ g ∈ s.groups, g.Shaped) (few : s.groups.length ≤ kRosDefaultPageGroupNums)
    (room : s.currentIdx < kRosDefaultPageGroupNums) :
    ∃ group groups, s.ensureConstructed = some (group, { s with groups := groups }) ∧
      group.initialized = false ∧ group.isHuge = false ∧
      ∀ g : PageGroup, g.initialized = true → g.Shaped →
        Occupied s.groups (groups.set s.currentIdx g) s.currentIdx g group.nextFreeIdx := by
  have bound := slots.current_le
  unfold ensureConstructed
  rw [if_neg (Nat.not_lt.mpr bound)]
  by_cases last : s.currentIdx = s.groups.length
  · rw [if_pos last]
    dsimp only
    generalize made : PageGroup.mk _ _ _ _ _ = new
    have idle : new.initialized = false := by rw [← made]
    have small : new.isHuge = false := by rw [← made]
    have following : new.nextFreeIdx = s.groups.length + 1 := by rw [← made, ← last]
    have other : new.ordinary = false := by rw [PageGroup.ordinary, idle, Bool.false_and]
    have slot : (s.groups ++ [new])[s.currentIdx]? = some new := by
      rw [last]
      exact List.getElem?_concat_length
    have slots' : Slots (s.groups ++ [new]) s.currentIdx := by
      rw [last] at slots ⊢
      exact slots.construct idle following
    have shaped' : ∀ g ∈ s.groups ++ [new], g.Shaped := by
      intro g member
      rcases List.mem_append.mp member with old | here
      · exact shaped g old
      · rw [List.mem_singleton.mp here]
        refine ⟨fun _ => small, fun wrong => ?_, fun wrong => ?_⟩
        · rw [other] at wrong
          cases wrong
        · rw [PageGroup.huge, idle] at wrong
          cases wrong
    have few' : (s.groups ++ [new]).length ≤ kRosDefaultPageGroupNums := by
      rw [List.length_append, List.length_singleton]
      omega
    refine ⟨new, s.groups ++ [new], rfl, idle, small, fun g ready shape => ?_⟩
    have occupied := occupied_of_slot slots' shaped' few' slot idle ready shape rfl
    exact { occupied with
      sums := fun f vanishes => by
        rw [occupied.sums f vanishes, sumOf_append, vanishes new idle, Nat.add_zero]
      ordinary := fun kind => by
        have same : ordinaryPages (s.groups ++ [new]) = ordinaryPages s.groups :=
          ordinaryPages_append other
        rw [← same]
        exact occupied.ordinary kind
      huge := fun kind => by
        rw [occupied.huge kind]
        exact ordinaryPages_append other }
  · have inside : s.currentIdx < s.groups.length := by omega
    have slot := List.getElem?_eq_getElem inside
    have idle : s.groups[s.currentIdx].initialized = false := by
      have ⟨l, chain, members⟩ := slots
      cases l with
      | nil => exact absurd (Chain.nil_iff.mp chain) last
      | cons first rest =>
          have ⟨same, _⟩ := Chain.cons_iff.mp chain
          have ⟨g, slot', idle⟩ := (members first).mp List.mem_cons_self
          rw [← same, slot, Option.some.injEq] at slot'
          rw [slot']
          exact idle
    rw [if_neg last, slot]
    refine ⟨_, s.groups, rfl, idle, (shaped _ (List.mem_of_getElem? slot)).idle idle,
      fun g ready shape => occupied_of_slot slots shaped few slot idle ready shape rfl⟩

theorem sums_occupied {old new : List PageGroup} {i next : Nat} (occupied : Occupied old new i g next)
    (kind : g.ordinary = true) (shape : g.Shaped) :
    sumOf PageGroup.ordinaryCount new = sumOf PageGroup.ordinaryCount old + 1 ∧
      sumOf PageGroup.hugeCapacity new = sumOf PageGroup.hugeCapacity old ∧
      sumOf PageGroup.capacity new =
        sumOf PageGroup.capacity old + kRosDefaultPageGroupValidSize ∧
      sumOf PageGroup.mapped new = sumOf PageGroup.mapped old + kRosDefaultPageGroupSize := by
  have ⟨ready, small⟩ : g.initialized = true ∧ g.huge = false := by
    rcases g.cases_kind with ⟨_, wrong, _⟩ | ⟨ready, _, small⟩ | ⟨_, wrong, _⟩
    · rw [kind] at wrong
      cases wrong
    · exact ⟨ready, small⟩
    · rw [kind] at wrong
      cases wrong
  have ⟨size, whole⟩ := shape.normal kind
  refine ⟨?_, ?_, ?_, ?_⟩
  · rw [occupied.sums _ fun g idle => by simp [PageGroup.ordinaryCount, PageGroup.ordinary, idle]]
    simp [PageGroup.ordinaryCount, kind]
  · rw [occupied.sums _ fun g idle => by simp [PageGroup.hugeCapacity, PageGroup.huge, idle]]
    simp [PageGroup.hugeCapacity, small]
  · rw [occupied.sums _ fun g idle => by simp [PageGroup.capacity, idle]]
    simp [PageGroup.capacity, ready, size]
  · rw [occupied.sums _ fun g idle => by simp [PageGroup.mapped, idle]]
    simp [PageGroup.mapped, ready, whole]

/-- The fresh pages of a group are not in memory yet. -/
theorem resident_fresh {held fresh : Set Nat} {pageMap pageMap' : Nat → PageLabel}
    (same : ∀ p ∈ held, pageMap' p = pageMap p) (released : ∀ p ∈ fresh, pageMap' p = .released) :
    PrimJs.resident (held ∪ fresh) pageMap' = PrimJs.resident held pageMap := by
  ext p
  rw [mem_resident, mem_resident, Set.mem_union]
  constructor
  · rintro ⟨old | new, kept⟩
    · rw [same p old] at kept
      exact ⟨old, kept⟩
    · exact absurd (released p new) kept
  · intro ⟨old, kept⟩
    rw [same p old]
    exact ⟨.inl old, kept⟩

/-- The stack of the tree's insertion gives back what it needs for the pages of a new group. -/
def GroupSettles (s : Space) : Prop :=
  s.pageCTree.Settles (pageIdxOf s.currentIdx 0) kRosDefaultPageCountPerGroup

instance (s : Space) : Decidable s.GroupSettles :=
  inferInstanceAs (Decidable (CartesianTree.Settles _ _ _))

/-- A new group, with the counters as they are to become. -/
theorem newPageGroup_spec {heap mem : Nat} (inv : Inv { s with
      usedHeapSize := heap
      usedMemSize := mem } regions)
    (room : heap + kRosDefaultPageGroupSize ≤ kMaxHeap) (settles : s.GroupSettles) :
    ∃ s', s.newPageGroup = some s' ∧
      Inv { s' with
        usedHeapSize := heap + kRosDefaultPageGroupSize
        usedMemSize := mem + kRosDefaultPageGroupValidSize } regions ∧
      s'.usedHeapSize = s.usedHeapSize ∧ s'.usedMemSize = s.usedMemSize ∧
      s'.heapSize = s.heapSize ∧ s'.nonReleasedPageSize = s.nonReleasedPageSize ∧
      s'.newGroupNeeded = s.newGroupNeeded ∧ s'.heapGrowthLimit = s.heapGrowthLimit ∧
      sumOf PageGroup.ordinaryCount s'.groups = sumOf PageGroup.ordinaryCount s.groups + 1 := by
  have sizes : kROSAllocHugeSize < kRosDefaultPageGroupSize := by decide
  have current : s.currentIdx < kRosDefaultPageGroupNums := 
    inv.current_lt (by dsimp only; omega)
  obtain ⟨group, groups, constructed, idle, small, occupied⟩ :=
    ensureConstructed_spec (s := s) inv.slots inv.shaped inv.few current
  unfold newPageGroup
  rw [if_neg (Nat.not_le.mpr current), constructed]
  simp only [Option.bind_eq_bind, Option.bind_some, idle, if_neg Bool.false_ne_true]
  unfold initNormalGroup
  dsimp only
  generalize made : PageGroup.mk _ _ _ _ _ = new
  have ready : new.initialized = true := by rw [← made]
  have kind : new.ordinary = true := by
    rw [PageGroup.ordinary, ready, ← made]
    simp [small]
  have shape : new.Shaped := by
    rw [← made]
    refine ⟨fun wrong => (by cases wrong), fun _ => ⟨rfl, rfl⟩, fun wrong => ?_⟩
    rw [PageGroup.huge, small] at wrong
    cases wrong
  have occupied := occupied new ready shape
  obtain ⟨count, hugeSum, capacitySum, mappedSum⟩ := sums_occupied occupied kind shape
  obtain ⟨pages, apart⟩ := occupied.ordinary kind
  have start : pageIdxOf s.currentIdx 0 + kRosDefaultPageCountPerGroup < 2 ^ 32 := by
    simp only [kRosDefaultPageGroupNums] at current
    simp only [pageIdxOf, kRosDefaultPageCountPerGroup, kRosDefaultPageGroupValidSize,
      kRosDefaultPageGroupSize, kPageGroupOverHead, allocUtilPageSize]
    omega
  have treeApart : Disjoint s.pageCTree.pages (groupPages s.currentIdx) :=
    Set.disjoint_of_subset_left inv.pages_sub apart
  have regionsApart : Disjoint (covers (extents regions)) (groupPages s.currentIdx) :=
    Set.disjoint_of_subset_left inv.regions_sub apart
  obtain ⟨treeInv, exact_⟩ := CartesianTree.mergeInsert_step inv.tree start (fun _ => by decide) settles
  obtain ⟨u, inserted, _, _, treePages, treeTotal⟩ := exact_.resolve_left fun both => by
    rcases both.1 with wrong | ⟨p, new, old⟩
    · exact absurd wrong (by decide)
    · exact Set.disjoint_left.mp treeApart old new
  unfold addPages
  rw [inserted] at treeInv ⊢
  refine ⟨_, rfl, ?_, rfl, rfl, rfl, rfl, rfl, rfl, count⟩
  have outside : ∀ p ∉ groupPages s.currentIdx,
      setLabels s.pageMap (pageIdxOf s.currentIdx 0) kRosDefaultPageCountPerGroup .released p =
        s.pageMap p := fun p => setLabels_outside
  exact {
    tree := treeInv
    slots := occupied.slots
    shaped := occupied.shaped
    few := occupied.few
    sized := inv.sized
    regionsApart := inv.regionsApart
    apart := by
      change Disjoint u.pages _
      rw [treePages, Set.disjoint_union_left]
      exact ⟨inv.apart, regionsApart.symm⟩
    whole := by
      change u.pages ∪ _ = _
      rw [treePages, pages, ← inv.whole, Set.union_right_comm]
      rfl
    total := by
      change u.total + _ = _
      have total := inv.total
      dsimp only at total treeTotal ⊢
      rw [treeTotal, count, Nat.mul_succ]
      omega
    freeLabels := by
      intro p inside
      change p ∈ u.pages at inside
      rw [treePages] at inside
      by_cases here : p ∈ groupPages s.currentIdx
      · exact .inl (setLabels_inside here)
      · have old := inside.resolve_right here
        change setLabels _ _ _ _ p = _ ∨ setLabels _ _ _ _ p = _
        rw [outside p here]
        exact inv.freeLabels p old
    labelled := fun r member => (inv.labelled r member).congr (inv.sized r member) fun p inside =>
      outside p fun here => Set.disjoint_left.mp regionsApart (region_sub member inside) here
    allocated := by
      rw [hugeSum]
      exact inv.allocated
    usedMem := by
      rw [capacitySum, ← inv.usedMem]
    usedHeap := by
      rw [mappedSum, ← inv.usedHeap]
    resident := by
      have fresh : ∀ p ∈ groupPages s.currentIdx,
          setLabels s.pageMap (pageIdxOf s.currentIdx 0) kRosDefaultPageCountPerGroup .released p =
            .released := fun p here => setLabels_inside here
      have same := resident_fresh
        (fun p held => outside p fun here => Set.disjoint_left.mp apart held here) fresh
      dsimp only
      rw [pages]
      exact (congrArg (fun held => allocUtilPageSize * held.ncard ≤ s.nonReleasedPageSize) same).mpr
        inv.resident
    nonReleased := inv.nonReleased
    usedHeapBound := by
      dsimp only
      omega
    heapLow := inv.heapLow
    heapHigh := inv.heapHigh
    growth := inv.growth
    unwrapped := inv.unwrapped }

/-- The space grows by a group where the heap has room for one. -/
theorem extend_grows (inv : s.Inv regions)
    (headroom : s.getHeapHeadroom ≥ kRosDefaultPageGroupSize) (settles : s.GroupSettles) :
    ∃ s', s.extend = some s' ∧ s'.Inv regions ∧
      s'.usedHeapSize = s.usedHeapSize + kRosDefaultPageGroupSize ∧ s'.heapSize = s.heapSize ∧
      s'.nonReleasedPageSize = s.nonReleasedPageSize ∧ s'.newGroupNeeded = s.newGroupNeeded ∧
      s'.heapGrowthLimit = s.heapGrowthLimit ∧
      sumOf PageGroup.ordinaryCount s'.groups = sumOf PageGroup.ordinaryCount s.groups + 1 := by
  have bounds := inv.bounds
  have room : s.usedHeapSize + kRosDefaultPageGroupSize ≤ kMaxHeap := by
    have high := inv.heapHigh
    have growth := inv.growth
    have size : 0 < kRosDefaultPageGroupSize := by decide
    unfold getHeapHeadroom at headroom
    split at headroom <;> omega
  have ⟨s', run, inv', sameHeap, sameMem, rest⟩ := newPageGroup_spec inv room settles
  have group : kRosDefaultPageGroupSize < 2 ^ 40 := by decide
  have valid : kRosDefaultPageGroupValidSize < 2 ^ 40 := by decide
  unfold extend
  rw [if_pos headroom, run]
  simp only [Option.bind_eq_bind, Option.bind_some]
  rw [sameHeap, sameMem, add64_eq (by omega), add64_eq (by omega)]
  exact ⟨_, rfl, inv', rfl, rest⟩

def ExtendFits (s : Space) : Prop :=
  s.getHeapHeadroom ≥ kRosDefaultPageGroupSize → s.GroupSettles

instance (s : Space) : Decidable s.ExtendFits := inferInstanceAs (Decidable (_ → _))

theorem extend_spec (inv : s.Inv regions) (fits : s.ExtendFits) :
    ∃ s', s.extend = some s' ∧ s'.Inv regions ∧
      s'.nonReleasedPageSize = s.nonReleasedPageSize := by
  by_cases headroom : s.getHeapHeadroom ≥ kRosDefaultPageGroupSize
  · have ⟨s', run, inv', _, _, sameReleased, _⟩ := extend_grows inv headroom (fits headroom)
    exact ⟨s', run, inv', sameReleased⟩
  · unfold extend
    rw [if_neg headroom]
    exact ⟨_, rfl, { inv with }, rfl⟩

/-! Taking pages. -/

theorem pageRndUp_pages (few : n ≤ kRosDefaultPageCountPerGroup) :
    calcChunkSize (n * allocUtilPageSize) = n := by
  simp only [kRosDefaultPageCountPerGroup, kRosDefaultPageGroupValidSize, kRosDefaultPageGroupSize,
    kPageGroupOverHead, allocUtilPageSize] at few
  unfold calcChunkSize pageByte2Cnt pageRndUp
  rw [add64_eq] <;> simp only [allocUtilPageSize] <;> omega

theorem find_some {t u : CartesianTree} (inv : t.Inv) (found : t.find n = some (a, u)) :
    u.Inv ∧ Set.Ico a (a + n) ⊆ t.pages ∧ u.pages = t.pages \ Set.Ico a (a + n) ∧
      u.total + n = t.total := by
  have ⟨treeInv, exact_⟩ := CartesianTree.find_step (s := n) inv
  rcases exact_ with ⟨_, missed⟩ | ⟨a', u', found', sub, pages, total⟩
  · rw [found] at missed
    cases missed
  · rw [found, Option.some.injEq, Prod.mk.injEq] at found'
    rw [CartesianTree.Op.apply, found] at treeInv
    rw [found'.1, found'.2]
    rw [found'.2] at treeInv
    exact ⟨treeInv, sub, pages, total⟩

/-- Pages that leave the tree become a region. -/
theorem setAsObjPage_inv {u : CartesianTree} (inv : s.Inv regions) (kind : RegionKind)
    (some_ : 0 < n) (found : s.pageCTree.find n = some (a, u))
    (room : s.nonReleasedPageSize + kROSAllocHugeSize < 2 ^ 64) :
    ∃ c s', setAsObjPage kind.head kind.rem { s with
        pageCTree := u
        allocatedPageSize := s.allocatedPageSize + n * allocUtilPageSize } a n = some (c, s') ∧
      (s'.recordReleasedToNonReleased c).Inv (⟨kind, ⟨a, n⟩⟩ :: regions) := by
  have ⟨treeInv, sub, pages, total⟩ := find_some inv.tree found
  have held : Set.Ico a (a + n) ⊆ ordinaryPages s.groups := sub.trans inv.pages_sub
  have fits := fits_of_sub some_ held
  have first : a ∈ s.pageCTree.pages := sub ⟨Nat.le_refl a, by omega⟩
  have keptHead : kind.head ≠ .released := by cases kind <;> decide
  have keptRem : kind.rem ≠ .released := by cases kind <;> decide
  have ⟨c, pageMap', run, few, labelled, outside, grown⟩ := setAsObjPage_spec
    (s := { s with
      pageCTree := u
      allocatedPageSize := s.allocatedPageSize + n * allocUtilPageSize })
    inv.held_finite some_ held fits (inv.freeLabels a first) keptHead keptRem
  refine ⟨c, _, run, ?_⟩
  have apart : Disjoint (Set.Ico a (a + n)) (covers (extents regions)) :=
    Set.disjoint_of_subset_left sub inv.apart
  have converted : pageCnt2Byte c = allocUtilPageSize * c := by
    unfold pageCnt2Byte
    rw [Nat.mul_comm]
    refine Nat.mod_eq_of_lt ?_
    simp only [kRosDefaultPageCountPerGroup, kRosDefaultPageGroupValidSize, kRosDefaultPageGroupSize,
      kPageGroupOverHead, allocUtilPageSize] at fits ⊢
    omega
  have bytes : allocUtilPageSize * c ≤ kROSAllocHugeSize := by
    simp only [kRosDefaultPageCountPerGroup, kROSAllocHugeSize, kRosDefaultPageGroupValidSize,
      kRosDefaultPageGroupSize, kPageGroupOverHead, allocUtilPageSize] at fits ⊢
    omega
  unfold recordReleasedToNonReleased
  rw [converted, add64_eq (by dsimp only; omega)]
  have whole : covers (extents (⟨kind, ⟨a, n⟩⟩ :: regions)) =
      Set.Ico a (a + n) ∪ covers (extents regions) := covers_cons
  have size : totalSize (extents (⟨kind, ⟨a, n⟩⟩ :: regions)) =
      n + totalSize (extents regions) := totalSize_cons
  exact {
    tree := treeInv
    slots := inv.slots
    shaped := inv.shaped
    few := inv.few
    sized := by
      intro r member
      rcases List.mem_cons.mp member with new | old
      · rw [new]
        exact some_
      · exact inv.sized r old
    regionsApart := apart_cons.mpr ⟨apart, inv.regionsApart⟩
    apart := by
      rw [whole]
      change Disjoint u.pages _
      rw [pages, Set.disjoint_union_right]
      exact ⟨Set.disjoint_sdiff_left, Set.disjoint_of_subset_left Set.sdiff_subset inv.apart⟩
    whole := by
      rw [whole]
      change u.pages ∪ _ = ordinaryPages s.groups
      rw [pages, ← Set.union_assoc, Set.sdiff_union_of_subset sub]
      exact inv.whole
    total := by
      rw [size]
      change u.total + _ = _
      have before := inv.total
      dsimp only
      omega
    freeLabels := by
      intro p inside
      change p ∈ u.pages at inside
      rw [pages] at inside
      change pageMap' p = _ ∨ pageMap' p = _
      rw [outside p inside.2]
      exact inv.freeLabels p inside.1
    labelled := by
      intro r member
      rcases List.mem_cons.mp member with new | old
      · rw [new]
        exact labelled
      · exact (inv.labelled r old).congr (inv.sized r old) fun p inside => outside p fun here =>
          Set.disjoint_left.mp apart here (region_sub old inside)
    allocated := by
      have before := inv.allocated
      rw [size, Nat.mul_add]
      dsimp only
      rw [before, Nat.mul_comm n]
      omega
    usedMem := inv.usedMem
    usedHeap := inv.usedHeap
    resident := by
      have before := inv.resident
      dsimp only at grown ⊢
      rw [grown, Nat.mul_add]
      omega
    nonReleased := by
      dsimp only
      omega
    usedHeapBound := inv.usedHeapBound
    heapLow := inv.heapLow
    heapHigh := inv.heapHigh
    growth := inv.growth
    unwrapped := inv.unwrapped }

/-- What `Alloc` returns: nothing, or a chunk that the tree found. -/
def Allocated (s : Space) (regions : List Region) (n : Nat) (chunk : Option Nat) (s' : Space) : Prop :=
  (chunk = none ∧ s'.Inv regions ∧ s'.nonReleasedPageSize = s.nonReleasedPageSize) ∨
    ∃ (a : Nat) (u : CartesianTree) (s0 : Space), chunk = some a ∧ s0.Inv regions ∧
      s0.nonReleasedPageSize = s.nonReleasedPageSize ∧ s0.pageCTree.find n = some (a, u) ∧
        s' = { s0 with
          pageCTree := u
          allocatedPageSize := s0.allocatedPageSize + n * allocUtilPageSize }

theorem getChunk_spec (inv : s.Inv regions) (few : n ≤ kRosDefaultPageCountPerGroup) :
    s.Allocated regions n (s.getChunk (n * allocUtilPageSize)).1
      (s.getChunk (n * allocUtilPageSize)).2 := by
  unfold getChunk
  rw [pageRndUp_pages few]
  cases found : s.pageCTree.find n with
  | none => exact .inl ⟨rfl, inv, rfl⟩
  | some taken =>
      have ⟨a, u⟩ := taken
      refine .inr ⟨a, u, s, rfl, inv, rfl, found, ?_⟩
      have bounds := inv.bounds
      dsimp only
      rw [add64_eq]
      simp only [kRosDefaultPageCountPerGroup, kRosDefaultPageGroupValidSize,
        kRosDefaultPageGroupSize, kPageGroupOverHead, allocUtilPageSize] at few ⊢
      omega

theorem getChunk_none (few : n ≤ kRosDefaultPageCountPerGroup) (found : s.pageCTree.find n = none) :
    s.getChunk (n * allocUtilPageSize) = (none, s) := by
  rw [getChunk, pageRndUp_pages few, found]

theorem allocExtending_spec {s1 : Space} (inv : s1.Inv regions)
    (same : s1.nonReleasedPageSize = s.nonReleasedPageSize)
    (few : n ≤ kRosDefaultPageCountPerGroup) (triggered : Bool)
    (fits : triggered = true ∨ s1.ExtendFits) :
    ∃ chunk s', (if triggered then some (none, s1) else do
        let s ← s1.extend
        some (s.getChunk (n * allocUtilPageSize))) = some (chunk, s') ∧
      s.Allocated regions n chunk s' := by
  cases triggered with
  | true => exact ⟨none, s1, rfl, .inl ⟨rfl, inv, same⟩⟩
  | false =>
      have ⟨s2, run, inv2, same2⟩ := extend_spec inv (fits.resolve_left Bool.false_ne_true)
      have chunk := getChunk_spec inv2 few
      rw [if_neg Bool.false_ne_true, run]
      refine ⟨_, _, rfl, ?_⟩
      unfold Allocated at chunk ⊢
      rw [same2, same] at chunk
      exact chunk

/-- There is a chunk of so many pages, or the space need not grow, or it can. -/
def AllocFits (s : Space) (n : Nat) (triggered : Bool) : Prop :=
  (s.pageCTree.find n).isSome = true ∨ triggered = true ∨ s.ExtendFits

instance (s : Space) (n : Nat) (triggered : Bool) : Decidable (s.AllocFits n triggered) :=
  inferInstanceAs (Decidable (_ ∨ _))

theorem alloc_spec (inv : s.Inv regions) (few : n ≤ kRosDefaultPageCountPerGroup) (triggered : Bool)
    (fits : s.AllocFits n triggered) :
    ∃ chunk s', s.alloc (n * allocUtilPageSize) triggered = some (chunk, s') ∧
      s.Allocated regions n chunk s' := by
  unfold alloc
  by_cases exceeds : s.exceedsAllocatedPageLimit (n * allocUtilPageSize) = true
  · rw [if_pos exceeds]
    exact ⟨none, s, rfl, .inl ⟨rfl, inv, rfl⟩⟩
  · rw [if_neg exceeds]
    dsimp only
    rw [subtracts_eq inv.allocated_le]
    by_cases enough : sub64 s.usedMemSize s.allocatedPageSize ≥ n * allocUtilPageSize
    · have chunk := getChunk_spec inv few
      rw [if_pos enough]
      cases found : s.pageCTree.find n with
      | none =>
          rw [getChunk_none few found]
          refine allocExtending_spec inv rfl few triggered (fits.resolve_left fun some_ => ?_)
          rw [found] at some_
          cases some_
      | some taken =>
          rcases got : s.getChunk (n * allocUtilPageSize) with ⟨_ | a, s1⟩
          · have wrong := congrArg Prod.fst got
            rw [getChunk, pageRndUp_pages few, found] at wrong
            cases wrong
          · rw [got] at chunk
            exact ⟨some a, s1, rfl, chunk⟩
    · rw [if_neg enough]
      refine allocExtending_spec inv rfl few triggered (fits.resolve_left fun some_ => ?_)
      obtain ⟨⟨a, u⟩, found⟩ := Option.isSome_iff_exists.mp some_
      have ⟨_, _, _, total⟩ := find_some inv.tree found
      have bounds := inv.bounds
      have free := inv.allocated_add_free
      rw [← total, Nat.mul_add, Nat.mul_comm _ n] at free
      rw [sub64_eq inv.allocated_le (by omega)] at enough
      omega

theorem pageRndUp_spec {size : Nat} (some_ : 0 < size) (few : size ≤ kROSAllocHugeSize) :
    ∃ n, 0 < n ∧ n ≤ kRosDefaultPageCountPerGroup ∧ pageRndUp size = n * allocUtilPageSize ∧
      pageByte2Cnt (pageRndUp size) = n := by
  simp only [kROSAllocHugeSize, kRosDefaultPageGroupValidSize, kRosDefaultPageGroupSize,
    kPageGroupOverHead, allocUtilPageSize] at few
  have sum : add64 size (allocUtilPageSize - 1) = size + 16383 := by
    rw [add64_eq] <;> simp only [allocUtilPageSize]
    omega
  refine ⟨(size + 16383) / allocUtilPageSize, ?_, ?_, ?_, ?_⟩
  · simp only [allocUtilPageSize]
    omega
  · simp only [kRosDefaultPageCountPerGroup, kRosDefaultPageGroupValidSize, kRosDefaultPageGroupSize,
      kPageGroupOverHead, allocUtilPageSize]
    omega
  · rw [pageRndUp, sum]
  · rw [pageRndUp, sum, pageByte2Cnt]
    exact Nat.mul_div_cancel _ (by decide)

/-- Pages were taken for an object of the kind, unless there are none. -/
theorem allocObjPages_spec (inv : s.Inv regions) (kind : RegionKind) {size : Nat} (some_ : 0 < size)
    (few : size ≤ kROSAllocHugeSize) (room : s.nonReleasedPageSize + kROSAllocHugeSize < 2 ^ 64)
    (triggered : Bool) (fits : s.AllocFits (pageByte2Cnt (pageRndUp size)) triggered) :
    ∃ result s', s.allocObjPages (setAsObjPage kind.head kind.rem) size triggered =
        some (result, s') ∧
      ((result = none ∧ s'.Inv regions) ∨
        ∃ a n, result = some (a, n) ∧ s'.Inv (⟨kind, ⟨a, n⟩⟩ :: regions)) := by
  have ⟨n, positive, bound, bytes, count⟩ := pageRndUp_spec some_ few
  have ⟨chunk, s', run, allocated⟩ := alloc_spec inv bound triggered (count ▸ fits)
  unfold allocObjPages allocPages
  dsimp only
  rw [bytes, run]
  rw [bytes] at count
  simp only [Option.map_some, Option.bind_eq_bind, Option.bind_some, count]
  rcases allocated with ⟨none_, inv', _⟩ | ⟨a, u, s0, some_, inv0, same, found, result⟩
  · rw [none_]
    exact ⟨none, s', rfl, .inl ⟨rfl, inv'⟩⟩
  · have ⟨c, s'', run', inv''⟩ := setAsObjPage_inv inv0 kind positive found (by rw [same]; exact room)
    rw [some_, result]
    dsimp only
    rw [run']
    exact ⟨_, _, rfl, .inr ⟨a, n, rfl, inv''⟩⟩

/-! Giving pages back. -/

theorem stop_lt_of_sub (few : groups.length ≤ kRosDefaultPageGroupNums) (some_ : 0 < n)
    (sub : Set.Ico a (a + n) ⊆ ordinaryPages groups) : a + n < 2 ^ 32 := by
  have fits := fits_of_sub some_ sub
  have ⟨g, slot, _⟩ := ordinaryPages_iff.mp (sub ⟨Nat.le_refl a, by omega⟩)
  have inside := (List.getElem?_eq_some_iff.mp slot).1
  have pages : kRosDefaultPageCountPerGroup = 29 := rfl
  rw [pages] at fits
  simp only [kRosDefaultPageGroupNums, groupIdxOf, idxInGroup] at *
  omega

theorem pageCnt2Byte_eq (few : n ≤ kRosDefaultPageCountPerGroup) :
    pageCnt2Byte n = allocUtilPageSize * n := by
  unfold pageCnt2Byte
  rw [Nat.mul_comm]
  refine Nat.mod_eq_of_lt ?_
  simp only [kRosDefaultPageCountPerGroup, kRosDefaultPageGroupValidSize, kRosDefaultPageGroupSize,
    kPageGroupOverHead, allocUtilPageSize] at few ⊢
  omega

def RegionSettles (s : Space) (r : Region) : Prop :=
  s.pageCTree.Settles r.pages.start r.pages.size

instance (s : Space) (r : Region) : Decidable (s.RegionSettles r) :=
  inferInstanceAs (Decidable (CartesianTree.Settles _ _ _))

section

variable (inv : s.Inv regions) (member : r ∈ regions)

include inv member

theorem freeRegion_inv (settles : s.RegionSettles r) :
    ∃ s', { s with pageMap := setLabels s.pageMap r.pages.start r.pages.size .free }.freeRegion
        r.pages.size r.pages.start = some s' ∧ s'.Inv (regions.erase r) := by
  have perm := List.perm_cons_erase member
  have permPages : (extents regions).Perm (r.pages :: extents (regions.erase r)) :=
    perm.map Region.pages
  obtain ⟨apart, regionsApart⟩ := apart_cons.mp (inv.regionsApart.perm permPages)
  have whole : covers (extents regions) = r.pages.points ∪ covers (extents (regions.erase r)) := by
    rw [covers_perm permPages, covers_cons]
  have size : totalSize (extents regions) =
      r.pages.size + totalSize (extents (regions.erase r)) := by
    rw [totalSize_perm permPages, totalSize_cons]
  have some_ := inv.sized r member
  have sub : r.pages.points ⊆ ordinaryPages s.groups :=
    (region_sub member).trans inv.regions_sub
  have fits := fits_of_sub some_ sub
  have small := stop_lt_of_sub inv.few some_ sub
  have treeApart : Disjoint s.pageCTree.pages r.pages.points :=
    Set.disjoint_of_subset_right (region_sub member) inv.apart
  obtain ⟨treeInv, exact_⟩ := CartesianTree.mergeInsert_step inv.tree small (fun _ => some_) settles
  obtain ⟨u, inserted, _, _, pages, total⟩ := exact_.resolve_left fun ⟨overlap, _⟩ => by
    rcases overlap with wrong | ⟨p, here, old⟩
    · omega
    · exact Set.disjoint_left.mp treeApart old here
  have bytes := pageCnt2Byte_eq (n := r.pages.size) (by omega)
  have before := inv.allocated
  have bounds := inv.bounds
  have enough : allocUtilPageSize * r.pages.size ≤ s.allocatedPageSize := by
    rw [before, size, Nat.mul_add]
    omega
  unfold freeRegion addPages
  dsimp only
  rw [inserted] at treeInv ⊢
  simp only [Option.bind_eq_bind, Option.bind_some]
  rw [bytes, subtracts_eq enough, sub64_eq enough (by omega)]
  have outside : ∀ p ∉ r.pages.points,
      setLabels s.pageMap r.pages.start r.pages.size .free p = s.pageMap p :=
    fun p => setLabels_outside
  refine ⟨_, rfl, ?_⟩
  exact {
    tree := treeInv
    slots := inv.slots
    shaped := inv.shaped
    few := inv.few
    sized := fun r' member' => inv.sized r' (List.mem_of_mem_erase member')
    regionsApart := regionsApart
    apart := by
      change Disjoint u.pages _
      have old := inv.apart
      rw [whole, Set.disjoint_union_right] at old
      rw [pages, Set.disjoint_union_left]
      exact ⟨old.2, apart⟩
    whole := by
      change u.pages ∪ _ = ordinaryPages s.groups
      have old := inv.whole
      rw [whole, ← Set.union_assoc] at old
      rw [pages]
      exact old
    total := by
      change u.total + _ = _
      have old := inv.total
      rw [size] at old
      rw [total, ← old]
      omega
    freeLabels := by
      intro p inside
      change p ∈ u.pages at inside
      rw [pages] at inside
      by_cases here : p ∈ r.pages.points
      · exact .inr (setLabels_inside here)
      · change setLabels _ _ _ _ p = _ ∨ setLabels _ _ _ _ p = _
        rw [outside p here]
        exact inv.freeLabels p (inside.resolve_right here)
    labelled := fun r' member' =>
      (inv.labelled r' (List.mem_of_mem_erase member')).congr
        (inv.sized r' (List.mem_of_mem_erase member')) fun p inside => outside p fun here =>
          Set.disjoint_left.mp apart here (region_sub member' inside)
    allocated := by
      dsimp only
      rw [before, size, Nat.mul_add]
      omega
    usedMem := inv.usedMem
    usedHeap := inv.usedHeap
    resident := by
      have same : PrimJs.resident (ordinaryPages s.groups)
          (setLabels s.pageMap r.pages.start r.pages.size .free) =
            PrimJs.resident (ordinaryPages s.groups) s.pageMap := by
        ext p
        rw [mem_resident, mem_resident]
        refine and_congr_right fun _ => ?_
        by_cases here : p ∈ r.pages.points
        · have label : setLabels s.pageMap r.pages.start r.pages.size .free p = .free :=
            setLabels_inside here
          rw [label]
          refine iff_of_true (by decide) ?_
          rcases (inv.labelled r member).all here with same | same <;> rw [same] <;>
            cases r.kind <;> decide
        · rw [outside p here]
      dsimp only
      rw [same]
      exact inv.resident
    nonReleased := inv.nonReleased
    usedHeapBound := inv.usedHeapBound
    heapLow := inv.heapLow
    heapHigh := inv.heapHigh
    growth := inv.growth
    unwrapped := inv.unwrapped }

theorem freeRun_spec (kind : r.kind = .run) (settles : s.RegionSettles r) :
    ∃ s', s.freeRun r.pages.start r.pages.size = some s' ∧ s'.Inv (regions.erase r) := by
  have labelled := inv.labelled r member
  rw [kind] at labelled
  have ⟨s', run, inv'⟩ := freeRegion_inv inv member settles
  unfold freeRun
  rw [clearRunPage_spec labelled]
  exact ⟨s', run, inv'⟩

/-- The page after a large object is not labelled as one of its own. -/
theorem after_large
    (inGroup : idxInGroup r.pages.start + r.pages.size < kRosDefaultPageCountPerGroup) :
    s.pageMap r.pages.stop ≠ .largeObjRem := by
  intro wrong
  have some_ := inv.sized r member
  have sub : r.pages.points ⊆ ordinaryPages s.groups :=
    (region_sub member).trans inv.regions_sub
  have held : r.pages.stop ∈ ordinaryPages s.groups := by
    have ⟨g, slot, kind, _⟩ := ordinaryPages_iff.mp
      (sub ⟨Nat.le_refl _, by unfold Interval.stop; omega⟩ : r.pages.start ∈ _)
    have pages : kRosDefaultPageCountPerGroup = 29 := rfl
    rw [pages] at inGroup
    refine ordinaryPages_iff.mpr ⟨g, ?_, kind, ?_⟩
    · rw [← slot]
      congr 1
      unfold groupIdxOf Interval.stop
      unfold idxInGroup at inGroup
      omega
    · rw [pages]
      unfold idxInGroup Interval.stop at *
      omega
  rw [← inv.whole] at held
  rcases held with free | ⟨x, inside, here⟩
  · rcases inv.freeLabels _ free with label | label <;> rw [label] at wrong <;> cases wrong
  · have ⟨r2, member2, same⟩ := List.mem_map.mp inside
    rw [← same] at here
    have labelled := inv.labelled r2 member2
    have later : r2.pages.start ≠ r.pages.stop := by
      intro first
      have label := labelled.1
      rw [first, wrong] at label
      cases kind : r2.kind <;> rw [kind] at label <;> cases label
    have ⟨low, high⟩ := here
    have other : r.pages ≠ r2.pages := by
      intro again
      rw [again] at high
      exact Nat.lt_irrefl _ high
    have apart : Disjoint r.pages.points r2.pages.points := inv.regionsApart.forall
      (List.mem_map_of_mem member) (List.mem_map_of_mem member2) other
    have last : r.pages.stop - 1 ∈ r.pages.points :=
      ⟨by unfold Interval.stop; omega, by unfold Interval.stop; omega⟩
    have within : r.pages.stop - 1 ∈ r2.pages.points := ⟨by omega, by omega⟩
    exact Set.disjoint_left.mp apart last within

theorem freeLargeObj_spec (kind : r.kind = .large) (settles : s.RegionSettles r) :
    ∃ s', s.freeLargeObj r.pages.start = some (r.pages.size, s') ∧ s'.Inv (regions.erase r) := by
  have labelled := inv.labelled r member
  rw [kind] at labelled
  have some_ := inv.sized r member
  have sub : r.pages.points ⊆ ordinaryPages s.groups :=
    (region_sub member).trans inv.regions_sub
  have fits := fits_of_sub some_ sub
  have ends : idxInGroup r.pages.start + r.pages.size = kRosDefaultPageCountPerGroup ∨
      s.pageMap r.pages.stop ≠ .largeObjRem := by
    rcases Nat.lt_or_eq_of_le fits with before | last
    · exact .inr (after_large inv member before)
    · exact .inl last
  have ⟨s', run, inv'⟩ := freeRegion_inv inv member settles
  unfold freeLargeObj
  rw [clearLargeObjPage_spec labelled some_ fits ends]
  simp only [Option.bind_eq_bind, Option.bind_some, run]
  exact ⟨s', rfl, inv'⟩

end

end Space

end PrimJs
