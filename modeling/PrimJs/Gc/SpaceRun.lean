import PrimJs.Foundation.OperationRun
import PrimJs.Gc.SpaceRelease

/-! Runs of the space's operations, and what is consistent all along. -/

namespace PrimJs.Space

variable {s : Space} {regions : List Region} {n : Nat}

/-! The initial space. -/

/-- The lowest bit of a number is also a bit of its complement. -/
theorem and_complement_pos {k w : Nat} (some_ : 0 < k) (few : k < 2 ^ w) :
    0 < k &&& (2 ^ w - k) := by
  refine Nat.pos_of_ne_zero fun none_ => ?_
  have apart : BitVec.ofNat (w + 1) k &&& BitVec.ofNat (w + 1) (2 ^ w - k) = 0#(w + 1) := by
    rw [← BitVec.ofNat_and, none_]
  have sum := BitVec.add_eq_or_of_and_eq_zero _ _ apart
  rw [← BitVec.ofNat_add, ← BitVec.ofNat_or, Nat.add_sub_cancel' (Nat.le_of_lt few)] at sum
  have value := congrArg BitVec.toNat sum
  have double : 2 ^ (w + 1) = 2 * 2 ^ w := by rw [Nat.pow_succ, Nat.mul_comm]
  have below := Nat.or_lt_two_pow few (show 2 ^ w - k < 2 ^ w by omega)
  rw [BitVec.toNat_ofNat, BitVec.toNat_ofNat, Nat.mod_eq_of_lt (by omega),
    Nat.mod_eq_of_lt (by omega)] at value
  omega

/-- With its arguments the other way round, the rounding gives the lowest bit of the group count. -/
theorem initialHeapSize {k : Nat} (some_ : 0 < k) (few : k ≤ kRosDefaultPageGroupNums) :
    kRosDefaultPageGroupSize ≤
        allocUtilRndUp kRosDefaultPageGroupSize (k * kRosDefaultPageGroupSize) ∧
      allocUtilRndUp kRosDefaultPageGroupSize (k * kRosDefaultPageGroupSize) ≤
        k * kRosDefaultPageGroupSize := by
  simp only [kRosDefaultPageGroupNums] at few
  have size : kRosDefaultPageGroupSize = 2 ^ 19 := rfl
  rw [size]
  have raised : sub64 (add64 (2 ^ 19) (k * 2 ^ 19)) 1 = k * 2 ^ 19 + (2 ^ 19 - 1) := by
    unfold sub64 add64
    omega
  have mask : sub64 0 (k * 2 ^ 19) = (2 ^ 45 - k) * 2 ^ 19 := by
    unfold sub64
    omega
  unfold allocUtilRndUp
  rw [raised, mask]
  generalize kept : (k * 2 ^ 19 + (2 ^ 19 - 1)) &&& ((2 ^ 45 - k) * 2 ^ 19) = result
  have first : (k * 2 ^ 19 + (2 ^ 19 - 1)) / 2 ^ 19 = k := by omega
  have second : (2 ^ 45 - k) * 2 ^ 19 / 2 ^ 19 = 2 ^ 45 - k := Nat.mul_div_cancel _ (by decide)
  have high : result / 2 ^ 19 = k &&& (2 ^ 45 - k) := by
    rw [← kept, Nat.and_div_two_pow, first, second]
  have low : result % 2 ^ 19 = 0 := by
    rw [← kept, Nat.and_mod_two_pow, Nat.mul_mod_left, Nat.and_zero]
  have positive := and_complement_pos (w := 45) some_ (by omega)
  have below : k &&& (2 ^ 45 - k) ≤ k := Nat.and_le_left
  omega

theorem newPageGroups_spec (n : Nat) :
    ∀ (s : Space) (heap mem : Nat), Inv { s with
        usedHeapSize := heap
        usedMemSize := mem } [] → heap + n * kRosDefaultPageGroupSize ≤ kMaxHeap →
      ∃ s', newPageGroups n s = some s' ∧ Inv { s' with
          usedHeapSize := heap + n * kRosDefaultPageGroupSize
          usedMemSize := mem + n * kRosDefaultPageGroupValidSize } [] ∧
        s'.usedHeapSize = s.usedHeapSize ∧ s'.usedMemSize = s.usedMemSize := by
  induction n with
  | zero =>
      intro s heap mem inv _
      refine ⟨s, rfl, ?_, rfl, rfl⟩
      rw [Nat.zero_mul, Nat.zero_mul]
      exact inv
  | succ n ih =>
      intro s heap mem inv room
      rw [Nat.succ_mul] at room
      have size : kROSAllocHugeSize < kRosDefaultPageGroupSize := by decide
      have current : s.currentIdx < kRosDefaultPageGroupNums :=
        inv.current_lt (by dsimp only; omega)
      have settles := groupSettles_of_unused inv current
      have ⟨s1, run, inv1, sameHeap, sameMem, _⟩ := newPageGroup_spec inv (by omega) settles
      have ⟨s2, run2, inv2, sameHeap2, sameMem2⟩ := ih s1 (heap + kRosDefaultPageGroupSize)
        (mem + kRosDefaultPageGroupValidSize) inv1 (by omega)
      refine ⟨s2, ?_, ?_, sameHeap2.trans sameHeap, sameMem2.trans sameMem⟩
      · rw [newPageGroups, run]
        exact run2
      · rw [Nat.add_right_comm heap, Nat.add_assoc heap, Nat.add_right_comm mem,
          Nat.add_assoc mem] at inv2
        rw [Nat.succ_mul, Nat.succ_mul]
        exact inv2

/-- The parameters of a space: a number of groups to start with, at most the heap can hold. -/
structure Params where
  groups : Nat
  heapGrowthLimit : Nat
  some_ : 0 < groups
  fit : groups * kRosDefaultPageGroupSize ≤ min heapGrowthLimit kMaxHeap

theorem groupCnt_eq {k : Nat} (few : k ≤ kRosDefaultPageGroupNums) :
    allocUtilRndUp (k * kRosDefaultPageGroupSize) kRosDefaultPageGroupSize /
      kRosDefaultPageGroupSize = k := by
  simp only [kRosDefaultPageGroupNums] at few
  have size : kRosDefaultPageGroupSize = 2 ^ 19 := rfl
  rw [size]
  have raised : sub64 (add64 (k * 2 ^ 19) (2 ^ 19)) 1 = k * 2 ^ 19 + (2 ^ 19 - 1) := by
    unfold sub64 add64
    omega
  have mask : sub64 0 (2 ^ 19) = (2 ^ 45 - 1) * 2 ^ 19 := by decide
  have first : (k * 2 ^ 19 + (2 ^ 19 - 1)) / 2 ^ 19 = k := by omega
  have second : (2 ^ 45 - 1) * 2 ^ 19 / 2 ^ 19 = 2 ^ 45 - 1 := by decide
  unfold allocUtilRndUp
  rw [raised, mask, Nat.and_div_two_pow, first, second, Nat.and_two_pow_sub_one_eq_mod]
  omega

theorem init_inv (params : Params) :
    ∃ s, init (params.groups * kRosDefaultPageGroupSize) params.heapGrowthLimit = some s ∧
      s.Inv [] := by
  have fit := params.fit
  have ⟨fitLimit, fitMax⟩ := Nat.le_min.mp fit
  have few : params.groups ≤ kRosDefaultPageGroupNums := Nat.le_of_mul_le_mul_right fitMax (by decide)
  have ⟨low, high⟩ := initialHeapSize params.some_ few
  unfold init
  dsimp only
  rw [groupCnt_eq few]
  generalize allocUtilRndUp _ _ = heapSize at low high
  have empty : Inv { heapSize := heapSize
                     heapGrowthLimit := min params.heapGrowthLimit kMaxHeap
                     allocatedPageLimit := 2 ^ 64 - 1
                     newGroupNeeded := false
                     allocatedPageSize := 0
                     nonReleasedPageSize := 0
                     usedMemSize := 0
                     usedHeapSize := 0
                     pageCTree := .null
                     groups := []
                     currentIdx := 0
                     pageMap := fun _ => .released
                     wrapped := false } [] := by
    have noPages : ordinaryPages [] = ∅ := by
      rw [Set.eq_empty_iff_forall_notMem]
      intro p inside
      have ⟨_, slot, _⟩ := ordinaryPages_iff.mp inside
      cases slot
    exact {
      tree := CartesianTree.inv_null
      slots := ⟨[], Chain.nil_iff.mpr rfl, fun i => by simp⟩
      shaped := nofun
      few := Nat.zero_le _
      sized := nofun
      regionsApart := List.Pairwise.nil
      apart := by
        change Disjoint (covers []) (covers [])
        rw [covers_nil]
        exact Set.empty_disjoint _
      whole := by
        change covers [] ∪ covers [] = _
        rw [covers_nil, Set.union_empty, noPages]
      total := rfl
      freeLabels := fun p ⟨_, member, _⟩ => (by cases member)
      labelled := nofun
      allocated := rfl
      usedMem := rfl
      usedHeap := rfl
      resident := by
        have none_ : PrimJs.resident (ordinaryPages []) (fun _ => PageLabel.released) = ∅ := by
          rw [Set.eq_empty_iff_forall_notMem]
          exact fun p inside => inside.2 rfl
        dsimp only
        rw [none_, Set.ncard_empty]
        exact Nat.zero_le _
      nonReleased := Nat.two_pow_pos 64
      usedHeapBound := Nat.zero_le _
      heapLow := low
      heapHigh := high.trans fit
      growth := Nat.min_le_right _ _
      unwrapped := rfl }
  have ⟨s', run, inv, sameHeap, sameMem⟩ := newPageGroups_spec params.groups
    { heapSize := heapSize
      heapGrowthLimit := min params.heapGrowthLimit kMaxHeap
      allocatedPageLimit := 2 ^ 64 - 1
      newGroupNeeded := false
      allocatedPageSize := 0
      nonReleasedPageSize := 0
      usedMemSize := params.groups * kRosDefaultPageGroupValidSize
      usedHeapSize := params.groups * kRosDefaultPageGroupSize
      pageCTree := .null
      groups := []
      currentIdx := 0
      pageMap := fun _ => .released
      wrapped := false } 0 0 empty (by omega)
  rw [Nat.zero_add, Nat.zero_add] at inv
  rw [run]
  refine ⟨s', rfl, ?_⟩
  dsimp only at sameHeap sameMem
  rw [← sameHeap, ← sameMem] at inv
  exact inv

theorem init_isSome (params : Params) :
    (init (params.groups * kRosDefaultPageGroupSize) params.heapGrowthLimit).isSome = true := by
  have ⟨s, run, _⟩ := init_inv params
  rw [run]
  rfl

end PrimJs.Space

namespace PrimJs

/-- The operations on the space; `triggered` tells that an allocation started the concurrent phases
instead of growing the space. -/
inductive SpaceOp where
  | allocRun (pageCount : Nat) (triggered : Bool)
  | allocLargeObject (allocSize : Nat) (triggered : Bool)
  | allocHugeObject (allocSize : Nat)
  | extend
  | freeRun (region : Region)
  | freeLargeObj (region : Region)
  | releaseHugeMem (groupIdx : Nat)
  | releaseFreeGroups
  | releaseFreePages (aggressive : Bool)
  | updateHeapSizeLimit (allocSize newHeapSize : Nat)
  | updateHeapSizeLimitForBusymode (allocSize : Nat)
  | setAllocatedPageLimit (limit : Nat)
  deriving DecidableEq, Repr

/-- The space, and the regions the allocator holds. -/
structure SpaceSystem where
  space : Space
  regions : List Region

namespace SpaceSystem

def taken (y : SpaceSystem) (kind : RegionKind) :
    Option (Nat × Nat) × Space → Unit × SpaceSystem
  | (none, s) => ((), ⟨s, y.regions⟩)
  | (some (idx, cnt), s) => ((), ⟨s, ⟨kind, ⟨idx, cnt⟩⟩ :: y.regions⟩)

def given (y : SpaceSystem) (region : Region) (s : Space) : Unit × SpaceSystem :=
  ((), ⟨s, y.regions.erase region⟩)

def kept (y : SpaceSystem) (s : Space) : Unit × SpaceSystem := ((), ⟨s, y.regions⟩)

/-- `none` where the code aborts or an assertion fails. -/
def apply (y : SpaceSystem) : SpaceOp → Option (Unit × SpaceSystem)
  | .allocRun pageCount triggered => (y.space.allocRun pageCount triggered).map (y.taken .run)
  | .allocLargeObject allocSize triggered =>
      (y.space.allocLargeObject allocSize triggered).map (y.taken .large)
  | .allocHugeObject allocSize => (y.space.allocHugeObject allocSize).map fun p => y.kept p.2
  | .extend => y.space.extend.map y.kept
  | .freeRun region => (y.space.freeRun region.pages.start region.pages.size).map (y.given region)
  | .freeLargeObj region =>
      (y.space.freeLargeObj region.pages.start).map fun p => y.given region p.2
  | .releaseHugeMem groupIdx => (y.space.releaseHugeMem groupIdx).map y.kept
  | .releaseFreeGroups => y.space.releaseFreeGroups.map fun p => y.kept p.2
  | .releaseFreePages aggressive => (y.space.releaseFreePages aggressive).map fun p => y.kept p.2
  | .updateHeapSizeLimit allocSize newHeapSize =>
      some (y.kept (y.space.updateHeapSizeLimit allocSize newHeapSize))
  | .updateHeapSizeLimitForBusymode allocSize =>
      some (y.kept (y.space.updateHeapSizeLimitForBusymode allocSize))
  | .setAllocatedPageLimit limit => some (y.kept { y.space with allocatedPageLimit := limit })

/-- What the callers promise: sizes are of the kind the operation is for, and what is given back was
taken and not given back before. -/
def Legal (y : SpaceSystem) : SpaceOp → Prop
  | .allocRun pageCount _ => 0 < pageCount ∧ pageCount ≤ kRosDefaultPageCountPerGroup
  | .allocLargeObject allocSize _ => 0 < allocSize ∧ allocSize ≤ kROSAllocHugeSize
  | .allocHugeObject allocSize => kROSAllocHugeSize < allocSize ∧ allocSize < 2 ^ 64
  | .freeRun region => region ∈ y.regions ∧ region.kind = .run
  | .freeLargeObj region => region ∈ y.regions ∧ region.kind = .large
  | .releaseHugeMem groupIdx => (y.space.groups[groupIdx]?.any fun g => g.huge) = true
  | _ => True

def PagesFit (y : SpaceSystem) (size : Nat) (triggered : Bool) : Prop :=
  y.space.nonReleasedPageSize + kROSAllocHugeSize < 2 ^ 64 ∧
    y.space.AllocFits (pageByte2Cnt (pageRndUp size)) triggered

def Fits (y : SpaceSystem) : SpaceOp → Prop
  | .allocRun pageCount triggered => y.PagesFit (pageCnt2Byte pageCount) triggered
  | .allocLargeObject allocSize triggered => y.PagesFit allocSize triggered
  | .allocHugeObject allocSize =>
      y.space.getHeapHeadroom < pageRndUp allocSize ∨
        y.space.exceedsAllocatedPageLimit (pageRndUp allocSize) = true ∨
          kROSAllocHugeSize < pageRndUp allocSize ∧ pageRndUp allocSize < 2 ^ 31
  | .extend => y.space.ExtendFits
  | .freeRun region | .freeLargeObj region => y.space.RegionSettles region
  | .releaseFreeGroups => y.space.GroupsFit
  | .releaseFreePages aggressive => y.space.PagesFit aggressive
  | _ => True

/-- The accounts of the space agree with each other and with the regions. -/
structure Consistent (y : SpaceSystem) : Prop where
  allocated : y.space.allocatedPageSize ≤ y.space.usedMemSize
  total : y.space.pageCTree.total + totalSize (extents y.regions) =
    kRosDefaultPageCountPerGroup * sumOf PageGroup.ordinaryCount y.space.groups
  pages : y.space.pageCTree.pages ∪ covers (extents y.regions) = ordinaryPages y.space.groups
  free : ∀ r ∈ y.regions, Disjoint y.space.pageCTree.pages r.pages.points
  regions : Apart (extents y.regions)
  heapLow : kRosDefaultPageGroupSize ≤ y.space.heapSize
  heapHigh : y.space.heapSize ≤ y.space.heapGrowthLimit
  unwrapped : y.space.wrapped = false

variable {y : SpaceSystem} {op : SpaceOp}

theorem consistent_of_inv (inv : y.space.Inv y.regions) : y.Consistent where
  allocated := inv.allocated_le
  total := inv.total
  pages := inv.whole
  free := fun _ member => Set.disjoint_of_subset_right (Space.region_sub member) inv.apart
  regions := inv.regionsApart
  heapLow := inv.heapLow
  heapHigh := inv.heapHigh
  unwrapped := inv.unwrapped

theorem pageCnt2Byte_pos {pageCount : Nat} (some_ : 0 < pageCount)
    (few : pageCount ≤ kRosDefaultPageCountPerGroup) :
    0 < pageCnt2Byte pageCount ∧ pageCnt2Byte pageCount ≤ kROSAllocHugeSize := by
  rw [Space.pageCnt2Byte_eq few]
  simp only [kROSAllocHugeSize, kRosDefaultPageCountPerGroup, kRosDefaultPageGroupValidSize,
    kRosDefaultPageGroupSize, kPageGroupOverHead, allocUtilPageSize] at few ⊢
  omega

/-- What an allocation of pages keeps, whatever the kind of the object. -/
theorem taken_inv (inv : y.space.Inv y.regions) (kind : RegionKind) {size : Nat} (some_ : 0 < size)
    (few : size ≤ kROSAllocHugeSize) (triggered : Bool) (fits : y.PagesFit size triggered) :
    ∃ result y', (y.space.allocObjPages (Space.setAsObjPage kind.head kind.rem) size triggered).map
        (y.taken kind) = some (result, y') ∧ y'.space.Inv y'.regions := by
  have ⟨result, s', run, outcome⟩ := Space.allocObjPages_spec inv kind some_ few fits.1 triggered fits.2
  rw [run, Option.map_some]
  rcases outcome with ⟨none_, inv'⟩ | ⟨a, n, some_, inv'⟩
  · rw [none_]
    exact ⟨_, _, rfl, inv'⟩
  · rw [some_]
    exact ⟨_, _, rfl, inv'⟩

/-- What each operation keeps. -/
theorem apply_inv (inv : y.space.Inv y.regions) (legal : y.Legal op) (fits : y.Fits op) :
    ∃ result y', y.apply op = some (result, y') ∧ y'.space.Inv y'.regions := by
  cases op with
  | allocRun pageCount triggered =>
      have ⟨some_, few⟩ := pageCnt2Byte_pos legal.1 legal.2
      exact taken_inv inv .run some_ few triggered fits
  | allocLargeObject allocSize triggered =>
      exact taken_inv inv .large legal.1 legal.2 triggered fits
  | allocHugeObject allocSize =>
      have ⟨result, s', run, inv'⟩ : ∃ result s',
          y.space.newHugeGroup (pageRndUp allocSize) = some (result, s') ∧ s'.Inv y.regions := by
        by_cases size : kROSAllocHugeSize < pageRndUp allocSize ∧ pageRndUp allocSize < 2 ^ 31
        · exact Space.newHugeGroup_spec inv size.1 size.2
        · unfold Space.newHugeGroup
          rw [if_pos]
          · exact ⟨_, _, rfl, inv⟩
          · rw [Bool.or_eq_true, decide_eq_true_eq]
            rcases fits with little | exceeds | wrong
            · exact .inl little
            · exact .inr exceeds
            · exact absurd wrong size
      rw [apply, Space.allocHugeObject, run]
      exact ⟨_, _, rfl, inv'⟩
  | extend =>
      have ⟨s', run, inv', _⟩ := Space.extend_spec inv fits
      rw [apply, run]
      exact ⟨_, _, rfl, inv'⟩
  | freeRun region =>
      have ⟨s', run, inv'⟩ := Space.freeRun_spec inv legal.1 legal.2 fits
      rw [apply, run]
      exact ⟨_, _, rfl, inv'⟩
  | freeLargeObj region =>
      have ⟨s', run, inv'⟩ := Space.freeLargeObj_spec inv legal.1 legal.2 fits
      rw [apply, run]
      exact ⟨_, _, rfl, inv'⟩
  | releaseHugeMem groupIdx =>
      have ⟨g, slot, kind⟩ := (Option.any_eq_true _ _).mp legal
      have ⟨s', run, inv'⟩ := Space.releaseHugeMem_spec inv slot kind
      rw [apply, run]
      exact ⟨_, _, rfl, inv'⟩
  | releaseFreeGroups =>
      have ⟨s', run, inv'⟩ := Space.releaseFreeGroups_spec inv fits
      rw [apply, run]
      exact ⟨_, _, rfl, inv'⟩
  | releaseFreePages aggressive =>
      have ⟨released, s', run, inv'⟩ := Space.releaseFreePages_spec inv fits
      rw [apply, run]
      exact ⟨_, _, rfl, inv'⟩
  | updateHeapSizeLimit allocSize newHeapSize =>
      exact ⟨_, _, rfl, Space.updateHeapSizeLimit_inv inv allocSize newHeapSize⟩
  | updateHeapSizeLimitForBusymode allocSize =>
      exact ⟨_, _, rfl, Space.updateHeapSizeLimitForBusymode_inv inv allocSize⟩
  | setAllocatedPageLimit limit => exact ⟨_, _, rfl, { inv with }⟩

instance decidableLegal (y : SpaceSystem) : ∀ op, Decidable (y.Legal op)
  | .allocRun .. | .allocLargeObject .. | .allocHugeObject .. | .freeRun .. | .freeLargeObj .. =>
      inferInstanceAs (Decidable (_ ∧ _))
  | .releaseHugeMem .. => inferInstanceAs (Decidable (_ = true))
  | .extend | .releaseFreeGroups | .releaseFreePages .. | .updateHeapSizeLimit ..
  | .updateHeapSizeLimitForBusymode .. | .setAllocatedPageLimit .. =>
      inferInstanceAs (Decidable True)

instance (y : SpaceSystem) (size : Nat) (triggered : Bool) : Decidable (y.PagesFit size triggered) :=
  inferInstanceAs (Decidable (_ ∧ _))

instance decidableFits (y : SpaceSystem) : ∀ op, Decidable (y.Fits op)
  | .allocRun pageCount triggered =>
      inferInstanceAs (Decidable (y.PagesFit (pageCnt2Byte pageCount) triggered))
  | .allocLargeObject allocSize triggered =>
      inferInstanceAs (Decidable (y.PagesFit allocSize triggered))
  | .allocHugeObject .. => inferInstanceAs (Decidable (_ ∨ _))
  | .releaseFreeGroups => inferInstanceAs (Decidable y.space.GroupsFit)
  | .releaseFreePages aggressive => inferInstanceAs (Decidable (y.space.PagesFit aggressive))
  | .extend => inferInstanceAs (Decidable y.space.ExtendFits)
  | .freeRun region | .freeLargeObj region =>
      inferInstanceAs (Decidable (y.space.RegionSettles region))
  | .releaseHugeMem .. | .updateHeapSizeLimit .. | .updateHeapSizeLimitForBusymode ..
  | .setAllocatedPageLimit .. =>
      inferInstanceAs (Decidable True)

/-- The space of the parameters, of which nothing is taken yet. -/
def start (params : Space.Params) : SpaceSystem where
  space := (Space.init (params.groups * kRosDefaultPageGroupSize) params.heapGrowthLimit).get
    (Space.init_isSome params)
  regions := []

theorem start_inv (params : Space.Params) : (start params).space.Inv (start params).regions := by
  have ⟨s, run, inv⟩ := Space.init_inv params
  have same : (start params).space = s := Option.get_of_eq_some _ run
  rw [same]
  exact inv

/-- Along a run whose operations fit, no operation fails and the accounts stay consistent. -/
theorem run_consistent (params : Space.Params) (ops : List SpaceOp)
    (along : OperationRun.Along apply (fun y op => y.Legal op ∧ y.Fits op) (start params) ops) :
    OperationRun.Runs apply Consistent (fun _ _ _ _ => True) (start params) ops :=
  OperationRun.runs_of_along (fun _ inv => consistent_of_inv inv)
    (fun y op (inv : y.space.Inv y.regions) (condition : y.Legal op ∧ y.Fits op) => by
      have ⟨result, y', run, inv'⟩ := apply_inv inv condition.1 condition.2
      exact ⟨result, y', run, inv', trivial⟩)
    ops (start params) (start_inv params) along

/-- A run through every operation. -/
theorem run_consistent_twoGroups : OperationRun.Runs apply Consistent (fun _ _ _ _ => True)
    (start ⟨2, 2 ^ 33, by decide, by decide⟩)
    [.updateHeapSizeLimit 0 (2 ^ 24), .extend, .allocRun 2 false, .allocLargeObject 40000 false,
      .freeRun ⟨.run, ⟨0, 2⟩⟩, .releaseFreePages true, .allocHugeObject 500000,
      .freeLargeObj ⟨.large, ⟨2, 3⟩⟩, .releaseHugeMem 3, .releaseFreePages false,
      .setAllocatedPageLimit (2 ^ 30), .releaseFreeGroups, .updateHeapSizeLimitForBusymode 100] :=
  run_consistent ⟨2, 2 ^ 33, by decide, by decide⟩ _ (by decide +kernel)

/-- A space that grew by groups of which nothing is taken. -/
structure Grown (y : SpaceSystem) (count : Nat) : Prop where
  inv : y.space.Inv []
  unused : y.regions = []
  used : y.space.usedHeapSize = count * kRosDefaultPageGroupSize
  ordinary : sumOf PageGroup.ordinaryCount y.space.groups = count
  settled : y.space.newGroupNeeded = false
  limit : y.space.heapGrowthLimit = 2 ^ 33

theorem grown_extend {count : Nat} (grown : y.Grown count)
    (room : (count + 1) * kRosDefaultPageGroupSize ≤ y.space.heapSize) :
    ∃ result y', y.apply .extend = some (result, y') ∧ y'.Grown (count + 1) ∧
      y'.space.heapSize = y.space.heapSize := by
  have used := grown.used
  rw [Nat.succ_mul] at room
  have headroom : y.space.getHeapHeadroom ≥ kRosDefaultPageGroupSize := by
    have size : 0 < kRosDefaultPageGroupSize := by decide
    unfold Space.getHeapHeadroom
    split <;> omega
  have current : y.space.currentIdx < kRosDefaultPageGroupNums := by
    have high := grown.inv.heapHigh
    have growth := grown.inv.growth
    have size : kROSAllocHugeSize < kRosDefaultPageGroupSize := by decide
    exact grown.inv.current_lt (by omega)
  have ⟨s', run, inv, used', sameHeap, _, sameNeeded, sameLimit, ordinary⟩ :=
    Space.extend_grows grown.inv headroom (Space.groupSettles_of_unused grown.inv current)
  rw [apply, run]
  refine ⟨_, _, rfl, ?_, sameHeap⟩
  exact {
    inv := inv
    unused := grown.unused
    used := by
      rw [Nat.succ_mul, ← used]
      exact used'
    ordinary := ordinary.trans (congrArg (· + 1) grown.ordinary)
    settled := sameNeeded.trans grown.settled
    limit := sameLimit.trans grown.limit }

/-- The extensions of a run that have room in the heap. -/
theorem runs_extend {good : SpaceSystem → Prop} {rest : List SpaceOp} (n : Nat) :
    ∀ (y : SpaceSystem) (count : Nat), y.Grown count →
      (count + n) * kRosDefaultPageGroupSize ≤ y.space.heapSize →
      OperationRun.Runs apply good (fun _ _ _ _ => True) y (List.replicate n .extend ++ rest) →
      ∃ y', y'.Grown (count + n) ∧ OperationRun.Runs apply good (fun _ _ _ _ => True) y' rest := by
  induction n with
  | zero => exact fun y count grown _ runs => ⟨y, grown, runs⟩
  | succ n ih =>
      intro y count grown room runs
      have first : (count + 1) * kRosDefaultPageGroupSize ≤ y.space.heapSize :=
        (Nat.mul_le_mul_right _ (by omega)).trans room
      have ⟨result, y', run, grown', same⟩ := grown_extend grown first
      rw [← same, Nat.add_comm n, ← Nat.add_assoc] at room
      have ⟨last, grownLast, later⟩ := ih y' (count + 1) grown' room (runs.tail run)
      rw [Nat.add_assoc, Nat.add_comm 1] at grownLast
      exact ⟨last, grownLast, later⟩

theorem grown_updateHeapSizeLimit {count : Nat} (grown : y.Grown count) (newHeapSize : Nat)
    (low : kRosDefaultPageGroupSize ≤ newHeapSize) (high : newHeapSize ≤ 2 ^ 33) :
    ∃ result y', y.apply (.updateHeapSizeLimit 0 newHeapSize) = some (result, y') ∧
      y'.Grown count ∧ y'.space.heapSize = newHeapSize := by
  have size : y.space.updateHeapSizeLimit 0 newHeapSize =
      { y.space with heapSize := newHeapSize } := by
    unfold Space.updateHeapSizeLimit Space.autoAdjustHeapSize
    dsimp only
    rw [if_neg (Nat.lt_irrefl 0)]
    dsimp only
    rw [grown.settled, if_neg Bool.false_ne_true]
    dsimp only
    rw [grown.limit, Nat.min_eq_right high, Nat.max_eq_left low]
  have inv := Space.updateHeapSizeLimit_inv grown.inv 0 newHeapSize
  rw [size] at inv
  rw [apply, size]
  exact ⟨_, _, rfl, ⟨inv, grown.unused, grown.used, grown.ordinary, grown.settled, grown.limit⟩, rfl⟩

def defaultParams : Space.Params := ⟨16, 8192 * 2 ^ 20, by decide, by decide⟩

theorem start_grown : (start defaultParams).Grown 16 where
  inv := start_inv defaultParams
  unused := rfl
  used := by decide +kernel
  ordinary := by decide +kernel
  settled := by decide +kernel
  limit := by decide +kernel

/-- 3000 groups are in use, of which a collection frees all; the new limit is the one of the policy,
half of 1 GB and of what is in use. -/
def shrinkingRun : List SpaceOp :=
  .updateHeapSizeLimit 0 (3000 * kRosDefaultPageGroupSize) :: (List.replicate 2984 .extend ++
    [.updateHeapSizeLimit 0 ((3000 * kRosDefaultPageGroupSize + 2 ^ 30) / 2), .releaseFreeGroups])

theorem releaseFreeGroups_wraps_heapSize :
    OperationRun.Along apply Legal (start defaultParams) shrinkingRun ∧
      ¬OperationRun.Runs apply Consistent (fun _ _ _ _ => True) (start defaultParams)
        shrinkingRun := by
  constructor
  · refine OperationRun.along_of_forall (fun op member s => ?_) (start defaultParams)
    rw [shrinkingRun, List.mem_cons, List.mem_append, List.mem_replicate] at member
    rcases member with here | ⟨_, here⟩ | here
    · rw [here]
      trivial
    · rw [here]
      trivial
    · rw [List.mem_cons, List.mem_singleton] at here
      rcases here with here | here <;> rw [here] <;> trivial
  · intro runs
    have ⟨_, y1, run1, grown1, size1⟩ := grown_updateHeapSizeLimit start_grown
      (3000 * kRosDefaultPageGroupSize) (by decide) (by decide)
    have ⟨y2, grown2, runs2⟩ := runs_extend 2984 y1 16 grown1 (Nat.le_of_eq size1.symm)
      (runs.tail run1)
    have ⟨_, y3, run3, grown3, size3⟩ := grown_updateHeapSizeLimit grown2
      ((3000 * kRosDefaultPageGroupSize + 2 ^ 30) / 2) (by decide) (by decide)
    have unfit : ¬y3.space.GroupsFit := by
      unfold Space.GroupsFit
      rw [Space.freeGroups_of_unused grown3.inv, grown3.ordinary, size3]
      decide
    have ⟨s4, run4, broken⟩ := Space.releaseFreeGroups_unfit grown3.inv unfit
    have applied : y3.apply .releaseFreeGroups = some (y3.kept s4) := by
      rw [apply, run4]
      rfl
    have last : Consistent (y3.kept s4).2 := (runs2.tail run3).tail applied
    rcases broken with low | wrapped
    · exact Nat.not_lt.mpr last.heapLow low
    · have unwrapped : s4.wrapped = false := last.unwrapped
      rw [wrapped] at unwrapped
      cases unwrapped

end SpaceSystem

end PrimJs
