import Mathlib.Algebra.Order.BigOperators.Group.List
import PrimJs.Foundation.Chain
import PrimJs.Foundation.IntervalCount
import PrimJs.Foundation.ListSum
import PrimJs.Gc.CartesianTreeRun
import PrimJs.Gc.Space

/-! What holds of a space between the operations of its allocator: the free slots of the page groups,
the labels of the pages and the counters. -/

namespace PrimJs

namespace PageGroup

def ordinary (g : PageGroup) : Bool := g.initialized && !g.isHuge

def huge (g : PageGroup) : Bool := g.initialized && g.isHuge

def live (g : PageGroup) : Nat := if g.initialized then 1 else 0

def ordinaryCount (g : PageGroup) : Nat := if g.ordinary then 1 else 0

def hugeCapacity (g : PageGroup) : Nat := if g.huge then g.maxCapacity else 0

def capacity (g : PageGroup) : Nat := if g.initialized then g.maxCapacity else 0

def mapped (g : PageGroup) : Nat := if g.initialized then g.memMappedSize else 0

/-- A group that is in use is of one of two kinds. -/
structure Shaped (g : PageGroup) : Prop where
  idle : g.initialized = false → g.isHuge = false
  normal : g.ordinary = true →
    g.maxCapacity = kRosDefaultPageGroupValidSize ∧ g.memMappedSize = kRosDefaultPageGroupSize
  large : g.huge = true → kROSAllocHugeSize < g.maxCapacity ∧
    g.memMappedSize = g.maxCapacity + kPageGroupOverHead * allocUtilPageSize

variable {g : PageGroup}

/-- The kind of a group decides what it counts for. -/
theorem cases_kind (g : PageGroup) :
    (g.initialized = false ∧ g.ordinary = false ∧ g.huge = false) ∨
      (g.initialized = true ∧ g.ordinary = true ∧ g.huge = false) ∨
        (g.initialized = true ∧ g.ordinary = false ∧ g.huge = true) := by
  unfold ordinary huge
  cases g.initialized <;> cases g.isHuge <;> simp

theorem Shaped.capacity_eq (shaped : g.Shaped) :
    g.capacity = g.hugeCapacity + kRosDefaultPageGroupValidSize * g.ordinaryCount := by
  unfold capacity hugeCapacity ordinaryCount
  rcases g.cases_kind with ⟨ready, normal, large⟩ | ⟨ready, normal, large⟩ | ⟨ready, normal, large⟩
  · simp [ready, normal, large]
  · simp [ready, normal, large, (shaped.normal normal).1]
  · simp [ready, normal, large]

theorem Shaped.live_le (shaped : g.Shaped) : kRosDefaultPageGroupSize * g.live ≤ g.mapped := by
  unfold live mapped
  rcases g.cases_kind with ⟨ready, normal, large⟩ | ⟨ready, normal, large⟩ | ⟨ready, normal, large⟩
  · simp [ready]
  · simp [ready, (shaped.normal normal).2]
  · have ⟨above, whole⟩ := shaped.large large
    simp only [ready, if_true, kROSAllocHugeSize, kRosDefaultPageGroupValidSize,
      kRosDefaultPageGroupSize, kPageGroupOverHead, allocUtilPageSize] at above whole ⊢
    omega

theorem Shaped.capacity_le (shaped : g.Shaped) : g.capacity ≤ g.mapped := by
  unfold capacity mapped
  rcases g.cases_kind with ⟨ready, normal, large⟩ | ⟨ready, normal, large⟩ | ⟨ready, normal, large⟩
  · simp [ready]
  · have ⟨size, whole⟩ := shaped.normal normal
    simp only [ready, if_true, size, whole]
    decide
  · have ⟨_, whole⟩ := shaped.large large
    simp only [ready, if_true, whole]
    omega

end PageGroup

/-! Slots of the page groups. -/

def sumOf (f : PageGroup → Nat) (groups : List PageGroup) : Nat := (groups.map f).sum

def nextFree (groups : List PageGroup) (i : Nat) : Option Nat :=
  groups[i]?.bind fun g => if g.initialized then none else some g.nextFreeIdx

/-- The slots that are not in use are threaded from the current one to the next to be constructed. -/
def Slots (groups : List PageGroup) (currentIdx : Nat) : Prop :=
  ∃ l, Chain groups.length (nextFree groups) currentIdx l ∧
    ∀ i, i ∈ l ↔ ∃ g, groups[i]? = some g ∧ g.initialized = false

variable {groups : List PageGroup} {g g' : PageGroup} {i p currentIdx : Nat} {f f' : PageGroup → Nat}

theorem sumOf_append : sumOf f (groups ++ [g]) = sumOf f groups + f g := by
  simp [sumOf]

theorem sumOf_set (g' : PageGroup) (slot : groups[i]? = some g) :
    sumOf f (groups.set i g') + f g = sumOf f groups + f g' := sum_map_set slot

theorem sumOf_le (pointwise : ∀ g ∈ groups, f g ≤ f' g) : sumOf f groups ≤ sumOf f' groups :=
  List.sum_le_sum pointwise

theorem sumOf_congr (pointwise : ∀ g ∈ groups, f g = f' g) : sumOf f groups = sumOf f' groups := by
  unfold sumOf
  rw [List.map_congr_left pointwise]

theorem sumOf_add_mul (c : Nat) :
    sumOf (fun g => f g + c * f' g) groups = sumOf f groups + c * sumOf f' groups := by
  induction groups with
  | nil => rfl
  | cons head rest ih =>
      simp only [sumOf, List.map_cons, List.sum_cons] at ih ⊢
      rw [ih, Nat.mul_add]
      omega

theorem nextFree_eq_some {j : Nat} : nextFree groups i = some j ↔
    ∃ g, groups[i]? = some g ∧ g.initialized = false ∧ g.nextFreeIdx = j := by
  unfold nextFree
  rw [Option.bind_eq_some_iff]
  refine exists_congr fun g => and_congr_right fun _ => ?_
  cases g.initialized <;> simp

theorem Slots.current_le (slots : Slots groups currentIdx) : currentIdx ≤ groups.length := by
  have ⟨l, chain, members⟩ := slots
  cases l with
  | nil => exact Nat.le_of_eq (Chain.nil_iff.mp chain)
  | cons first rest =>
      have ⟨same, _⟩ := Chain.cons_iff.mp chain
      have ⟨g, slot, _⟩ := (members first).mp List.mem_cons_self
      rw [same]
      exact Nat.le_of_lt (List.getElem?_eq_some_iff.mp slot).1

/-- Where the next slot is yet to be constructed, all others are in use. -/
theorem Slots.all_live (slots : Slots groups groups.length) :
    groups.length = sumOf PageGroup.live groups := by
  have ⟨l, chain, members⟩ := slots
  have none_ : l = [] := chain.unique .nil
  have all : ∀ g ∈ groups, g.live = 1 := by
    intro g member
    have ⟨i, slot⟩ := List.mem_iff_getElem?.mp member
    unfold PageGroup.live
    cases ready : g.initialized with
    | true => rfl
    | false =>
        have inside := (members i).mpr ⟨g, slot, ready⟩
        rw [none_] at inside
        cases inside
  rw [sumOf, List.map_congr_left all]
  simp

theorem Slots.construct (slots : Slots groups groups.length) (fresh : g.initialized = false)
    (next : g.nextFreeIdx = groups.length + 1) : Slots (groups ++ [g]) groups.length := by
  have ⟨l, chain, members⟩ := slots
  have none_ : l = [] := chain.unique .nil
  have slot : (groups ++ [g])[groups.length]? = some g := List.getElem?_concat_length
  refine ⟨[groups.length], ?_, fun i => ?_⟩
  · rw [List.length_append, List.length_singleton]
    exact .cons (Nat.ne_of_lt (Nat.lt_succ_self _))
      (nextFree_eq_some.mpr ⟨g, slot, fresh, next⟩) .nil
  · rw [List.mem_singleton]
    constructor
    · intro same
      rw [same]
      exact ⟨g, slot, fresh⟩
    · intro ⟨g', slot', free⟩
      by_cases inside : i < groups.length
      · rw [List.getElem?_append_left inside] at slot'
        have member := (members i).mpr ⟨g', slot', free⟩
        rw [none_] at member
        cases member
      · have bound := (List.getElem?_eq_some_iff.mp slot').1
        rw [List.length_append, List.length_singleton] at bound
        omega

theorem Slots.occupy (slots : Slots groups currentIdx) (slot : groups[currentIdx]? = some g)
    (ready : g'.initialized = true) :
    Slots (groups.set currentIdx g') g.nextFreeIdx := by
  have ⟨l, chain, members⟩ := slots
  have inside := (List.getElem?_eq_some_iff.mp slot).1
  cases l with
  | nil =>
      have same := Chain.nil_iff.mp chain
      omega
  | cons first rest =>
      have ⟨same, _, j, link, tail⟩ := Chain.cons_iff.mp chain
      subst same
      have ⟨g2, slot2, _, next⟩ := nextFree_eq_some.mp link
      rw [slot, Option.some.injEq] at slot2
      rw [slot2, next]
      have notRest := (List.nodup_cons.mp chain.nodup).1
      refine ⟨rest, ?_, fun i => ?_⟩
      · rw [List.length_set]
        refine tail.congr fun i member => ?_
        unfold nextFree
        rw [List.getElem?_set_ne fun same => notRest (by rw [same]; exact member)]
      · by_cases here : i = currentIdx
        · rw [here, List.getElem?_set_self inside]
          refine iff_of_false notRest fun ⟨g3, taken, wrong⟩ => ?_
          rw [← Option.some.inj taken, ready] at wrong
          cases wrong
        · rw [List.getElem?_set_ne fun same => here same.symm, ← members i, List.mem_cons]
          exact ⟨.inr, fun member => member.resolve_left here⟩

theorem Slots.release (slots : Slots groups currentIdx) (slot : groups[i]? = some g)
    (ready : g.initialized = true) (free : g'.initialized = false)
    (next : g'.nextFreeIdx = currentIdx) : Slots (groups.set i g') i := by
  have ⟨l, chain, members⟩ := slots
  have inside := (List.getElem?_eq_some_iff.mp slot).1
  have fresh : i ∉ l := by
    intro member
    have ⟨g2, slot2, wrong⟩ := (members i).mp member
    rw [slot, Option.some.injEq] at slot2
    rw [← slot2, ready] at wrong
    cases wrong
  refine ⟨i :: l, ?_, fun j => ?_⟩
  · rw [List.length_set]
    refine .cons (Nat.ne_of_lt inside)
      (nextFree_eq_some.mpr ⟨g', List.getElem?_set_self inside, free, next⟩)
      (chain.congr fun j member => ?_)
    unfold nextFree
    rw [List.getElem?_set_ne fun same => fresh (by rw [same]; exact member)]
  · rw [List.mem_cons]
    by_cases here : j = i
    · rw [here, List.getElem?_set_self inside]
      exact iff_of_true (.inl rfl) ⟨g', rfl, free⟩
    · rw [List.getElem?_set_ne fun same => here same.symm, ← members j]
      exact ⟨fun member => member.resolve_left here, .inr⟩

/-! Pages of the ordinary groups. -/

def groupPages (i : Nat) : Set Nat := Set.Ico (pageIdxOf i 0) (pageIdxOf i 0 + kRosDefaultPageCountPerGroup)

def ordinaryPages (groups : List PageGroup) : Set Nat :=
  {p | ∃ i g, groups[i]? = some g ∧ g.ordinary = true ∧ p ∈ groupPages i}

theorem mem_ordinaryPages : p ∈ ordinaryPages groups ↔
    ∃ i g, groups[i]? = some g ∧ g.ordinary = true ∧ p ∈ groupPages i := Iff.rfl

theorem mem_groupPages : p ∈ groupPages i ↔
    groupIdxOf p = i ∧ idxInGroup p < kRosDefaultPageCountPerGroup := by
  have pages : kRosDefaultPageCountPerGroup = 29 := rfl
  rw [groupPages, Set.mem_Ico, pages]
  unfold pageIdxOf groupIdxOf idxInGroup
  omega

theorem ordinaryPages_iff : p ∈ ordinaryPages groups ↔
    ∃ g, groups[groupIdxOf p]? = some g ∧ g.ordinary = true ∧
      idxInGroup p < kRosDefaultPageCountPerGroup := by
  rw [mem_ordinaryPages]
  constructor
  · intro ⟨i, g, slot, kind, inside⟩
    have ⟨same, small⟩ := mem_groupPages.mp inside
    rw [← same] at slot
    exact ⟨g, slot, kind, small⟩
  · intro ⟨g, slot, kind, small⟩
    exact ⟨groupIdxOf p, g, slot, kind, mem_groupPages.mpr ⟨rfl, small⟩⟩

theorem ordinaryPages_append (other : g.ordinary = false) :
    ordinaryPages (groups ++ [g]) = ordinaryPages groups := by
  ext p
  rw [ordinaryPages_iff, ordinaryPages_iff]
  constructor
  · intro ⟨g', slot, kind, small⟩
    by_cases inside : groupIdxOf p < groups.length
    · rw [List.getElem?_append_left inside] at slot
      exact ⟨g', slot, kind, small⟩
    · have bound := (List.getElem?_eq_some_iff.mp slot).1
      rw [List.length_append, List.length_singleton] at bound
      have last : groupIdxOf p = groups.length := by omega
      rw [last, List.getElem?_concat_length, Option.some.injEq] at slot
      rw [← slot, other] at kind
      cases kind
  · intro ⟨g', slot, kind, small⟩
    have inside := (List.getElem?_eq_some_iff.mp slot).1
    exact ⟨g', by rw [List.getElem?_append_left inside]; exact slot, kind, small⟩

theorem ordinaryPages_set_add (slot : groups[i]? = some g) (other : g.ordinary = false)
    (kind : g'.ordinary = true) :
    ordinaryPages (groups.set i g') = ordinaryPages groups ∪ groupPages i ∧
      Disjoint (ordinaryPages groups) (groupPages i) := by
  have inside := (List.getElem?_eq_some_iff.mp slot).1
  constructor
  · ext p
    rw [Set.mem_union, ordinaryPages_iff, ordinaryPages_iff, mem_groupPages]
    by_cases here : groupIdxOf p = i
    · rw [here, List.getElem?_set_self inside, slot]
      constructor
      · intro ⟨_, _, _, small⟩
        exact .inr ⟨rfl, small⟩
      · rintro (⟨g2, same, wrong, _⟩ | ⟨_, small⟩)
        · rw [← Option.some.inj same, other] at wrong
          cases wrong
        · exact ⟨g', rfl, kind, small⟩
    · rw [List.getElem?_set_ne fun same => here same.symm]
      exact ⟨.inl, fun either => either.resolve_right fun wrong => here wrong.1⟩
  · rw [Set.disjoint_left]
    intro p old new
    have ⟨g2, slot2, wrong, _⟩ := ordinaryPages_iff.mp old
    rw [(mem_groupPages.mp new).1, slot, Option.some.injEq] at slot2
    rw [← slot2, other] at wrong
    cases wrong

theorem ordinaryPages_set_remove (slot : groups[i]? = some g) (other : g'.ordinary = false) :
    ordinaryPages (groups.set i g') = ordinaryPages groups \ groupPages i := by
  have inside := (List.getElem?_eq_some_iff.mp slot).1
  ext p
  rw [Set.mem_sdiff, ordinaryPages_iff, ordinaryPages_iff, mem_groupPages]
  by_cases here : groupIdxOf p = i
  · rw [here, List.getElem?_set_self inside]
    constructor
    · intro ⟨g2, same, wrong, _⟩
      rw [← Option.some.inj same, other] at wrong
      cases wrong
    · intro ⟨⟨_, _, _, small⟩, outside⟩
      exact absurd ⟨rfl, small⟩ outside
  · rw [List.getElem?_set_ne fun same => here same.symm]
    exact ⟨fun old => ⟨old, fun wrong => here wrong.1⟩, fun old => old.1⟩

/-- Consecutive pages of ordinary groups are pages of one group. -/
theorem Ico_in_group {a n : Nat} (some_ : 0 < n) (inside : Set.Ico a (a + n) ⊆ ordinaryPages groups) :
    Set.Ico a (a + n) ⊆ groupPages (groupIdxOf a) := by
  have pages : kRosDefaultPageCountPerGroup = 29 := rfl
  have each : ∀ k < n, a + k ∈ groupPages (groupIdxOf a) := by
    intro k
    induction k with
    | zero =>
        intro _
        have ⟨_, _, _, small⟩ := ordinaryPages_iff.mp (inside ⟨Nat.le_refl a, by omega⟩)
        exact mem_groupPages.mpr ⟨rfl, small⟩
    | succ k ih =>
        intro below
        have ⟨same, small⟩ := mem_groupPages.mp (ih (by omega))
        have ⟨_, _, _, small'⟩ := ordinaryPages_iff.mp
          (inside ⟨by omega, by omega⟩ : a + (k + 1) ∈ ordinaryPages groups)
        refine mem_groupPages.mpr ⟨?_, small'⟩
        rw [pages] at small
        unfold groupIdxOf idxInGroup at *
        omega
  intro p ⟨low, high⟩
  have here := each (p - a) (by omega)
  rwa [Nat.add_sub_of_le low] at here

/-! Labels. -/

section Labels

variable {pageMap pageMap' : Nat → PageLabel} {label head rem : PageLabel} {held : Set Nat}
  {a n idx : Nat} {s : Space}

theorem setLabels_inside (inside : p ∈ Set.Ico a (a + n)) :
    Space.setLabels pageMap a n label p = label := if_pos inside

theorem setLabels_outside (outside : p ∉ Set.Ico a (a + n)) :
    Space.setLabels pageMap a n label p = pageMap p := if_neg outside

def resident (held : Set Nat) (pageMap : Nat → PageLabel) : Set Nat :=
  {p | p ∈ held ∧ pageMap p ≠ .released}

theorem mem_resident : p ∈ resident held pageMap ↔ p ∈ held ∧ pageMap p ≠ .released := Iff.rfl

theorem resident_finite (finite : held.Finite) : (resident held pageMap).Finite :=
  finite.subset fun _ inside => inside.1

section

variable (pageMap : Nat → PageLabel) (finite : held.Finite) (sub : Set.Ico a (a + n) ⊆ held)

include finite sub

theorem resident_mark (kept : label ≠ .released) :
    (resident held (Space.setLabels pageMap a n label)).ncard =
      (resident held pageMap).ncard + (List.range' a n).countP (Space.converted pageMap label) := by
  have test : ∀ p, Space.converted pageMap label p = true ↔ pageMap p = .released := by
    intro p
    simp [Space.converted, kept]
  rw [← ncard_filter_Ico, ← Set.ncard_union_eq ?_ (resident_finite finite)
    ((Set.finite_Ico a (a + n)).subset fun _ inside => inside.1)]
  · congr 1
    ext p
    rw [Set.mem_union, mem_resident, mem_resident, Set.mem_ofPred_eq, test]
    by_cases inside : p ∈ Set.Ico a (a + n)
    · rw [setLabels_inside inside]
      refine iff_of_true ⟨sub inside, kept⟩ ?_
      by_cases before : pageMap p = .released
      · exact .inr ⟨inside, before⟩
      · exact .inl ⟨sub inside, before⟩
    · rw [setLabels_outside inside]
      exact ⟨.inl, fun either => either.resolve_right fun wrong => inside wrong.1⟩
  · rw [Set.disjoint_left]
    intro p old new
    rw [Set.mem_ofPred_eq, test] at new
    exact old.2 new.2

theorem resident_release :
    (resident held (Space.setLabels pageMap a n .released)).ncard +
      (List.range' a n).countP (Space.converted pageMap .released) =
        (resident held pageMap).ncard := by
  have test : ∀ p, Space.converted pageMap .released p = true ↔ pageMap p ≠ .released := by
    intro p
    simp [Space.converted]
  rw [← ncard_filter_Ico, ← Set.ncard_union_eq ?_ (resident_finite finite)
    ((Set.finite_Ico a (a + n)).subset fun _ inside => inside.1)]
  · congr 1
    ext p
    rw [Set.mem_union, mem_resident, mem_resident, Set.mem_ofPred_eq, test]
    by_cases inside : p ∈ Set.Ico a (a + n)
    · rw [setLabels_inside inside]
      exact ⟨fun either => ⟨sub inside, (either.resolve_left fun wrong => wrong.2 rfl).2⟩,
        fun old => .inr ⟨inside, old.2⟩⟩
    · rw [setLabels_outside inside]
      exact ⟨fun either => either.resolve_right fun wrong => inside wrong.1, .inl⟩
  · rw [Set.disjoint_left]
    intro p old new
    rw [mem_resident, setLabels_inside new.1] at old
    exact old.2 rfl

end

def Labelled (pageMap : Nat → PageLabel) (head rem : PageLabel) (x : Interval) : Prop :=
  pageMap x.start = head ∧ ∀ p, x.start < p → p < x.stop → pageMap p = rem

variable {x : Interval}

theorem Labelled.congr (labelled : Labelled pageMap head rem x) (some_ : 0 < x.size)
    (same : ∀ p ∈ x.points, pageMap' p = pageMap p) : Labelled pageMap' head rem x := by
  refine ⟨?_, fun p low high => ?_⟩
  · rw [same x.start ⟨Nat.le_refl _, by unfold Interval.stop; omega⟩]
    exact labelled.1
  · rw [same p ⟨Nat.le_of_lt low, high⟩]
    exact labelled.2 p low high

theorem Labelled.all (labelled : Labelled pageMap head rem x) (inside : p ∈ x.points) :
    pageMap p = head ∨ pageMap p = rem := by
  have ⟨low, high⟩ := inside
  by_cases first : p = x.start
  · rw [first]
    exact .inl labelled.1
  · exact .inr (labelled.2 p (by omega) high)

section

variable (some_ : 0 < n) (fits : idxInGroup idx + n ≤ kRosDefaultPageCountPerGroup)

include some_ fits

theorem setRangeAndCount_mark (kept : label ≠ .released) :
    s.setRangeAndCount idx n label =
      some ((List.range' idx n).countP (Space.converted s.pageMap label),
        { s with pageMap := Space.setLabels s.pageMap idx n label }) := by
  unfold Space.setRangeAndCount
  dsimp only
  rw [if_neg (by omega), if_neg fun wrong => kept wrong.1]

theorem setRangeAndCount_release
    (free : ∀ p ∈ Set.Ico idx (idx + n), s.pageMap p = .released ∨ s.pageMap p = .free) :
    s.setRangeAndCount idx n .released =
      some ((List.range' idx n).countP (Space.converted s.pageMap .released),
        { s with pageMap := Space.setLabels s.pageMap idx n .released }) := by
  unfold Space.setRangeAndCount
  dsimp only
  have none_ : (List.range' idx n).any
      (fun p => s.pageMap p ≠ .released ∧ s.pageMap p ≠ .free) = false := by
    rw [List.any_eq_false]
    intro p member
    rw [List.mem_range'_1] at member
    rcases free p member with same | same <;> simp [same]
  rw [if_neg (by omega), if_neg fun wrong => by rw [none_] at wrong; cases wrong.2]

end

theorem setAsObjPage_spec (finite : held.Finite) (some_ : 0 < n)
    (sub : Set.Ico idx (idx + n) ⊆ held)
    (fits : idxInGroup idx + n ≤ kRosDefaultPageCountPerGroup)
    (free : s.pageMap idx = .released ∨ s.pageMap idx = .free) (keptHead : head ≠ .released)
    (keptRem : rem ≠ .released) :
    ∃ c pageMap', Space.setAsObjPage head rem s idx n = some (c, { s with pageMap := pageMap' }) ∧
      c ≤ n ∧ Labelled pageMap' head rem ⟨idx, n⟩ ∧
      (∀ p, p ∉ Set.Ico idx (idx + n) → pageMap' p = s.pageMap p) ∧
      (resident held pageMap').ncard = (resident held s.pageMap).ncard + c := by
  have first : Set.Ico idx (idx + 1) ⊆ Set.Ico idx (idx + n) := Set.Ico_subset_Ico_right (by omega)
  have marked := resident_mark s.pageMap finite (first.trans sub) keptHead
  have one : (List.range' idx 1).countP (Space.converted s.pageMap head) =
      if s.pageMap idx = .released then 1 else 0 := by
    rw [List.range'_one, List.countP_singleton]
    simp [Space.converted, keptHead]
  rw [one] at marked
  have allowed : ¬ (s.pageMap idx ≠ .free ∧ s.pageMap idx ≠ .released) := by
    intro ⟨notFree, notReleased⟩
    exact free.elim notReleased notFree
  unfold Space.setAsObjPage
  rw [if_neg allowed]
  dsimp only
  by_cases more : n > 1
  · have inGroup : idxInGroup (idx + 1) + (n - 1) ≤ kRosDefaultPageCountPerGroup := by
      have pages : kRosDefaultPageCountPerGroup = 29 := rfl
      rw [pages] at fits ⊢
      unfold idxInGroup at *
      omega
    have later : Set.Ico (idx + 1) (idx + 1 + (n - 1)) ⊆ Set.Ico idx (idx + n) :=
      Set.Ico_subset_Ico (by omega) (by omega)
    have marked' := resident_mark (Space.setLabels s.pageMap idx 1 head) finite
      (later.trans sub) keptRem
    rw [if_pos more, setRangeAndCount_mark (by omega) inGroup keptRem]
    have atMost := List.countP_le_length (l := List.range' (idx + 1) (n - 1))
      (p := Space.converted (Space.setLabels s.pageMap idx 1 head) rem)
    rw [List.length_range'] at atMost
    refine ⟨_, _, rfl, ?_, ⟨?_, fun p low high => ?_⟩, fun p outside => ?_, ?_⟩
    · dsimp only
      split <;> omega
    · have before : idx ∉ Set.Ico (idx + 1) (idx + 1 + (n - 1)) := fun wrong => by
        have low := wrong.1
        omega
      rw [setLabels_outside before]
      exact setLabels_inside ⟨Nat.le_refl _, Nat.lt_succ_self _⟩
    · change p < idx + n at high
      exact setLabels_inside ⟨low, by omega⟩
    · rw [setLabels_outside fun wrong => outside (later wrong)]
      exact setLabels_outside fun wrong => outside (first wrong)
    · dsimp only
      rw [marked', marked]
      omega
  · have single : n = 1 := by omega
    subst single
    rw [if_neg more]
    refine ⟨_, _, rfl, ?_, ⟨?_, fun p low high => ?_⟩, fun p outside => ?_, marked⟩
    · split <;> omega
    · exact setLabels_inside ⟨Nat.le_refl _, Nat.lt_succ_self _⟩
    · change p < idx + 1 at high
      change idx < p at low
      omega
    · exact setLabels_outside outside

theorem clearRunPage_spec (labelled : Labelled s.pageMap .run .runRem x) :
    s.clearRunPage x.start x.size =
      some { s with pageMap := Space.setLabels s.pageMap x.start x.size .free } := by
  unfold Space.clearRunPage
  have all : (List.range' x.start x.size).all
      (fun p => s.pageMap p = .run ∨ s.pageMap p = .runRem) = true := by
    rw [List.all_eq_true]
    intro p member
    rw [List.mem_range'_1] at member
    exact decide_eq_true (labelled.all member)
  rw [if_pos all]

theorem largeObjRemCount_spec {left : Nat} (rest : ∀ k < n, pageMap (p + k) = .largeObjRem)
    (stops : n = left ∨ n < left ∧ pageMap (p + n) ≠ .largeObjRem) :
    Space.largeObjRemCount pageMap left p = n := by
  induction left generalizing p n with
  | zero =>
      rw [Space.largeObjRemCount]
      omega
  | succ left ih =>
      rw [Space.largeObjRemCount]
      cases n with
      | zero =>
          have other := stops.resolve_left (by omega)
          exact if_neg other.2
      | succ n =>
          have first : pageMap p = .largeObjRem := rest 0 (by omega)
          have shift : ∀ k, p + 1 + k = p + (k + 1) := fun k => by omega
          have later : Space.largeObjRemCount pageMap left (p + 1) = n := by
            refine ih (fun k small => ?_) ?_
            · rw [shift]
              exact rest (k + 1) (by omega)
            · rw [shift]
              exact stops.imp (fun same => by omega) fun ⟨fewer, other⟩ => ⟨by omega, other⟩
          rw [if_pos first, later]

/-- The labels of a large object tell its pages. -/
theorem largeObjCount_spec (labelled : Labelled pageMap .largeObj .largeObjRem x)
    (some_ : 0 < x.size) (fits : idxInGroup x.start + x.size ≤ kRosDefaultPageCountPerGroup)
    (ends : idxInGroup x.start + x.size = kRosDefaultPageCountPerGroup ∨
      pageMap x.stop ≠ .largeObjRem) :
    Space.largeObjRemCount pageMap (kRosDefaultPageCountPerGroup - (idxInGroup x.start + 1))
      (x.start + 1) + 1 = x.size := by
  have stop : x.start + 1 + (x.size - 1) = x.stop := by
    unfold Interval.stop
    omega
  have rest : Space.largeObjRemCount pageMap
      (kRosDefaultPageCountPerGroup - (idxInGroup x.start + 1)) (x.start + 1) = x.size - 1 := by
    refine largeObjRemCount_spec (fun k small => ?_) ?_
    · exact labelled.2 _ (by omega) (by omega)
    · rw [stop]
      by_cases last : idxInGroup x.start + x.size = kRosDefaultPageCountPerGroup
      · exact .inl (by omega)
      · exact .inr ⟨by omega, ends.resolve_left last⟩
  rw [rest, Nat.sub_add_cancel some_]

theorem clearLargeObjPage_spec (labelled : Labelled s.pageMap .largeObj .largeObjRem x)
    (some_ : 0 < x.size) (fits : idxInGroup x.start + x.size ≤ kRosDefaultPageCountPerGroup)
    (ends : idxInGroup x.start + x.size = kRosDefaultPageCountPerGroup ∨
      s.pageMap x.stop ≠ .largeObjRem) :
    s.clearLargeObjPageAndCount x.start =
      some (x.size, { s with pageMap := Space.setLabels s.pageMap x.start x.size .free }) := by
  have count := largeObjCount_spec labelled some_ fits ends
  unfold Space.clearLargeObjPageAndCount
  rw [if_pos labelled.1]
  dsimp only
  rw [count]

end Labels

end PrimJs
