import PrimJs.Foundation.OperationRun
import PrimJs.Gc.PageMap
import PrimJs.Gc.SpaceSpec

/-! Runs of the allocator's updates of a page map, and what its labels tell all along. -/

namespace PrimJs

namespace PageMap

variable {map : Nat → PageLabel} {label head rem : PageLabel} {m : PageMap} {i left count p : Nat}

/-! The loops. -/

theorem setLabels_zero : Space.setLabels map i 0 label = map := by
  funext p
  exact setLabels_outside fun inside => by
    have ⟨low, high⟩ := inside
    omega

/-- A page that is set first, and the others after it. -/
theorem setLabels_setType :
    Space.setLabels (setType map i label) (i + 1) left label =
      Space.setLabels map i (left + 1) label := by
  funext p
  by_cases first : p = i
  · rw [first, setLabels_outside (by simp), setLabels_inside ⟨Nat.le_refl _, by omega⟩]
    exact Function.update_self ..
  · by_cases inside : p ∈ Set.Ico (i + 1) (i + 1 + left)
    · have ⟨low, high⟩ := inside
      rw [setLabels_inside inside, setLabels_inside ⟨by omega, by omega⟩]
    · rw [setLabels_outside inside, setLabels_outside]
      · exact Function.update_of_ne first _ _
      · intro ⟨low, high⟩
        exact inside ⟨by omega, by omega⟩

theorem setType_eq_setLabels : setType map i label = Space.setLabels map i 1 label := by
  rw [← setLabels_setType, setLabels_zero]

theorem setRangeLoop_spec (left : Nat) : ∀ (i : Nat) (map : Nat → PageLabel) (count : Nat),
    (label = .released → ∀ p ∈ Set.Ico i (i + left), map p = .released ∨ map p = .free) →
      setRangeLoop label left i map count =
        some (count + (List.range' i left).countP (Space.converted map label),
          Space.setLabels map i left label) := by
  induction left with
  | zero =>
      intro i map count _
      rw [setLabels_zero]
      rfl
  | succ left ih =>
      intro i map count allowed
      have others : (List.range' (i + 1) left).countP (Space.converted (setType map i label) label) =
          (List.range' (i + 1) left).countP (Space.converted map label) := by
        refine List.countP_congr fun p member => ?_
        have ⟨low, _⟩ := List.mem_range'_1.mp member
        unfold Space.converted setType
        rw [Function.update_of_ne (by omega)]
      have later : ∀ count, setRangeLoop label left (i + 1) (setType map i label) count =
          some (count + (List.range' (i + 1) left).countP (Space.converted map label),
            Space.setLabels map i (left + 1) label) := by
        intro count
        rw [ih, others, setLabels_setType]
        intro release p ⟨low, high⟩
        unfold setType
        rw [Function.update_of_ne (by omega)]
        exact allowed release p ⟨by omega, by omega⟩
      have first : (List.range' i (left + 1)).countP (Space.converted map label) =
          (List.range' (i + 1) left).countP (Space.converted map label) +
            if Space.converted map label i then 1 else 0 := by
        rw [List.range'_succ, List.countP_cons]
      rw [setRangeLoop]
      simp only [later]
      unfold Space.converted at first ⊢
      by_cases release : label = .released
      · have here := allowed release i ⟨Nat.le_refl _, by omega⟩
        rcases here with same | free
        · simp_all
        · simp_all
          omega
      · by_cases old : map i = .released
        · simp_all
          omega
        · simp_all

theorem clearRunLoop_spec (left : Nat) : ∀ (i : Nat) (map : Nat → PageLabel),
    (∀ p ∈ Set.Ico i (i + left), map p = .run ∨ map p = .runRem) →
      clearRunLoop label left i map = some (Space.setLabels map i left label) := by
  induction left with
  | zero =>
      intro i map _
      rw [setLabels_zero]
      rfl
  | succ left ih =>
      intro i map runs
      rw [clearRunLoop, if_pos (runs i ⟨Nat.le_refl _, by omega⟩), ih, setLabels_setType]
      intro p ⟨low, high⟩
      unfold setType
      rw [Function.update_of_ne (by omega)]
      exact runs p ⟨by omega, by omega⟩

theorem remCount_congr {map' : Nat → PageLabel} (left : Nat) : ∀ i : Nat,
    (∀ p, i ≤ p → map' p = map p) → remCount map' rem left i = remCount map rem left i := by
  induction left with
  | zero => exact fun i _ => rfl
  | succ left ih =>
      intro i same
      rw [remCount, remCount, same i (Nat.le_refl _), ih (i + 1) fun p low => same p (by omega)]

/-- The pages a large object is cleared of are those that are counted. -/
theorem clearLargeLoop_eq (left : Nat) : ∀ (i : Nat) (map : Nat → PageLabel) (cnt : Nat),
    clearLargeLoop label left i map cnt = (cnt + remCount map .largeObjRem left i,
      Space.setLabels map i (remCount map .largeObjRem left i) label) := by
  induction left with
  | zero =>
      intro i map cnt
      rw [remCount, setLabels_zero]
      rfl
  | succ left ih =>
      intro i map cnt
      have same : remCount (setType map i label) .largeObjRem left (i + 1) =
          remCount map .largeObjRem left (i + 1) :=
        remCount_congr left (i + 1) fun p low => Function.update_of_ne (by omega) _ _
      rw [clearLargeLoop, remCount]
      by_cases other : map i ≠ .largeObjRem
      · rw [if_pos other, if_pos other, setLabels_zero]
        rfl
      · rw [if_neg other, if_neg other, ih, same, setLabels_setType]
        exact congrArg (Prod.mk · _) (by omega)

theorem remCount_spec (left : Nat) : ∀ (i n : Nat), (∀ k < n, map (i + k) = rem) →
    n = left ∨ n < left ∧ map (i + n) ≠ rem → remCount map rem left i = n := by
  induction left with
  | zero =>
      intro i n _ stops
      rw [remCount]
      omega
  | succ left ih =>
      intro i n rest stops
      rw [remCount]
      cases n with
      | zero =>
          have other := stops.resolve_left (by omega)
          exact if_pos other.2
      | succ n =>
          have first : map i = rem := rest 0 (by omega)
          have shift : ∀ k, i + 1 + k = i + (k + 1) := fun k => by omega
          rw [if_neg (not_not.mpr first), ih (i + 1) n]
          · intro k small
            rw [shift]
            exact rest (k + 1) (by omega)
          · rw [shift]
            exact stops.imp (fun same => by omega) fun ⟨fewer, other⟩ => ⟨by omega, other⟩

/-- The search ends at the first page of the object. -/
theorem startIndex_spec {x : Interval} (labelled : Labelled map head rem x) (other : rem ≠ head)
    (inside : p ∈ x.points) : startIndex map head p = x.start := by
  induction p with
  | zero =>
      have ⟨low, _⟩ := inside
      rw [startIndex]
      omega
  | succ p ih =>
      have ⟨low, high⟩ := inside
      rw [startIndex]
      by_cases first : x.start = p + 1
      · rw [if_pos (first ▸ labelled.1), first]
      · have label := labelled.2 (p + 1) (by omega) high
        rw [if_neg (by rw [label]; exact other)]
        exact ih ⟨by omega, by omega⟩

/-! The functions. -/

/-- The map of `n` pages, fewer than an index can tell apart. -/
structure Shaped (m : PageMap) : Prop where
  ends : m.spaceEndAddr = m.spaceBeginAddr + m.pageMapSize * allocUtilPageSize
  max : m.maxMapSize = m.pageMapSize
  small : m.pageMapSize < 2 ^ 18

variable {idx n : Nat}

theorem getPageAddr_eq (small : idx < 2 ^ 18) :
    m.getPageAddr idx = m.spaceBeginAddr + idx * allocUtilPageSize := by
  rw [getPageAddr, idxInGroup, Nat.mod_eq_of_lt small]

theorem getPageIndex_of_inside {x : Interval} {addr : Nat}
    (low : m.spaceBeginAddr + x.start * allocUtilPageSize ≤ addr)
    (high : addr < m.spaceBeginAddr + x.stop * allocUtilPageSize) :
    m.getPageIndex addr ∈ x.points := by
  unfold getPageIndex
  refine ⟨(Nat.le_div_iff_mul_le (by decide)).mpr (by omega), ?_⟩
  exact (Nat.div_lt_iff_lt_mul (by decide)).mpr (by omega)

theorem getPageIndex_getPageAddr (small : idx < 2 ^ 18) : m.getPageIndex (m.getPageAddr idx) = idx := by
  have size : 0 < allocUtilPageSize := by decide
  rw [getPageAddr_eq small, getPageIndex, Nat.add_sub_cancel_left, Nat.mul_div_cancel _ size]

theorem Shaped.contains {addr : Nat} (shaped : m.Shaped) {x : Interval} (fits : x.stop ≤ m.pageMapSize)
    (low : m.spaceBeginAddr + x.start * allocUtilPageSize ≤ addr)
    (high : addr < m.spaceBeginAddr + x.stop * allocUtilPageSize) : m.containsAddr addr = true := by
  have most := Nat.mul_le_mul_right allocUtilPageSize fits
  have ends := shaped.ends
  rw [containsAddr, decide_eq_true (by omega), decide_eq_true (by omega)]
  rfl

theorem Shaped.contains_page (shaped : m.Shaped) (inside : idx < m.pageMapSize) :
    m.containsAddr (m.getPageAddr idx) = true := by
  have size : 0 < allocUtilPageSize := by decide
  rw [getPageAddr_eq (inside.trans shaped.small)]
  refine shaped.contains (x := ⟨idx, 1⟩) (by unfold Interval.stop; dsimp only; omega)
    (Nat.le_refl _) ?_
  unfold Interval.stop
  dsimp only
  rw [Nat.add_mul, Nat.one_mul]
  omega

theorem setRangeAndCount_spec (shaped : m.Shaped) (some_ : 0 < n) (fits : idx + n ≤ m.pageMapSize)
    (allowed : label = .released →
      ∀ p ∈ Set.Ico idx (idx + n), m.map p = .released ∨ m.map p = .free) :
    m.setRangeAndCount idx (idx + n) label =
      some ((List.range' idx n).countP (Space.converted m.map label), m.setRange idx n label) := by
  have small := shaped.small
  have max := shaped.max
  have first : idxInGroup idx = idx := Nat.mod_eq_of_lt (by omega)
  have last : idxInGroup (idx + n) = idx + n := Nat.mod_eq_of_lt (by omega)
  unfold setRangeAndCount
  dsimp only
  rw [first, last, if_pos ⟨by omega, by omega⟩, Nat.add_sub_cancel_left,
    setRangeLoop_spec n idx m.map 0 allowed, Nat.zero_add]
  rfl

/-- How many pages of the map have another label than `released`, and how many have this one. -/
def nonReleasedPages (m : PageMap) : Nat :=
  (List.range' 0 m.pageMapSize).countP fun p => m.map p ≠ .released

def releasedPages (m : PageMap) : Nat :=
  (List.range' 0 m.pageMapSize).countP fun p => m.map p = .released

theorem releasedPages_add (m : PageMap) :
    m.releasedPages + m.nonReleasedPages = m.pageMapSize := by
  have all := List.length_eq_countP_add_countP (fun p => decide (m.map p = .released))
    (l := List.range' 0 m.pageMapSize)
  rw [List.length_range'] at all
  unfold releasedPages nonReleasedPages
  simpa using all.symm

/-- The same with sets. -/
theorem ncard_resident (m : PageMap) (map : Nat → PageLabel) :
    (resident (Set.Ico 0 (0 + m.pageMapSize)) map).ncard =
      nonReleasedPages { m with map := map } := by
  unfold nonReleasedPages
  dsimp only
  rw [← ncard_filter_Ico]
  congr 1
  ext p
  rw [mem_resident, Set.mem_ofPred_eq, decide_eq_true_eq]

section

variable (fits : idx + n ≤ m.pageMapSize)

include fits

theorem Ico_sub : Set.Ico idx (idx + n) ⊆ Set.Ico 0 (0 + m.pageMapSize) :=
  fun _ ⟨_, high⟩ => ⟨Nat.zero_le _, by omega⟩

theorem nonReleased_mark (kept : label ≠ .released) :
    (m.setRange idx n label).nonReleasedPages =
      m.nonReleasedPages + (List.range' idx n).countP (Space.converted m.map label) := by
  have marked := resident_mark m.map (Set.finite_Ico _ _) (Ico_sub fits) kept
  rwa [ncard_resident, ncard_resident] at marked

theorem nonReleased_release :
    (m.setRange idx n .released).nonReleasedPages +
      (List.range' idx n).countP (Space.converted m.map .released) = m.nonReleasedPages := by
  have released := resident_release m.map (Set.finite_Ico _ _) (Ico_sub fits)
  rwa [ncard_resident, ncard_resident] at released

end

theorem setAsObjPage_spec (shaped : m.Shaped) (some_ : 0 < n) (fits : idx + n ≤ m.pageMapSize)
    (free : ∀ p ∈ Set.Ico idx (idx + n), m.map p = .released ∨ m.map p = .free)
    (keptHead : head ≠ .released) (keptRem : rem ≠ .released) :
    ∃ c map', setAsObjPage head rem m (m.getPageAddr idx) n = some (c, { m with map := map' }) ∧
      Labelled map' head rem ⟨idx, n⟩ ∧ (∀ p ∉ Set.Ico idx (idx + n), map' p = m.map p) ∧
        nonReleasedPages { m with map := map' } = m.nonReleasedPages + c := by
  have small := shaped.small
  have index : m.getPageIndex (m.getPageAddr idx) = idx := getPageIndex_getPageAddr (by omega)
  have inside : m.containsAddr (m.getPageAddr idx) = true := shaped.contains_page (by omega)
  have allowed : ¬ (m.map idx ≠ .free ∧ m.map idx ≠ .released) := fun both =>
    (free idx ⟨Nat.le_refl _, by omega⟩).elim both.2 both.1
  have single : idx + 1 ≤ m.pageMapSize := by omega
  have marked : nonReleasedPages { m with map := Space.setLabels m.map idx 1 head } =
      m.nonReleasedPages + (List.range' idx 1).countP (Space.converted m.map head) :=
    nonReleased_mark single keptHead
  have one : (List.range' idx 1).countP (Space.converted m.map head) =
      if m.map idx = .released then 1 else 0 := by
    rw [List.range'_one, List.countP_singleton]
    simp [Space.converted, keptHead]
  rw [one] at marked
  unfold setAsObjPage
  dsimp only
  have bound : ¬ idx ≥ m.pageMapSize := by omega
  rw [index, inside, if_neg (by decide), if_neg bound, if_neg allowed, setType_eq_setLabels]
  generalize setFirst : Space.setLabels m.map idx 1 head = map1 at *
  have firstLabel : map1 idx = head := by
    rw [← setFirst]
    exact setLabels_inside ⟨Nat.le_refl _, Nat.lt_succ_self _⟩
  have unchanged : ∀ p, p ≠ idx → map1 p = m.map p := fun p other => by
    rw [← setFirst]
    refine setLabels_outside ?_
    rintro ⟨low, high⟩
    exact other (by omega)
  by_cases more : n > 1
  · rw [if_pos more]
    have split_ : idx + n = idx + 1 + (n - 1) := by omega
    have shaped1 : ({ m with map := map1 } : PageMap).Shaped := ⟨shaped.ends, shaped.max, shaped.small⟩
    have some' : 0 < n - 1 := by omega
    have fits' : idx + 1 + (n - 1) ≤ m.pageMapSize := by omega
    have run := setRangeAndCount_spec shaped1 some' fits' fun wrong => absurd wrong keptRem
    rw [split_, run, Option.map_some]
    refine ⟨_, _, rfl, ⟨?_, fun p low high => ?_⟩, fun p outside => ?_, ?_⟩
    · dsimp only
      rw [setLabels_outside (by simp), firstLabel]
    · exact setLabels_inside ⟨low, by unfold Interval.stop at high; dsimp only at high; omega⟩
    · rw [setLabels_outside (by rintro ⟨low, high⟩; exact outside ⟨by omega, by omega⟩)]
      exact unchanged p fun same => outside ⟨by omega, by omega⟩
    · have others : nonReleasedPages { m with map := Space.setLabels map1 (idx + 1) (n - 1) rem } =
          nonReleasedPages { m with map := map1 } +
            (List.range' (idx + 1) (n - 1)).countP (Space.converted map1 rem) :=
        nonReleased_mark (m := { m with map := map1 }) fits' keptRem
      rw [others, marked, Nat.add_assoc]
  · rw [if_neg more]
    have only : n = 1 := by omega
    subst only
    refine ⟨_, _, rfl, ⟨firstLabel, fun p low high => ?_⟩, fun p outside => ?_, marked⟩
    · unfold Interval.stop at high
      dsimp only at low high
      omega
    · exact unchanged p fun same => outside ⟨by omega, by omega⟩

variable {x : Interval}

theorem remCount_object (labelled : Labelled m.map head rem x)
    (some_ : 0 < x.size) (fits : x.stop ≤ m.pageMapSize)
    (ends : x.stop = m.pageMapSize ∨ m.map x.stop ≠ rem) :
    remCount m.map rem (m.pageMapSize - (x.start + 1)) (x.start + 1) = x.size - 1 := by
  refine remCount_spec _ _ _ (fun k small => ?_) ?_
  · exact labelled.2 _ (by omega) (by unfold Interval.stop; omega)
  · unfold Interval.stop at *
    have stop : x.start + 1 + (x.size - 1) = x.start + x.size := by omega
    rw [stop]
    by_cases last : x.start + x.size = m.pageMapSize
    · exact .inl (by omega)
    · exact .inr ⟨by omega, ends.resolve_left last⟩

/-- The labels of an object tell its size. -/
theorem objPageCount_spec (shaped : m.Shaped) (labelled : Labelled m.map head rem x)
    (some_ : 0 < x.size) (fits : x.stop ≤ m.pageMapSize)
    (ends : x.stop = m.pageMapSize ∨ m.map x.stop ≠ rem) :
    objPageCount head rem m (m.getPageAddr x.start) = some x.size := by
  have small := shaped.small
  have inside : x.start < m.pageMapSize := by
    unfold Interval.stop at fits
    omega
  have count := remCount_object labelled some_ fits ends
  unfold objPageCount
  dsimp only
  rw [getPageIndex_getPageAddr (by omega), if_pos ⟨shaped.contains_page inside, labelled.1⟩, count]
  exact congrArg some (by omega)

/-- From any address within an object its start is found. -/
theorem getObjStart_spec (shaped : m.Shaped) (labelled : Labelled m.map head rem x)
    (other : rem ≠ head) (fits : x.stop ≤ m.pageMapSize) {addr : Nat}
    (low : m.spaceBeginAddr + x.start * allocUtilPageSize ≤ addr)
    (high : addr < m.spaceBeginAddr + x.stop * allocUtilPageSize) :
    getObjStartFromAddr head m addr = some (m.getPageAddr x.start) := by
  have found := startIndex_spec labelled other (getPageIndex_of_inside low high)
  unfold getObjStartFromAddr
  dsimp only
  rw [found, if_pos ⟨shaped.contains fits low high, labelled.1⟩]

theorem clearRunPage_spec (shaped : m.Shaped) (labelled : Labelled m.map .run .runRem x)
    (some_ : 0 < x.size) (fits : x.stop ≤ m.pageMapSize) (isReleased : Bool) :
    m.clearRunPage (m.getPageAddr x.start) x.size isReleased =
      some (m.setRange x.start x.size (clearedLabel isReleased)) := by
  have small := shaped.small
  have inside : x.start < m.pageMapSize := by
    unfold Interval.stop at fits
    omega
  unfold clearRunPage
  rw [if_pos (shaped.contains_page inside), getPageIndex_getPageAddr (by omega),
    clearRunLoop_spec x.size x.start m.map fun p member => labelled.all member]
  rfl

/-- A large object is cleared as a whole, and nothing else is. -/
theorem clearLargeObj_spec (shaped : m.Shaped) (labelled : Labelled m.map .largeObj .largeObjRem x)
    (some_ : 0 < x.size) (fits : x.stop ≤ m.pageMapSize)
    (ends : x.stop = m.pageMapSize ∨ m.map x.stop ≠ .largeObjRem) (isReleased : Bool) :
    m.clearLargeObjPageAndCount (m.getPageAddr x.start) isReleased =
      some (x.size, m.setRange x.start x.size (clearedLabel isReleased)) := by
  have small := shaped.small
  have inside : x.start < m.pageMapSize := by
    unfold Interval.stop at fits
    omega
  have same : remCount (setType m.map x.start (clearedLabel isReleased)) .largeObjRem
      (m.pageMapSize - (x.start + 1)) (x.start + 1) = x.size - 1 := by
    rw [← remCount_object labelled some_ fits ends]
    exact remCount_congr _ _ fun p low => Function.update_of_ne (by omega) _ _
  have whole : 1 + (x.size - 1) = x.size := by omega
  have size : x.size - 1 + 1 = x.size := by omega
  unfold clearLargeObjPageAndCount
  dsimp only
  rw [getPageIndex_getPageAddr (by omega), if_pos ⟨shaped.contains_page inside, labelled.1⟩,
    clearLargeLoop_eq, same, setLabels_setType, whole, size]
  rfl

end PageMap

/-! The map under the allocator. -/

/-- An update of the map. A range is only set while it is in no object. -/
inductive PageMapOp where
  | setAsRunPage (idx pageCnt : Nat)
  | setAsLargeObjPage (idx pageCnt : Nat)
  | clearRunPage (run : Interval) (isReleased : Bool)
  | clearLargeObjPageAndCount (largeObj : Interval) (isReleased : Bool)
  | setRangeAndCount (pageIdx pageCnt : Nat) (label : PageLabel)

/-- The map, the objects the allocator holds, and what it adds up of the pages that were converted. -/
structure PageMapSystem where
  pages : PageMap
  regions : List Region
  released : Nat
  nonReleased : Nat

namespace PageMapSystem

def recordNonReleased (y : PageMapSystem) (count : Nat) : PageMapSystem :=
  { y with released := y.released - count, nonReleased := y.nonReleased + count }

def recordReleased (y : PageMapSystem) (count : Nat) : PageMapSystem :=
  { y with released := y.released + count, nonReleased := y.nonReleased - count }

def recordCleared (y : PageMapSystem) (count : Nat) (isReleased : Bool) : PageMapSystem :=
  if isReleased then y.recordReleased count else y

def taken (y : PageMapSystem) (kind : RegionKind) (idx pageCnt : Nat) :
    Nat × PageMap → Nat × PageMapSystem
  | (count, pages) => (count, { y with
      pages := pages
      regions := ⟨kind, ⟨idx, pageCnt⟩⟩ :: y.regions }.recordNonReleased count)

/-- The number that the update returns; `none` where an assertion fails. -/
def apply (y : PageMapSystem) : PageMapOp → Option (Nat × PageMapSystem)
  | .setAsRunPage idx pageCnt =>
      (y.pages.setAsRunPage (y.pages.getPageAddr idx) pageCnt).map (y.taken .run idx pageCnt)
  | .setAsLargeObjPage idx pageCnt =>
      (y.pages.setAsLargeObjPage (y.pages.getPageAddr idx) pageCnt).map (y.taken .large idx pageCnt)
  | .clearRunPage run isReleased =>
      (y.pages.clearRunPage (y.pages.getPageAddr run.start) run.size isReleased).map fun pages =>
        (0, { y with
          pages := pages
          regions := y.regions.erase ⟨.run, run⟩ }.recordCleared run.size isReleased)
  | .clearLargeObjPageAndCount largeObj isReleased =>
      (y.pages.clearLargeObjPageAndCount (y.pages.getPageAddr largeObj.start) isReleased).map
        fun (count, pages) => (count, { y with
          pages := pages
          regions := y.regions.erase ⟨.large, largeObj⟩ }.recordCleared count isReleased)
  | .setRangeAndCount pageIdx pageCnt label =>
      (y.pages.setRangeAndCount (idxInGroup pageIdx) (idxInGroup pageIdx + pageCnt) label).map
        fun (count, pages) =>
          let y := { y with pages := pages }
          (count, if label = .released then y.recordReleased count else y.recordNonReleased count)

def Unused (y : PageMapSystem) (idx pageCnt : Nat) : Prop :=
  0 < pageCnt ∧ idx + pageCnt ≤ y.pages.pageMapSize ∧
    ∀ p ∈ List.range' idx pageCnt, ∀ r ∈ y.regions, ¬ (r.pages.start ≤ p ∧ p < r.pages.stop)

/-- The updates that the allocator makes: pages are taken and converted while they are in no object,
and cleared when the allocator holds them. -/
def Legal (y : PageMapSystem) : PageMapOp → Prop
  | .setAsRunPage idx pageCnt | .setAsLargeObjPage idx pageCnt => y.Unused idx pageCnt
  | .clearRunPage run _ => ⟨.run, run⟩ ∈ y.regions
  | .clearLargeObjPageAndCount largeObj _ => ⟨.large, largeObj⟩ ∈ y.regions
  | .setRangeAndCount pageIdx pageCnt label =>
      (label = .released ∨ label = .free) ∧ y.Unused (idxInGroup pageIdx) pageCnt

instance (y : PageMapSystem) (idx pageCnt : Nat) : Decidable (y.Unused idx pageCnt) :=
  inferInstanceAs (Decidable (_ ∧ _))

instance decidableLegal (y : PageMapSystem) : ∀ op, Decidable (y.Legal op)
  | .setAsRunPage idx pageCnt | .setAsLargeObjPage idx pageCnt =>
      inferInstanceAs (Decidable (y.Unused idx pageCnt))
  | .clearRunPage .. | .clearLargeObjPageAndCount .. => inferInstanceAs (Decidable (_ ∈ _))
  | .setRangeAndCount .. => inferInstanceAs (Decidable (_ ∧ _))

/-- What the map tells of every large object, and what is counted. -/
structure Consistent (y : PageMapSystem) : Prop where
  apart : Apart (extents y.regions)
  count : ∀ x, ⟨.large, x⟩ ∈ y.regions →
    y.pages.largeObjPageCount (y.pages.getPageAddr x.start) = some x.size
  start : ∀ x, ⟨.large, x⟩ ∈ y.regions → ∀ addr,
    y.pages.spaceBeginAddr + x.start * allocUtilPageSize ≤ addr →
      addr < y.pages.spaceBeginAddr + x.stop * allocUtilPageSize →
        y.pages.getLargeObjStartFromAddr addr = some (y.pages.getPageAddr x.start)
  released : y.released = y.pages.releasedPages
  nonReleased : y.nonReleased = y.pages.nonReleasedPages

def Exact (y : PageMapSystem) : PageMapOp → Nat → PageMapSystem → Prop
  | .setAsRunPage idx pageCnt, _, y' | .setAsLargeObjPage idx pageCnt, _, y' =>
      ∀ p ∉ Set.Ico idx (idx + pageCnt), y'.pages.map p = y.pages.map p
  | .clearRunPage run _, _, y' => ∀ p ∉ run.points, y'.pages.map p = y.pages.map p
  | .clearLargeObjPageAndCount largeObj _, count, y' =>
      count = largeObj.size ∧ ∀ p ∉ largeObj.points, y'.pages.map p = y.pages.map p
  | .setRangeAndCount pageIdx pageCnt _, _, y' =>
      ∀ p ∉ Set.Ico (idxInGroup pageIdx) (idxInGroup pageIdx + pageCnt),
        y'.pages.map p = y.pages.map p

/-- The labels are those of the objects, other pages have none of theirs. -/
structure Inv (y : PageMapSystem) : Prop where
  shaped : y.pages.Shaped
  sized : ∀ r ∈ y.regions, 0 < r.pages.size
  fits : ∀ r ∈ y.regions, r.pages.stop ≤ y.pages.pageMapSize
  apart : Apart (extents y.regions)
  labelled : ∀ r ∈ y.regions, Labelled y.pages.map r.kind.head r.kind.rem r.pages
  unused : ∀ p < y.pages.pageMapSize, p ∉ covers (extents y.regions) →
    y.pages.map p = .released ∨ y.pages.map p = .free
  released : y.released = y.pages.releasedPages
  nonReleased : y.nonReleased = y.pages.nonReleasedPages

variable {y : PageMapSystem} {op : PageMapOp} {idx pageCnt : Nat} {r : Region}

theorem mem_extents {p : Nat} (member : r ∈ y.regions) (inside : p ∈ r.pages.points) :
    p ∈ covers (extents y.regions) := ⟨r.pages, List.mem_map_of_mem member, inside⟩

/-- The page after an object does not continue it. -/
theorem Inv.ends (inv : y.Inv) (member : r ∈ y.regions) :
    r.pages.stop = y.pages.pageMapSize ∨ y.pages.map r.pages.stop ≠ r.kind.rem := by
  have fits := inv.fits r member
  have some_ := inv.sized r member
  rcases Nat.lt_or_eq_of_le fits with before | last
  · refine .inr fun wrong => ?_
    by_cases covered : r.pages.stop ∈ covers (extents y.regions)
    · obtain ⟨_, inside, here⟩ := covered
      obtain ⟨r2, member2, rfl⟩ := List.mem_map.mp inside
      have ⟨low, high⟩ := here
      have first : r2.pages.start ≠ r.pages.stop := by
        intro same
        have label := (inv.labelled r2 member2).1
        rw [same, wrong] at label
        cases kind : r.kind <;> cases kind2 : r2.kind <;> rw [kind, kind2] at label <;> cases label
      have other : r.pages ≠ r2.pages := by
        intro again
        rw [← again] at high
        exact Nat.lt_irrefl _ high
      have apart : Disjoint r.pages.points r2.pages.points := inv.apart.forall
        (List.mem_map_of_mem member) (List.mem_map_of_mem member2) other
      have last : r.pages.stop - 1 ∈ r.pages.points :=
        ⟨by unfold Interval.stop; omega, by unfold Interval.stop; omega⟩
      have within : r.pages.stop - 1 ∈ r2.pages.points := ⟨by omega, by omega⟩
      exact Set.disjoint_left.mp apart last within
    · have label := inv.unused _ before covered
      rw [wrong] at label
      cases kind : r.kind <;> rw [kind] at label <;> rcases label with label | label <;> cases label
  · exact .inl last

theorem consistent_of_inv (inv : y.Inv) : y.Consistent where
  apart := inv.apart
  count := fun x member => PageMap.objPageCount_spec inv.shaped (inv.labelled _ member)
    (inv.sized _ member) (inv.fits _ member) (inv.ends member)
  start := fun x member addr low high => PageMap.getObjStart_spec inv.shaped
    (inv.labelled _ member) (show PageLabel.largeObjRem ≠ .largeObj by decide) (inv.fits _ member)
    low high
  released := inv.released
  nonReleased := inv.nonReleased

theorem Inv.free (inv : y.Inv) (unused : y.Unused idx pageCnt) :
    ∀ p ∈ Set.Ico idx (idx + pageCnt), y.pages.map p = .released ∨ y.pages.map p = .free := by
  intro p ⟨low, high⟩
  have ⟨_, fits, apart⟩ := unused
  refine inv.unused p (by omega) fun ⟨x, member, inside⟩ => ?_
  obtain ⟨r, held, rfl⟩ := List.mem_map.mp member
  exact apart p (List.mem_range'_1.mpr ⟨low, high⟩) r held inside

theorem Unused.disjoint (unused : y.Unused idx pageCnt) :
    Disjoint (Set.Ico idx (idx + pageCnt)) (covers (extents y.regions)) := by
  rw [Set.disjoint_left]
  intro p ⟨low, high⟩ ⟨x, member, inside⟩
  obtain ⟨r, held, rfl⟩ := List.mem_map.mp member
  exact unused.2.2 p (List.mem_range'_1.mpr ⟨low, high⟩) r held inside

/-- Pages become an object. -/
theorem taken_inv (inv : y.Inv) (unused : y.Unused idx pageCnt) (kind : RegionKind) :
    ∃ result y', (PageMap.setAsObjPage kind.head kind.rem y.pages (y.pages.getPageAddr idx)
        pageCnt).map (y.taken kind idx pageCnt) = some (result, y') ∧ y'.Inv ∧
      ∀ p ∉ Set.Ico idx (idx + pageCnt), y'.pages.map p = y.pages.map p := by
  have ⟨some_, fits, _⟩ := unused
  have keptHead : kind.head ≠ .released := by cases kind <;> decide
  have keptRem : kind.rem ≠ .released := by cases kind <;> decide
  have ⟨c, map', run, labelled, same, count⟩ :=
    PageMap.setAsObjPage_spec inv.shaped some_ fits (inv.free unused) keptHead keptRem
  have apart := unused.disjoint
  have before := y.pages.releasedPages_add
  have after := PageMap.releasedPages_add { y.pages with map := map' }
  have released := inv.released
  have nonReleased := inv.nonReleased
  rw [run, Option.map_some]
  refine ⟨_, _, rfl, ?_, same⟩
  exact {
    shaped := ⟨inv.shaped.ends, inv.shaped.max, inv.shaped.small⟩
    sized := List.forall_mem_cons.mpr ⟨some_, inv.sized⟩
    fits := List.forall_mem_cons.mpr ⟨fits, inv.fits⟩
    apart := apart_cons.mpr ⟨apart, inv.apart⟩
    labelled := List.forall_mem_cons.mpr ⟨labelled, fun r member =>
      (inv.labelled r member).congr (inv.sized r member) fun p inside => same p fun here =>
        Set.disjoint_left.mp apart here (mem_extents member inside)⟩
    unused := fun p small outside => by
      have out : p ∉ Set.Ico idx (idx + pageCnt) ∧ p ∉ covers (extents y.regions) := by
        rw [extents, recordNonReleased, List.map_cons, covers_cons, Set.mem_union] at outside
        exact not_or.mp outside
      change map' p = _ ∨ map' p = _
      rw [same p out.1]
      exact inv.unused p small out.2
    released := by
      dsimp only [recordNonReleased] at *
      omega
    nonReleased := by
      dsimp only [recordNonReleased] at *
      omega }

section

variable (inv : y.Inv) (member : r ∈ y.regions)

include inv member

/-- No page of an object is released. -/
theorem Inv.resident {p : Nat} (inside : p ∈ r.pages.points) : y.pages.map p ≠ .released := by
  intro wrong
  have label := (inv.labelled r member).all inside
  rw [wrong] at label
  cases kind : r.kind <;> rw [kind] at label <;> rcases label with label | label <;> cases label

/-- What is counted when an object is cleared. -/
theorem cleared_counts (isReleased : Bool) :
    (y.recordCleared r.pages.size isReleased).released =
        (y.pages.setRange r.pages.start r.pages.size (PageMap.clearedLabel isReleased)).releasedPages ∧
      (y.recordCleared r.pages.size isReleased).nonReleased =
        (y.pages.setRange r.pages.start r.pages.size
          (PageMap.clearedLabel isReleased)).nonReleasedPages := by
  have fits := inv.fits r member
  have before := y.pages.releasedPages_add
  have released := inv.released
  have nonReleased := inv.nonReleased
  have all : ∀ p ∈ List.range' r.pages.start r.pages.size, y.pages.map p ≠ .released :=
    fun p inside => inv.resident member (List.mem_range'_1.mp inside)
  cases isReleased with
  | false =>
      have after := (y.pages.setRange r.pages.start r.pages.size .free).releasedPages_add
      have kept := PageMap.nonReleased_mark (m := y.pages) fits
        (show PageLabel.free ≠ .released by decide)
      have none_ : (List.range' r.pages.start r.pages.size).countP
          (Space.converted y.pages.map .free) = 0 :=
        List.countP_eq_zero.mpr fun p inside => by simp [Space.converted, all p inside]
      rw [none_, Nat.add_zero] at kept
      rw [kept] at after
      have size : (y.pages.setRange r.pages.start r.pages.size .free).pageMapSize =
        y.pages.pageMapSize := rfl
      refine ⟨?_, nonReleased.trans kept.symm⟩
      exact released.trans (by rw [PageMap.clearedLabel, if_neg Bool.false_ne_true]; omega)
  | true =>
      have after := (y.pages.setRange r.pages.start r.pages.size .released).releasedPages_add
      have down := PageMap.nonReleased_release (m := y.pages) fits
      have count : (List.range' r.pages.start r.pages.size).countP
          (Space.converted y.pages.map .released) = r.pages.size := by
        rw [List.countP_eq_length.mpr fun p inside => ?_, List.length_range']
        simp [Space.converted, all p inside]
      rw [count] at down
      have size : (y.pages.setRange r.pages.start r.pages.size .released).pageMapSize =
        y.pages.pageMapSize := rfl
      rw [recordCleared, if_pos rfl, recordReleased, PageMap.clearedLabel, if_pos rfl]
      dsimp only
      omega

/-- An object becomes pages again. -/
theorem cleared_inv (isReleased : Bool) :
    ({ y with
      pages := y.pages.setRange r.pages.start r.pages.size (PageMap.clearedLabel isReleased)
      regions := y.regions.erase r }.recordCleared r.pages.size isReleased).Inv := by
  have perm : (extents y.regions).Perm (r.pages :: extents (y.regions.erase r)) :=
    (List.perm_cons_erase member).map Region.pages
  obtain ⟨apart, regionsApart⟩ := apart_cons.mp (inv.apart.perm perm)
  have covered : covers (extents y.regions) = r.pages.points ∪ covers (extents (y.regions.erase r)) := by
    rw [covers_perm perm, covers_cons]
  obtain ⟨released, nonReleased⟩ := cleared_counts inv member isReleased
  generalize label_ : PageMap.clearedLabel isReleased = label at *
  have same : ∀ p ∉ r.pages.points, (y.pages.setRange r.pages.start r.pages.size label).map p =
      y.pages.map p := fun p outside => setLabels_outside outside
  have inside : ∀ p ∈ r.pages.points, (y.pages.setRange r.pages.start r.pages.size label).map p =
      label := fun p inside => setLabels_inside inside
  have counted : recordCleared { y with
        pages := y.pages.setRange r.pages.start r.pages.size label
        regions := y.regions.erase r } r.pages.size isReleased = { y with
      pages := y.pages.setRange r.pages.start r.pages.size label
      regions := y.regions.erase r
      released := (y.recordCleared r.pages.size isReleased).released
      nonReleased := (y.recordCleared r.pages.size isReleased).nonReleased } := by
    cases isReleased <;> rfl
  rw [counted]
  exact {
    shaped := ⟨inv.shaped.ends, inv.shaped.max, inv.shaped.small⟩
    sized := fun r' held => inv.sized r' (List.mem_of_mem_erase held)
    fits := fun r' held => inv.fits r' (List.mem_of_mem_erase held)
    apart := regionsApart
    labelled := fun r' held => (inv.labelled r' (List.mem_of_mem_erase held)).congr
      (inv.sized r' (List.mem_of_mem_erase held)) fun p here => same p fun wrong =>
        Set.disjoint_left.mp apart wrong ⟨r'.pages, List.mem_map_of_mem held, here⟩
    unused := fun p small outside => by
      dsimp only at *
      by_cases here : p ∈ r.pages.points
      · rw [inside p here, ← label_]
        cases isReleased
        · exact .inr rfl
        · exact .inl rfl
      · rw [same p here]
        refine inv.unused p small fun wrong => ?_
        rw [covered] at wrong
        exact outside (wrong.resolve_left here)
    released := released
    nonReleased := nonReleased }

end

/-- Pages in no object are converted. -/
theorem converted_inv (inv : y.Inv) (unused : y.Unused idx pageCnt) {label : PageLabel}
    (kind : label = .released ∨ label = .free) :
    ∃ count pages, y.pages.setRangeAndCount idx (idx + pageCnt) label = some (count, pages) ∧
      (if label = PageLabel.released then { y with pages := pages }.recordReleased count
        else { y with pages := pages }.recordNonReleased count).Inv ∧
      ∀ p ∉ Set.Ico idx (idx + pageCnt), pages.map p = y.pages.map p := by
  have ⟨some_, fits, _⟩ := unused
  have free := inv.free unused
  have apart := unused.disjoint
  have run := PageMap.setRangeAndCount_spec inv.shaped some_ fits fun (_ : label = .released) => free
  have before := y.pages.releasedPages_add
  have after := (y.pages.setRange idx pageCnt label).releasedPages_add
  have size : (y.pages.setRange idx pageCnt label).pageMapSize = y.pages.pageMapSize := rfl
  have released := inv.released
  have nonReleased := inv.nonReleased
  have same : ∀ p ∉ Set.Ico idx (idx + pageCnt), (y.pages.setRange idx pageCnt label).map p =
      y.pages.map p := fun p outside => setLabels_outside outside
  have counts (released' nonReleased' : Nat)
      (released : released' = (y.pages.setRange idx pageCnt label).releasedPages)
      (nonReleased : nonReleased' = (y.pages.setRange idx pageCnt label).nonReleasedPages) :
      Inv ⟨y.pages.setRange idx pageCnt label, y.regions, released', nonReleased'⟩ := {
    shaped := ⟨inv.shaped.ends, inv.shaped.max, inv.shaped.small⟩
    sized := inv.sized
    fits := inv.fits
    apart := inv.apart
    labelled := fun r held => (inv.labelled r held).congr (inv.sized r held) fun p here =>
      same p fun wrong => Set.disjoint_left.mp apart wrong (mem_extents held here)
    unused := fun p small outside => by
      dsimp only at *
      by_cases here : p ∈ Set.Ico idx (idx + pageCnt)
      · have label_ : (y.pages.setRange idx pageCnt label).map p = label := setLabels_inside here
        rw [label_]
        exact kind
      · rw [same p here]
        exact inv.unused p small outside
    released := released
    nonReleased := nonReleased }
  refine ⟨_, _, run, ?_, same⟩
  rcases kind with rfl | rfl
  · have down := PageMap.nonReleased_release (m := y.pages) fits
    rw [if_pos rfl]
    exact counts _ _ (by dsimp only; omega) (by dsimp only; omega)
  · have up := PageMap.nonReleased_mark (m := y.pages) fits
      (show PageLabel.free ≠ .released by decide)
    rw [if_neg (by decide)]
    exact counts _ _ (by dsimp only; omega) (by dsimp only; omega)

/-- What each update keeps. -/
theorem apply_inv (inv : y.Inv) (legal : y.Legal op) :
    ∃ result y', y.apply op = some (result, y') ∧ y'.Inv ∧ y.Exact op result y' := by
  cases op with
  | setAsRunPage idx pageCnt => exact taken_inv inv legal .run
  | setAsLargeObjPage idx pageCnt => exact taken_inv inv legal .large
  | clearRunPage run isReleased =>
      have cleared := cleared_inv inv legal isReleased
      have done := PageMap.clearRunPage_spec inv.shaped (inv.labelled _ legal)
        (inv.sized _ legal) (inv.fits _ legal) isReleased
      rw [apply, done]
      refine ⟨_, _, rfl, cleared, fun p outside => ?_⟩
      cases isReleased <;> exact setLabels_outside outside
  | clearLargeObjPageAndCount largeObj isReleased =>
      have cleared := cleared_inv inv legal isReleased
      have done := PageMap.clearLargeObj_spec inv.shaped (inv.labelled _ legal)
        (inv.sized _ legal) (inv.fits _ legal) (inv.ends legal) isReleased
      rw [apply, done]
      refine ⟨_, _, rfl, cleared, rfl, fun p outside => ?_⟩
      cases isReleased <;> exact setLabels_outside outside
  | setRangeAndCount pageIdx pageCnt label =>
      have ⟨kind, unused⟩ := legal
      have ⟨count, pages, run, inv', same⟩ := converted_inv inv unused kind
      rw [apply, run]
      refine ⟨_, _, rfl, inv', fun p outside => ?_⟩
      rw [← same p outside]
      rcases kind with rfl | rfl <;> rfl

/-- A map as `Init` makes it for a group of so many pages. -/
def start (baseAddr pageCnt : Nat) : PageMapSystem where
  pages := PageMap.init baseAddr (pageCnt * allocUtilPageSize) (pageCnt * allocUtilPageSize)
  regions := []
  released := pageCnt
  nonReleased := 0

theorem start_inv {baseAddr pageCnt : Nat} (few : pageCnt < 2 ^ 18) : (start baseAddr pageCnt).Inv := by
  have size : pageCnt * allocUtilPageSize / allocUtilPageSize = pageCnt :=
    Nat.mul_div_cancel _ (by decide)
  have none_ : (start baseAddr pageCnt).pages.nonReleasedPages = 0 :=
    List.countP_eq_zero.mpr fun p _ => by simp [start, PageMap.init]
  have all := (start baseAddr pageCnt).pages.releasedPages_add
  rw [none_, Nat.add_zero] at all
  exact {
    shaped := ⟨by simp [start, PageMap.init, size], rfl, size.trans_lt few⟩
    sized := nofun
    fits := nofun
    apart := List.Pairwise.nil
    labelled := nofun
    unused := fun p _ _ => .inl rfl
    released := (all.trans size).symm
    nonReleased := none_.symm }

end PageMapSystem

end PrimJs
