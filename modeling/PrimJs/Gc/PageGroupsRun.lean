import PrimJs.Gc.PageGroups

/-! Runs of creations and releases of page groups. -/

namespace PrimJs.PageGroups

variable {m m' : PageGroups} {g : PageGroupSlot} {i j next : Nat} {groups : List PageGroupSlot}

/-! One group. -/

theorem link_eq_some : g.link = some next ↔ g.initialized = false ∧ g.nextFreeIdx = next := by
  unfold PageGroupSlot.link
  cases g.initialized <;> simp

theorem link_eq_none : g.link = none ↔ g.initialized = true := by
  unfold PageGroupSlot.link
  cases g.initialized <;> simp

theorem init_spec (idle : g.initialized = false) (reqSize : Int) (mapping : Option Nat) :
    ∃ g', g.init reqSize mapping = (g', mapping.isSome) ∧ g'.initialized = mapping.isSome ∧
      g'.idx = g.idx ∧ g'.nextFreeIdx = g.nextFreeIdx := by
  unfold PageGroupSlot.init
  rw [idle, if_neg Bool.false_ne_true]
  by_cases huge : reqSize ≠ 0
  · rw [if_pos huge]
    cases mapping <;> exact ⟨_, rfl, by simp, rfl, rfl⟩
  · rw [if_neg huge]
    cases mapping <;> exact ⟨_, rfl, by simp, rfl, rfl⟩

theorem release_spec (used : g.initialized = true) :
    ∃ g', g.releaseMem = some g' ∧ g'.initialized = false ∧ g'.idx = g.idx := by
  unfold PageGroupSlot.releaseMem
  rw [if_pos used]
  exact ⟨_, rfl, rfl, rfl⟩

/-! The slots. -/

def links (m : PageGroups) : List (Option Nat) := m.groups.map PageGroupSlot.link

theorem slotLink_map : slotLink (groups.map PageGroupSlot.link) i = groups[i]?.bind PageGroupSlot.link := by
  rw [slotLink, List.getElem?_map]
  cases groups[i]? <;> rfl

theorem slotLink_eq_some : slotLink m.links i = some next ↔
    ∃ g, m.groups[i]? = some g ∧ g.initialized = false ∧ g.nextFreeIdx = next := by
  rw [links, slotLink_map, Option.bind_eq_some_iff]
  exact exists_congr fun g => and_congr_right fun _ => link_eq_some

theorem free_iff : m.Free i ↔ ∃ next, slotLink m.links i = some next := by
  constructor
  · intro ⟨g, slot, idle⟩
    exact ⟨g.nextFreeIdx, slotLink_eq_some.mpr ⟨g, slot, idle, rfl⟩⟩
  · intro ⟨next, link⟩
    have ⟨g, slot, idle, _⟩ := slotLink_eq_some.mp link
    exact ⟨g, slot, idle⟩

theorem live_lt (live : m.Live i) : i < m.groups.length :=
  have ⟨_, slot, _⟩ := live
  (List.getElem?_eq_some_iff.mp slot).1

theorem not_live_of_free (free : m.Free i) : ¬m.Live i := by
  intro ⟨g, slot, used⟩
  have ⟨g', slot', idle⟩ := free
  rw [slot, Option.some.injEq] at slot'
  rw [slot', idle] at used
  cases used

/-- The free slots are threaded from the current index, and every group has the index of its slot. -/
structure Inv (m : PageGroups) : Prop where
  free : ∃ free, FreeChain m.links m.currentIdx free
  own : ∀ (i : Nat) (g : PageGroupSlot), m.groups[i]? = some g → g.idx = i
  few : m.groups.length ≤ kRosDefaultPageGroupNums

theorem empty_inv : empty.Inv where
  free := ⟨[], .empty⟩
  own i g slot := by
    rw [empty, List.getElem?_nil] at slot
    cases slot
  few := Nat.zero_le _

theorem Inv.allocates (inv : m.Inv) : m.Allocates where
  current := by
    have ⟨free, chain⟩ := inv.free
    rcases chain.current_cases with link | ⟨same, _⟩
    · exact .inl (free_iff.mpr link)
    · exact .inr (by rw [same, links, List.length_map])
  chain := by
    have ⟨free, chain⟩ := inv.free
    have members : ∀ i, i ∈ free ↔ m.Free i := fun i => (chain.members i).trans free_iff.symm
    refine ⟨free, ?_, chain.nodup, members⟩
    have walk := chain.chain
    rw [links, List.length_map] at walk
    refine walk.congr fun i member => ?_
    have ⟨g, slot, idle⟩ := (members i).mp member
    rw [nextFreeIdx, slot, slotLink_map, slot]
    exact (link_eq_some.mpr ⟨idle, rfl⟩).symm
  apart i j g h slot slot' _ _ same := by
    rw [← inv.own i g slot, same, inv.own j h slot']
  few := inv.few

/-- There is room as long as not every slot is in use. -/
theorem Inv.current_lt (inv : m.Inv)
    (room : m.groups.countP (fun g => g.initialized) < kRosDefaultPageGroupNums) :
    m.currentIdx < kRosDefaultPageGroupNums := by
  have few := inv.few
  have ⟨free, chain⟩ := inv.free
  rcases chain.current_cases with ⟨_, link⟩ | ⟨same, none_⟩
  · have inside := FreeChain.slotLink_lt link
    rw [links, List.length_map] at inside
    omega
  · rw [links, List.length_map] at same
    have all : ∀ g ∈ m.groups, g.initialized = true := by
      intro g member
      have ⟨i, slot⟩ := List.mem_iff_getElem?.mp member
      by_contra idle
      rw [Bool.not_eq_true] at idle
      have free := (chain.members i).mpr (free_iff.mp ⟨g, slot, idle⟩)
      rw [none_] at free
      cases free
    rw [List.countP_eq_length.mpr all] at room
    omega

/-! Creation. -/

/-- The current slot is constructed and not in use. -/
structure Ready (m m' : PageGroups) (g : PageGroupSlot) : Prop where
  inv : m'.Inv
  current : m'.currentIdx = m.currentIdx
  slot : m'.groups[m.currentIdx]? = some g
  idle : g.initialized = false
  live : ∀ i, m'.Live i ↔ m.Live i
  kept : ∀ i, m.Live i → m'.groups[i]? = m.groups[i]?

theorem ensureConstructed_spec (inv : m.Inv) (room : m.currentIdx < kRosDefaultPageGroupNums) :
    ∃ m' g, m.ensureConstructed m.currentIdx = some m' ∧ Ready m m' g := by
  have ⟨free, chain⟩ := inv.free
  have bound := chain.current_le
  rw [links, List.length_map] at bound
  unfold ensureConstructed
  rw [if_neg (Nat.not_lt.mpr bound)]
  by_cases last : m.currentIdx = m.groups.length
  · rw [if_pos last]
    generalize made : PageGroupSlot.mk _ _ _ _ _ _ _ = new
    have idle : new.initialized = false := by rw [← made]
    have link : new.link = some (m.groups.length + 1) :=
      link_eq_some.mpr ⟨idle, by rw [← made, ← last]⟩
    have slot : (m.groups ++ [new])[m.currentIdx]? = some new := by
      rw [last]
      exact List.getElem?_concat_length
    have old : ∀ i, m.Live i → (m.groups ++ [new])[i]? = m.groups[i]? := fun i live =>
      List.getElem?_append_left (live_lt live)
    refine ⟨_, new, rfl, ?_, rfl, slot, idle, fun i => ?_, old⟩
    · refine ⟨⟨[m.currentIdx], ?_⟩, fun i g slot' => ?_, ?_⟩
      · have atEnd : FreeChain m.links m.links.length free := by
          rw [last] at chain
          rwa [links, List.length_map]
        have grown := atEnd.construct
        rw [links, List.length_map, ← last] at grown
        rwa [links, List.map_append, List.map_singleton, link, ← last]
      · rw [List.getElem?_append] at slot'
        split at slot'
        · exact inv.own i g slot'
        · have ⟨inside, same⟩ := List.getElem?_eq_some_iff.mp slot'
          rw [List.length_singleton] at inside
          rw [← same, List.getElem_singleton, ← made]
          dsimp only
          omega
      · rw [List.length_append, List.length_singleton]
        omega
    · constructor
      · intro ⟨g, slot', used⟩
        by_cases inside : i < m.groups.length
        · rw [List.getElem?_append_left inside] at slot'
          exact ⟨g, slot', used⟩
        · have ⟨bound', same⟩ := List.getElem?_eq_some_iff.mp slot'
          rw [List.length_append, List.length_singleton] at bound'
          have here : i = m.currentIdx := by omega
          rw [here, slot, Option.some.injEq] at slot'
          rw [← slot', idle] at used
          cases used
      · intro live
        have ⟨g, slot', used⟩ := live
        exact ⟨g, (old i live).trans slot', used⟩
  · rw [if_neg last]
    rcases chain.current_cases with ⟨next, link⟩ | ⟨same, _⟩
    · have ⟨g, slot, idle, _⟩ := slotLink_eq_some.mp link
      exact ⟨m, g, rfl, inv, rfl, slot, idle, fun _ => Iff.rfl, fun _ _ => rfl⟩
    · rw [links, List.length_map] at same
      exact absurd same last

theorem live_set {new : PageGroupSlot} {current : Nat} {sorted : Nat → Option Nat}
    (inside : i < m.groups.length) :
    Live ⟨m.groups.set i new, current, sorted⟩ j ↔
      if j = i then new.initialized = true else m.Live j := by
  unfold Live
  by_cases here : j = i
  · rw [if_pos here, here, List.getElem?_set_self inside]
    simp
  · rw [if_neg here, List.getElem?_set_ne (Ne.symm here)]

theorem own_set {new : PageGroupSlot} (inv : m.Inv) (same : new.idx = i) (j : Nat) (g : PageGroupSlot)
    (slot : (m.groups.set i new)[j]? = some g) : g.idx = j := by
  rw [List.getElem?_set] at slot
  split at slot
  · next here =>
      split at slot
      · rw [← Option.some.inj slot, same, here]
      · cases slot
  · exact inv.own j g slot

theorem newGroup_spec (inv : m.Inv) (room : m.currentIdx < kRosDefaultPageGroupNums) (reqSize : Int)
    (mapping : Option Nat) :
    ∃ result m', m.newGroup reqSize mapping = some (result, m') ∧ m'.Inv ∧
      result.isSome = mapping.isSome ∧ (∀ i, m'.Live i ↔ m.Live i ∨ result = some i) ∧
      (∀ i, result = some i → ¬m.Live i) ∧ ∀ i, m.Live i → m'.groups[i]? = m.groups[i]? := by
  have ⟨m1, g, constructed, ready⟩ := ensureConstructed_spec inv room
  have ⟨g', initialized, used, own, next⟩ := init_spec ready.idle reqSize mapping
  have slot := ready.slot
  have inside := (List.getElem?_eq_some_iff.mp slot).1
  have idle : ¬m.Live m.currentIdx := by
    rw [← ready.live]
    exact not_live_of_free ⟨g, slot, ready.idle⟩
  have owned : g'.idx = m.currentIdx := own.trans (ready.inv.own _ g slot)
  have few : (m1.groups.set m.currentIdx g').length ≤ kRosDefaultPageGroupNums := by
    rw [List.length_set]
    exact ready.inv.few
  have kept : ∀ i, m.Live i → (m1.groups.set m.currentIdx g')[i]? = m.groups[i]? := by
    intro i live
    rw [List.getElem?_set_ne fun same => idle (by rwa [same])]
    exact ready.kept i live
  have link : slotLink m1.links m.currentIdx = some g'.nextFreeIdx :=
    slotLink_eq_some.mpr ⟨g, slot, ready.idle, next.symm⟩
  have ⟨free, chain⟩ := ready.inv.free
  rw [ready.current] at chain
  unfold newGroup
  rw [if_neg (Nat.not_le.mpr room), constructed]
  simp only [Option.bind_eq_bind, Option.bind_some, ready.current, slot, initialized]
  cases mapping with
  | none =>
      refine ⟨none, _, rfl, ⟨⟨free, ?_⟩, own_set ready.inv owned, few⟩, rfl, fun i => ?_, ?_, kept⟩
      · -- The slot stays the first of the free ones.
        rw [links, List.map_set, link_eq_some.mpr ⟨used, rfl⟩, ← links, FreeChain.set_same link]
        exact chain
      · rw [live_set inside, used]
        by_cases here : i = m.currentIdx
        · simp [here, idle]
        · simp [here, ready.live]
      · exact fun i wrong => nomatch wrong
  | some base =>
      have ⟨rest, _, taken⟩ := chain.take link
      refine ⟨some m.currentIdx, _, rfl, ⟨⟨rest, ?_⟩, own_set ready.inv owned, few⟩, rfl, fun i => ?_,
        ?_, kept⟩
      · rw [links, List.map_set, link_eq_none.mpr used, ← links]
        exact taken
      · rw [live_set inside, used]
        by_cases here : i = m.currentIdx
        · simp [here]
        · simp [here, Ne.symm here, ready.live]
      · intro i given
        rw [← Option.some.inj given]
        exact idle

/-! Release. -/

theorem releaseGroup_spec (inv : m.Inv) (live : m.Live i) :
    ∃ m', m.releaseGroup i = some (none, m') ∧ m'.Inv ∧ (∀ j, m'.Live j ↔ m.Live j ∧ j ≠ i) ∧
      ∀ j, j ≠ i → m'.groups[j]? = m.groups[j]? := by
  have ⟨g, slot, used⟩ := live
  have inside := live_lt live
  have ⟨g', released, idle, own⟩ := release_spec used
  have owned : g'.idx = i := own.trans (inv.own i g slot)
  have ⟨free, chain⟩ := inv.free
  have unlinked : slotLink m.links i = none := by
    rw [links, slotLink_map, slot]
    exact link_eq_none.mpr used
  have relinked : ({ g' with nextFreeIdx := m.currentIdx } : PageGroupSlot).link = some m.currentIdx :=
    link_eq_some.mpr ⟨idle, rfl⟩
  unfold releaseGroup
  simp only [Option.bind_eq_bind, slot, Option.bind_some, released]
  refine ⟨_, rfl, ⟨⟨i :: free, ?_⟩, own_set inv owned, ?_⟩, fun j => ?_, fun j other => ?_⟩
  · have given := chain.give (by rwa [links, List.length_map]) unlinked
    rw [links, List.map_set, relinked, ← links, owned]
    exact given
  · rw [List.length_set]
    exact inv.few
  · rw [live_set inside]
    by_cases here : j = i
    · simp [here, idle]
    · simp [here]
  · exact List.getElem?_set_ne other.symm

/-! Runs. -/

theorem apply_spec (m : PageGroups) (op : Op) (inv : m.Inv) (legal : m.Legal op) :
    ∃ result m', m.apply op = some (result, m') ∧ m'.Inv ∧ m.Does op result m' := by
  cases op with
  | newPageGroup mapping => exact newGroup_spec inv (inv.current_lt legal) 0 mapping
  | newHugeMem reqSize mapping => exact newGroup_spec inv (inv.current_lt legal) _ mapping
  | releaseMem pageIdx =>
      have ⟨m', done, inv', does⟩ := releaseGroup_spec inv legal
      exact ⟨none, m', done, inv', does⟩
  | releaseHugeMem slot =>
      have ⟨m', done, inv', does⟩ := releaseGroup_spec inv legal
      exact ⟨none, m', done, inv', does⟩

/-- Whatever is created and released, the free slots are chained from the current index, each once,
and no two groups in use have the same index. -/
theorem runs_allocate (ops : List Op) (legal : OperationRun.Along apply Legal empty ops) :
    OperationRun.Runs apply Allocates Does empty ops :=
  OperationRun.runs_of_along (fun _ => Inv.allocates) apply_spec ops empty empty_inv legal

/-- A mapping that fails, and slots that are released in another order than they were taken in. -/
theorem runs_allocate_recycled : OperationRun.Runs apply Allocates Does empty
    [.newPageGroup (some 0x80000), .newHugeMem 0x90000 (some 0x100000), .newPageGroup none,
      .newPageGroup (some 0x200000), .releaseHugeMem 1, .releaseMem (pageIdxOf 0 0),
      .newPageGroup (some 0x80000), .newHugeMem 0x90000 (some 0x300000),
      .newPageGroup (some 0x400000)] :=
  runs_allocate _ (by decide)

end PrimJs.PageGroups
