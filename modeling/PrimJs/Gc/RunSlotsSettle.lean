import PrimJs.Gc.RunSlotsInvariant

/-! Sweeping a run, and what becomes of it. -/

namespace PrimJs.RunAllocator

open Function (update)

variable {m m' : RunAllocator} {v v' : Lists} {run run' : RunSlots} {runAddr r idx a : Nat}
  {isObjectMarked : Nat → Bool}

/-- A run after some of its slots were released, the lists still as before. -/
structure Grown (m m' : RunAllocator) (v : Lists) (runAddr : Nat) (run run' : RunSlots) : Prop where
  core : m'.Core v
  found : m.runs runAddr = some run
  runs : m'.runs = update m.runs runAddr (some run')
  lists : m'.nonFullRuns = m.nonFullRuns
  size : run'.mIdx = run.mIdx
  isLocal : run'.isLocal = run.isLocal
  more : run.nFree ≤ run'.nFree

section

variable (grown : Grown m m' v' runAddr run run')

include grown

theorem Grown.here : m'.runs runAddr = some run' := by
  rw [grown.runs, Function.update_self]

theorem Grown.isInList (inv : m.Inv v) :
    m'.isInList runAddr run' = true ↔ run.isLocal = false ∧ 0 < run.nFree := by
  rw [RunAllocator.isInList, grown.lists, grown.size, (inv.lists run.mIdx).isInList]
  exact nonFull_self grown.found

theorem Grown.used (inv : m.Inv v) (some_ : run'.isLocal = false → run'.isEmpty = false) (r : Nat)
    (run₁ : RunSlots) (here : m'.runs r = some run₁) (notLocal : run₁.isLocal = false) :
    run₁.nFree < run₁.getMaxSlots := by
  rw [grown.runs] at here
  by_cases same : r = runAddr
  · rw [same, Function.update_self, Option.some.injEq] at here
    rw [← here] at notLocal ⊢
    have tracks := grown.core.runs runAddr run' grown.here
    have most := tracks.length_le
    rw [← tracks.count] at most
    have notAll := some_ notLocal
    rw [RunSlots.isEmpty, decide_eq_false_iff_not] at notAll
    omega
  · rw [Function.update_of_ne same] at here
    exact inv.used r run₁ here notLocal

/-- The lists need no change. -/
theorem Grown.stays (inv : m.Inv v)
    (same : run.isLocal = false → (0 < run'.nFree ↔ 0 < run.nFree))
    (some_ : run'.isLocal = false → run'.isEmpty = false) : m'.Inv v' where
  toCore := grown.core
  lists idx := by
    rw [grown.lists]
    refine (inv.lists idx).congr fun r => ?_
    rw [nonFull_of_runs grown.runs, grown.size, grown.isLocal]
    by_cases here : r = runAddr
    · rw [here]
      unfold NonFull
      rw [grown.found]
      simp only [true_and, ne_eq, not_true_eq_false, false_and, or_false, Option.some.injEq,
        exists_eq_left']
      exact and_congr_right fun _ => and_congr_right fun notLocal => same notLocal
    · simp [here]
  used := grown.used inv some_

end

theorem Grown.freed (list : Nat → ThreeTierList Nat) (grown : Grown m m' v' runAddr run run')
    (inv : m.Inv v) (notLocal : run'.isLocal = false)
    (keeps : ∀ idx, (list idx).Keeps fun r => m.NonFull idx r ∧ r ≠ runAddr) :
    Inv ({ m' with nonFullRuns := list }.freeRun runAddr) v' where
  toCore := by
    have core : Core { m' with nonFullRuns := list } v' :=
      ⟨grown.core.runs, grown.core.mutator, grown.core.local_, grown.core.localRun, grown.core.noLocal⟩
    exact core.freeRun grown.here notLocal
  lists idx := by
    have runs : ({ m' with nonFullRuns := list } : RunAllocator).runs =
        update m.runs runAddr (some run') := grown.runs
    refine (keeps idx).congr fun r => ?_
    rw [nonFull_freeRun, nonFull_of_runs runs]
    tauto
  used r run₁ here notLocal' := by
    have ⟨other, here'⟩ := freeRun_eq_some.mp here
    dsimp only at here'
    rw [grown.runs, Function.update_of_ne other] at here'
    exact inv.used r run₁ here' notLocal'

def placed (m : RunAllocator) (runAddr : Nat) (run : RunSlots) : Nat → Option RunSlots :=
  update m.runs runAddr (if run.isLocal = false ∧ run.isEmpty = true then none else some run)

theorem placed_of_ne (other : r ≠ runAddr) : placed m runAddr run r = m.runs r :=
  Function.update_of_ne other ..

/-- A run that is not freed stays. -/
theorem placed_eq_some : placed m runAddr run runAddr = some run' ↔
    ¬(run.isLocal = false ∧ run.isEmpty = true) ∧ run = run' := by
  rw [placed, Function.update_self]
  split
  next freed => simp [freed]
  next stays => simp [stays]

theorem placed_freed (notLocal : run.isLocal = false) (empty : run.isEmpty = true) :
    placed m runAddr run = update m.runs runAddr none := by
  rw [placed, if_pos ⟨notLocal, empty⟩]

theorem placed_kept (some_ : run.isLocal = false → run.isEmpty = false) :
    placed m runAddr run = update m.runs runAddr (some run) := by
  rw [placed, if_neg fun ⟨notLocal, empty⟩ => by rw [some_ notLocal] at empty; cases empty]

section

variable (grown : Grown m m' v' runAddr run run') (inv : m.Inv v)

include grown inv

/-- An empty run goes away, and leaves its list if it is in one. -/
theorem Grown.settle_empty (notLocal : run'.isLocal = false) (empty : run'.isEmpty = true) :
    ∃ m₂, m'.settle runAddr run' run.isFull = some m₂ ∧ m₂.Inv v' ∧ m₂.mem = m'.mem ∧
      m₂.runs = placed m runAddr run' := by
  have before := grown.isLocal.symm.trans notLocal
  have inList := grown.isInList inv
  rw [placed_freed notLocal empty]
  unfold RunAllocator.settle updateGlobalsAfterFree
  rw [notLocal, if_neg Bool.false_ne_true, if_pos empty]
  by_cases full : run.nFree = 0
  · have notIn : ¬m'.isInList runAddr run' = true := by
      rw [inList]
      omega
    have wasFull : run.isFull = true := by rw [RunSlots.isFull, decide_eq_true_iff, full]
    rw [if_neg notIn, wasFull]
    refine ⟨m'.freeRun runAddr, rfl, ?_, rfl, ?_⟩
    · refine grown.freed m'.nonFullRuns inv notLocal fun idx => ?_
      rw [grown.lists]
      refine (inv.lists idx).congr fun r => and_iff_left_of_imp ?_
      intro ⟨run₁, here, _, _, some_⟩ same
      rw [same, grown.found, Option.some.injEq] at here
      rw [← here] at some_
      omega
    · rw [RunAllocator.freeRun]
      dsimp only
      rw [grown.runs, Function.update_idem]
  · have isIn : m'.isInList runAddr run' = true := by
      rw [inList]
      exact ⟨before, by omega⟩
    have held : m.NonFull run'.mIdx runAddr := by
      rw [grown.size, nonFull_self grown.found]
      exact ⟨before, by omega⟩
    have others : ∀ idx, idx ≠ run'.mIdx → ∀ r,
        (m.NonFull idx r ∧ r ≠ runAddr ↔ m.NonFull idx r) := by
      intro idx other r
      refine and_iff_left_of_imp fun ⟨run₁, here, size, _⟩ same => other ?_
      rw [same, grown.found, Option.some.injEq] at here
      rw [grown.size, here, size]
    have ⟨list, erased, keeps⟩ := (inv.lists run'.mIdx).erase held
    rw [if_pos isIn, eraseRun, grown.lists, erased]
    refine ⟨(m'.putList run'.mIdx list).freeRun runAddr, rfl, ?_, rfl, ?_⟩
    · refine grown.freed (update m'.nonFullRuns run'.mIdx list) inv notLocal ?_
      rw [grown.lists]
      exact keeps_update inv.lists keeps others
    · rw [RunAllocator.freeRun, putList]
      dsimp only
      rw [grown.runs, Function.update_idem]

/-- A run that was full and is not comes into the list of its size. -/
theorem Grown.settle_inserted (notLocal : run'.isLocal = false) (some_ : run'.isEmpty = false)
    (full : run.nFree = 0) (notFull : 0 < run'.nFree) :
    ∃ m₂, m'.settle runAddr run' run.isFull = some m₂ ∧ m₂.Inv v' ∧ m₂.mem = m'.mem ∧
      m₂.runs = placed m runAddr run' := by
  have inList := grown.isInList inv
  have wasFull : run.isFull = true := by rw [RunSlots.isFull, decide_eq_true_iff, full]
  have isFull : run'.isFull = false := by
    rw [RunSlots.isFull, decide_eq_false_iff_not]
    omega
  have notIn : ¬m'.isInList runAddr run' = true := by
    rw [inList]
    omega
  have fresh : ¬m.NonFull run'.mIdx runAddr := by
    rw [grown.size, nonFull_self grown.found]
    omega
  have tracks := grown.core.runs runAddr run' grown.here
  have most := tracks.length_le
  rw [← tracks.count] at most
  have ⟨low, high⟩ := RunSlots.value_bounds (RunSlots.table_fits run'.mIdx tracks.place.known).2.1
    (Nat.le_trans (Nat.le_add_right _ _) most)
  have ⟨list, inserted, keeps⟩ := (inv.lists run'.mIdx).insert fresh low high
  rw [placed_kept fun _ => some_]
  unfold RunAllocator.settle updateGlobalsAfterFree
  rw [notLocal, if_neg Bool.false_ne_true, some_, if_neg Bool.false_ne_true, wasFull, isFull,
    if_pos (by rfl), if_neg notIn, insertRun, grown.lists, inserted]
  refine ⟨m'.putList run'.mIdx list, rfl, ?_, rfl, grown.runs⟩
  refine ⟨grown.core.putList run'.mIdx list, fun idx => ?_, grown.used inv fun _ => some_⟩
  have runs : (m'.putList run'.mIdx list).runs = update m.runs runAddr (some run') := grown.runs
  have lists : (m'.putList run'.mIdx list).nonFullRuns = update m.nonFullRuns run'.mIdx list := by
    rw [putList, grown.lists]
  rw [lists]
  refine keeps_update inv.lists (keeps.congr fun r => ?_) (fun i other r => ?_) idx
  · rw [nonFull_of_runs runs]
    by_cases here : r = runAddr
    · simp [here, notLocal, notFull]
    · simp [here]
  · rw [nonFull_of_runs runs]
    by_cases here : r = runAddr
    · rw [here]
      refine iff_of_false ?_ ?_
      · simp [other.symm]
      · intro ⟨run₁, found, size, _⟩
        rw [grown.found, Option.some.injEq] at found
        exact other (by rw [← size, ← found, grown.size])
    · simp [here]

theorem Grown.settle :
    ∃ m₂, m'.settle runAddr run' run.isFull = some m₂ ∧ m₂.Inv v' ∧ m₂.mem = m'.mem ∧
      m₂.runs = placed m runAddr run' := by
  cases isLocal : run'.isLocal with
  | true =>
      have isLocal' := grown.isLocal.symm.trans isLocal
      have some_ : run'.isLocal = false → run'.isEmpty = false := fun wrong => by
        rw [isLocal] at wrong
        cases wrong
      have inv' := grown.stays inv (fun wrong => by rw [isLocal'] at wrong; cases wrong) some_
      refine ⟨m', ?_, inv', rfl, by rw [placed_kept some_, grown.runs]⟩
      rw [RunAllocator.settle, updateGlobalsAfterFree, if_pos isLocal]
      rfl
  | false =>
      cases empty : run'.isEmpty with
      | true => exact grown.settle_empty inv isLocal empty
      | false =>
          by_cases becomes : run.nFree = 0 ∧ 0 < run'.nFree
          · exact grown.settle_inserted inv isLocal empty becomes.1 becomes.2
          · have more := grown.more
            have inv' := grown.stays inv (fun _ => by omega) fun _ => empty
            refine ⟨m', ?_, inv', rfl, by rw [placed_kept fun _ => empty, grown.runs]⟩
            have neither : ¬(run.isFull && !run'.isFull) = true := by
              simp only [RunSlots.isFull, Bool.and_eq_true, decide_eq_true_iff, Bool.not_eq_true',
                decide_eq_false_iff_not]
              omega
            rw [RunAllocator.settle, updateGlobalsAfterFree, isLocal, if_neg Bool.false_ne_true, empty,
              if_neg Bool.false_ne_true, if_neg neither]
            rfl

end

/-! The sweeps. -/

def freed (m : RunAllocator) (runAddr : Nat) (run : RunSlots) (isObjectMarked : Nat → Bool) : List Nat :=
  RunSlots.unmarked isObjectMarked m.mem (run.slots runAddr)

def Lists.release (v : Lists) (runAddr : Nat) (slots : List Nat) : Lists :=
  { v with own := update v.own runAddr (slots.reverse ++ v.own runAddr) }

/-- What is left of the slots of a run, and what was released. -/
structure SweptTo (m : RunAllocator) (runAddr : Nat) (run : RunSlots) (isObjectMarked : Nat → Bool)
    (releasedSize : Nat) (mem : SlotWords) (run' : RunSlots) : Prop where
  fields : run' = { run with
    nFree := run.nFree + (m.freed runAddr run isObjectMarked).length
    freeList := run'.freeList }
  allocated : ∀ a ∈ run.slots runAddr,
    mem.isAllocatedByAllocator a = (m.mem.isAllocatedByAllocator a && isObjectMarked a)
  others : ∀ a, a ∉ m.freed runAddr run isObjectMarked → mem a = m.mem a
  size : releasedSize = (m.freed runAddr run isObjectMarked).length * run.getRunSize

theorem Core.sweptTo (core : m.Core v) (found : m.runs runAddr = some run)
    (isObjectMarked : Nat → Bool) :
    m.SweptTo runAddr run isObjectMarked (run.sweepSlots m.mem runAddr isObjectMarked).releasedSize
      (run.sweepSlots m.mem runAddr isObjectMarked).mem
      (run.sweepSlots m.mem runAddr isObjectMarked).run := by
  have tracks := core.runs runAddr run found
  have released := tracks.releases isObjectMarked
  exact ⟨released.run, fun a member => tracks.swept_allocated isObjectMarked member, released.kept,
    by simpa [freed] using released.size⟩

/-- A sweep of the slots, before the lists follow. -/
theorem Core.grown (core : m.Core v) (found : m.runs runAddr = some run) {releasedSize : Nat}
    {mem : SlotWords} (swept : m.SweptTo runAddr run isObjectMarked releasedSize mem run')
    (tracks : run'.Tracks runAddr mem
      ((m.freed runAddr run isObjectMarked).reverse ++ v.own runAddr) (lentOf v run)) :
    Grown m ({ m with mem := mem }.putRun runAddr run')
      (v.release runAddr (m.freed runAddr run isObjectMarked)) runAddr run run' := by
  have size : run'.mIdx = run.mIdx := by rw [swept.fields]
  have isLocal : run'.isLocal = run.isLocal := by rw [swept.fields]
  refine {
    core := core.changeRun found size isLocal tracks (fun a outside => ?_) fun a free => ?_
    found := found
    runs := rfl
    lists := rfl
    size := size
    isLocal := isLocal
    more := by
      rw [swept.fields]
      exact Nat.le_add_right _ _ }
  · exact swept.others a fun member => outside (List.mem_of_mem_filter member)
  · refine swept.others a fun member => ?_
    have allocated := (List.mem_filter.mp member).2
    rw [free] at allocated
    cases allocated

/-- The run after the sweep, and the place it finds. -/
structure Sweeps (m : RunAllocator) (v : Lists) (runAddr : Nat) (run : RunSlots)
    (isObjectMarked : Nat → Bool) (releasedSize : Nat) (m' : RunAllocator) (run' : RunSlots) : Prop where
  swept : m.SweptTo runAddr run isObjectMarked releasedSize m'.mem run'
  tracks : run'.Tracks runAddr m'.mem ((m.freed runAddr run isObjectMarked).reverse ++ v.own runAddr)
    (lentOf v run)
  runs : m'.runs = placed m runAddr run'
  inv : ∃ v', m'.Inv v'

section

variable (inv : m.Inv v) (found : m.runs runAddr = some run)

include inv found

theorem Inv.sweepRun (isObjectMarked : Nat → Bool) :
    ∃ releasedSize m' run', m.sweepRun runAddr isObjectMarked = some (releasedSize, m') ∧
      Sweeps m v runAddr run isObjectMarked releasedSize m' run' := by
  have swept := inv.sweptTo found isObjectMarked
  have tracks := (inv.runs runAddr run found).swept isObjectMarked
  have ⟨m', settled, inv', mem, runs⟩ := (inv.grown found swept tracks).settle inv
  refine ⟨(run.sweepSlots m.mem runAddr isObjectMarked).releasedSize, m',
    (run.sweepSlots m.mem runAddr isObjectMarked).run, ?_, ?_⟩
  · rw [RunAllocator.sweepRun, found]
    simp only [Option.bind_eq_bind, Option.bind_some, settled]
  · have same : m'.mem = (run.sweepSlots m.mem runAddr isObjectMarked).mem := mem
    rw [← same] at swept tracks
    exact ⟨swept, tracks, runs, _, inv'⟩

/-- A run that is locked is in the list of its size, and the concurrent sweep does for it what the
other sweep does. -/
theorem Inv.concurrentSweepRun_eq (isObjectMarked : Nat → Bool) :
    m.concurrentSweepRun runAddr isObjectMarked = m.sweepRun runAddr isObjectMarked := by
  have swept := inv.sweptTo found isObjectMarked
  have grown := inv.grown found swept ((inv.runs runAddr run found).swept isObjectMarked)
  rw [RunAllocator.concurrentSweepRun, RunAllocator.sweepRun, found]
  simp only [Option.bind_eq_bind, Option.bind_some]
  by_cases locked : m.isInList runAddr run = true
  · rw [if_pos locked]
    have after : (({ m with mem := (run.sweepSlots m.mem runAddr isObjectMarked).mem } :
        RunAllocator).putRun runAddr (run.sweepSlots m.mem runAddr isObjectMarked).run).isInList runAddr
          (run.sweepSlots m.mem runAddr isObjectMarked).run = true := by
      rw [RunAllocator.isInList, grown.size]
      exact locked
    have ⟨isLocal, some_⟩ := (grown.isInList inv).mp after
    have wasFull : run.isFull = false := by
      rw [RunSlots.isFull, decide_eq_false_iff_not]
      omega
    rw [RunAllocator.settle, updateGlobalsAfterFree, grown.isLocal, isLocal,
      if_neg Bool.false_ne_true, wasFull, if_pos after]
    by_cases empty : (run.sweepSlots m.mem runAddr isObjectMarked).run.isEmpty = true
    · rw [if_pos empty, if_pos empty, Option.map_map]
      rfl
    · rw [if_neg empty, if_neg empty]
      rfl
  · rw [if_neg locked]

theorem Inv.sweepLocal (isLocal : run.isLocal = true) (isObjectMarked : Nat → Bool) :
    ∃ releasedSize m' run',
      m.sweepRunForConSweepPrologue runAddr isObjectMarked = some (releasedSize, m') ∧
        Sweeps m v runAddr run isObjectMarked releasedSize m' run' := by
  have swept := inv.sweptTo found isObjectMarked
  have tracks := (inv.runs runAddr run found).swept isObjectMarked
  have grown := inv.grown found swept tracks
  have isLocal' := grown.isLocal.trans isLocal
  have kept : (run.sweepSlots m.mem runAddr isObjectMarked).run.isLocal = false →
      (run.sweepSlots m.mem runAddr isObjectMarked).run.isEmpty = false := fun wrong => by
    rw [isLocal'] at wrong
    cases wrong
  have inv' := grown.stays inv (fun wrong => by rw [isLocal] at wrong; cases wrong) kept
  refine ⟨_, _, _, ?_, swept, tracks, ?_, _, inv'⟩
  · rw [RunAllocator.sweepRunForConSweepPrologue, found]
    rfl
  · rw [placed_kept kept]
    rfl

end

end PrimJs.RunAllocator
