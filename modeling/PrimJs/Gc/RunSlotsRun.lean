import PrimJs.Gc.RunSlotsAllocation
import PrimJs.Gc.RunSlotsSettle

/-! Allocation and sweeping, over any history. -/

namespace PrimJs.RunAllocator

open Function (update)

inductive Op
  /-- With the page that `AllocRun` would give, and the header of the object. -/
  | allocateObj (idx : Nat) (page : Option Nat) (header : BitVec 63)
  | sweepRun (runAddr : Nat) (isObjectMarked : Nat → Bool)
  | concurrentSweepRun (runAddr : Nat) (isObjectMarked : Nat → Bool)
  | sweepRunForConSweepPrologue (runAddr : Nat) (isObjectMarked : Nat → Bool)
  | releaseEmptyLocalrun (idx : Nat)
  | setConcurrentSweepRunning (state : Bool)

def apply (m : RunAllocator) : Op → Option (Nat × RunAllocator)
  | .allocateObj idx page header => m.allocateObj idx page header
  | .sweepRun runAddr isObjectMarked => m.sweepRun runAddr isObjectMarked
  | .concurrentSweepRun runAddr isObjectMarked => m.concurrentSweepRun runAddr isObjectMarked
  | .sweepRunForConSweepPrologue runAddr isObjectMarked =>
      m.sweepRunForConSweepPrologue runAddr isObjectMarked
  | .releaseEmptyLocalrun idx => (m.releaseEmptyLocalrun idx).map fun m => (0, m)
  | .setConcurrentSweepRunning state => some (0, { m with concurrentSweepIsRunning := state })

/-- Pages are free, runs are swept that are there, and the prologue sweeps local ones. -/
def Legal (m : RunAllocator) : Op → Prop
  | .allocateObj idx page _ => idx < 57 ∧ ∀ runAddr ∈ page, m.FreshPage runAddr
  | .sweepRun runAddr _ | .concurrentSweepRun runAddr _ => (m.runs runAddr).isSome = true
  | .sweepRunForConSweepPrologue runAddr _ => ((m.runs runAddr).any RunSlots.isLocal) = true
  | _ => True

instance decidableLegal (m : RunAllocator) : ∀ op, Decidable (m.Legal op)
  | .allocateObj idx page _ =>
      inferInstanceAs (Decidable (idx < 57 ∧ ∀ runAddr ∈ page, m.FreshPage runAddr))
  | .sweepRun runAddr _ | .concurrentSweepRun runAddr _ =>
      inferInstanceAs (Decidable ((m.runs runAddr).isSome = true))
  | .sweepRunForConSweepPrologue runAddr _ =>
      inferInstanceAs (Decidable (((m.runs runAddr).any RunSlots.isLocal) = true))
  | .releaseEmptyLocalrun _ | .setConcurrentSweepRunning _ => inferInstanceAs (Decidable True)

/-- A run that is kept has slots in use, and is in the list of its size unless it is full. -/
def Placed (m : RunAllocator) (runAddr : Nat) : Prop :=
  ∀ run ∈ m.runs runAddr, run.isEmpty = false ∧ (m.isInList runAddr run = true ↔ run.isFull = false)

instance decidablePlaced (m : RunAllocator) (runAddr : Nat) : Decidable (m.Placed runAddr) :=
  inferInstanceAs (Decidable (∀ run ∈ m.runs runAddr,
    run.isEmpty = false ∧ (m.isInList runAddr run = true ↔ run.isFull = false)))

/-- The slots of the run that are marked stay, the others that were allocated are in its free list
now, and all else is as before. -/
structure SweepsRun (m : RunAllocator) (runAddr : Nat) (isObjectMarked : Nat → Bool)
    (releasedSize : Nat) (m' : RunAllocator) (run run' : RunSlots) : Prop where
  found : m.runs runAddr = some run
  swept : m.SweptTo runAddr run isObjectMarked releasedSize m'.mem run'
  free : ∃ own lent, run.Tracks runAddr m.mem own lent ∧
    run'.Tracks runAddr m'.mem ((m.freed runAddr run isObjectMarked).reverse ++ own) lent
  runs : m'.runs = m.placed runAddr run'
  placed : run.isLocal = false → m'.Placed runAddr
  kept : run.isLocal = true → m'.runs runAddr = some run' ∧ m'.isInList runAddr run' = false
  live : ∀ a, m'.Live a ↔ m.Live a ∧ (a ∈ run.slots runAddr → isObjectMarked a = true)

def Does (m : RunAllocator) : Op → Nat → RunAllocator → Prop
  | .allocateObj .., addr, m' =>
      (addr = 0 → ∀ a, m'.Live a ↔ m.Live a) ∧
        (addr ≠ 0 → ¬m.Live addr ∧ ∀ a, m'.Live a ↔ m.Live a ∨ a = addr)
  | .sweepRun runAddr isObjectMarked, releasedSize, m'
  | .concurrentSweepRun runAddr isObjectMarked, releasedSize, m'
  | .sweepRunForConSweepPrologue runAddr isObjectMarked, releasedSize, m' =>
      ∃ run run', m.SweepsRun runAddr isObjectMarked releasedSize m' run run'
  | .releaseEmptyLocalrun _, _, m' | .setConcurrentSweepRunning _, _, m' => ∀ a, m'.Live a ↔ m.Live a

/-- Every run has its free slots in its list, or they are lent, and it is in one list at most. -/
structure Consistent (m : RunAllocator) : Prop where
  inv : ∃ v, m.Inv v
  once : ∀ idx idx' r, (m.nonFullRuns idx).isInList r = true → (m.nonFullRuns idx').isInList r = true →
    idx = idx'

def empty : RunAllocator where
  mem _ := 0
  runs _ := none
  nonFullRuns _ := ⟨none, none, none, none, fun _ => none, fun _ => none, fun _ => false⟩
  localRuns _ := none
  freeLists _ := .empty
  freeListSizes _ := 0
  concurrentSweepIsRunning := false

variable {m m' : RunAllocator} {v : Lists} {run run' : RunSlots} {runAddr idx a : Nat}
  {isObjectMarked : Nat → Bool} {releasedSize : Nat}

theorem Inv.consistent (inv : m.Inv v) : m.Consistent where
  inv := ⟨v, inv⟩
  once idx idx' r inList inList' := by
    have ⟨run, here, size, _⟩ := (inv.lists idx).isInList.mp inList
    have ⟨run', here', size', _⟩ := (inv.lists idx').isInList.mp inList'
    rw [here, Option.some.injEq] at here'
    rw [← size, ← size', here']

theorem empty_inv : empty.Inv ⟨fun _ => [], fun _ => []⟩ where
  runs _ _ wrong := nomatch wrong
  mutator _ := ⟨FreeList.empty_spells, rfl⟩
  local_ _ _ wrong := nomatch wrong
  localRun _ _ wrong := nomatch wrong
  noLocal _ _ := rfl
  lists idx := by
    refine ⟨⟨[], [], []⟩, ⟨⟨rfl, rfl, rfl, rfl, fun _ => ⟨rfl, rfl⟩⟩, trivial, List.nodup_nil, ?_⟩, ?_⟩
    · simp [empty, Tiers.nodes]
    · simp [NonFull, empty, Tiers.nodes]
  used _ _ wrong := nomatch wrong

/-! Sweeping. -/

theorem Inv.placed (inv : m.Inv v) (found : m.runs runAddr = some run) (notLocal : run.isLocal = false) :
    run.isEmpty = false ∧ (m.isInList runAddr run = true ↔ run.isFull = false) := by
  have used := inv.used runAddr run found notLocal
  constructor
  · rw [RunSlots.isEmpty, decide_eq_false_iff_not]
    omega
  · rw [RunAllocator.isInList, (inv.lists run.mIdx).isInList, nonFull_self found, RunSlots.isFull,
      decide_eq_false_iff_not]
    simp [notLocal, Nat.pos_iff_ne_zero]

section

variable (inv : m.Inv v) (found : m.runs runAddr = some run)
  (sweeps : m.Sweeps v runAddr run isObjectMarked releasedSize m' run')

include inv found sweeps

/-- The slots of other runs are not swept. -/
theorem Sweeps.live (a : Nat) :
    m'.Live a ↔ m.Live a ∧ (a ∈ run.slots runAddr → isObjectMarked a = true) := by
  have size : run'.mIdx = run.mIdx := by rw [sweeps.swept.fields]
  have outside : ∀ r run₁, r ≠ runAddr → m.runs r = some run₁ → a ∈ run₁.slots r →
      a ∉ run.slots runAddr := by
    intro r run₁ other here member member'
    exact inv.other_slot found here other member' member rfl
  have bits : a ∉ run.slots runAddr →
      m'.mem.isAllocatedByAllocator a = m.mem.isAllocatedByAllocator a := by
    intro notHere
    have same := sweeps.swept.others a fun freed => notHere (List.mem_of_mem_filter freed)
    rw [SlotWords.isAllocatedByAllocator, same, SlotWords.isAllocatedByAllocator]
  unfold Live
  rw [sweeps.runs]
  constructor
  · rintro ⟨r, run₁, here, member, allocated⟩
    by_cases same : r = runAddr
    · rw [same, placed_eq_some] at here
      rw [same, ← here.2, RunSlots.slots_of_mIdx size] at member
      rw [sweeps.swept.allocated a member, Bool.and_eq_true] at allocated
      exact ⟨⟨runAddr, run, found, member, allocated.1⟩, fun _ => allocated.2⟩
    · rw [placed_of_ne same] at here
      have notHere := outside r run₁ same here member
      rw [bits notHere] at allocated
      exact ⟨⟨r, run₁, here, member, allocated⟩, fun wrong => absurd wrong notHere⟩
  · rintro ⟨⟨r, run₁, here, member, allocated⟩, marked⟩
    by_cases same : r = runAddr
    · rw [same, found, Option.some.injEq] at here
      rw [same, ← here] at member
      have stays : m'.mem.isAllocatedByAllocator a = true := by
        rw [sweeps.swept.allocated a member, allocated, marked member]
        rfl
      rw [← RunSlots.slots_of_mIdx size] at member
      refine ⟨runAddr, run', placed_eq_some.mpr ⟨fun both => ?_, rfl⟩, member, stays⟩
      -- An empty run has no slot that is allocated.
      rw [sweeps.tracks.notAllocated (sweeps.tracks.own_all both.2 a member)] at stays
      cases stays
    · refine ⟨r, run₁, (placed_of_ne same).trans here, member, ?_⟩
      rw [bits (outside r run₁ same here member), allocated]

theorem Sweeps.sweepsRun :
    m.SweepsRun runAddr isObjectMarked releasedSize m' run run' where
  found := found
  swept := sweeps.swept
  free := ⟨v.own runAddr, lentOf v run, inv.runs runAddr run found, sweeps.tracks⟩
  runs := sweeps.runs
  placed notLocal run₁ here := by
    have ⟨v', inv'⟩ := sweeps.inv
    have isRun := here
    rw [Option.mem_def, sweeps.runs, placed_eq_some] at isRun
    refine inv'.placed here ?_
    rw [← isRun.2, sweeps.swept.fields]
    exact notLocal
  kept isLocal := by
    have ⟨v', inv'⟩ := sweeps.inv
    have isLocal' : run'.isLocal = true := by
      rw [sweeps.swept.fields]
      exact isLocal
    have here : m'.runs runAddr = some run' := by
      rw [sweeps.runs, placed_eq_some]
      simp [isLocal']
    refine ⟨here, ?_⟩
    rw [← Bool.not_eq_true, RunAllocator.isInList, (inv'.lists run'.mIdx).isInList, nonFull_self here]
    simp [isLocal']
  live := sweeps.live inv found

end

/-! Other operations. -/

theorem Inv.allocateObj (inv : m.Inv v) (known : idx < 57) (page : Option Nat)
    (fresh : ∀ runAddr ∈ page, m.FreshPage runAddr) (header : BitVec 63) :
    ∃ addr m', m.allocateObj idx page header = some (addr, m') ∧ (∃ v', m'.Inv v') ∧
      m.Does (.allocateObj idx page header) addr m' := by
  have ⟨addr, m₁, allocated, gives⟩ := inv.allocFromLocalRun known page fresh
  rw [RunAllocator.allocateObj, allocated]
  by_cases null : addr = 0
  · have ⟨inv', same⟩ := gives.nothing null
    refine ⟨0, m₁, by simp [null], inv', fun _ => same, fun wrong => absurd rfl wrong⟩
  · have ⟨fresh, written⟩ := gives.something null
    have ⟨inv', live⟩ := written header
    refine ⟨addr, _, by simp [null], inv', fun wrong => absurd wrong null, fun _ => ⟨fresh, live⟩⟩

theorem Core.releaseLocal (core : m.Core v) (localRun : m.localRuns idx = some runAddr)
    (found : m.runs runAddr = some run) (size : run.mIdx = idx) :
    Core ({ m with
      localRuns := update m.localRuns idx none
      freeListSizes := update m.freeListSizes idx 0
      freeLists := update m.freeLists idx .empty }.freeRun runAddr) ⟨v.own, update v.lent idx []⟩ := by
  have notHere : ∀ r run₁, m.runs r = some run₁ → r ≠ runAddr → run₁.isLocal = true →
      run₁.mIdx ≠ idx := by
    intro r run₁ here other isLocal size'
    have localRun' := (core.local_ r run₁ here).mp isLocal
    rw [size', localRun, Option.some.injEq] at localRun'
    exact other localRun'.symm
  refine ⟨fun r run₁ here => ?_, fun idx' => ?_, fun r run₁ here => ?_, fun idx' r here => ?_,
    fun idx' none_ => ?_⟩
  · have ⟨other, here'⟩ := freeRun_eq_some.mp here
    rw [lentOf_update (notHere r run₁ here' other)]
    exact core.runs r run₁ here'
  · have spells := core.mutator idx'
    dsimp only [RunAllocator.freeRun]
    by_cases same : idx' = idx
    · rw [same, Function.update_self, Function.update_self, Function.update_self]
      exact ⟨FreeList.empty_spells, rfl⟩
    · rw [Function.update_of_ne same, Function.update_of_ne same, Function.update_of_ne same]
      exact spells
  · have ⟨other, here'⟩ := freeRun_eq_some.mp here
    dsimp only [RunAllocator.freeRun]
    by_cases size' : run₁.mIdx = idx
    · rw [size', Function.update_self]
      exact iff_of_false (fun isLocal => notHere r run₁ here' other isLocal size') (by simp)
    · rw [Function.update_of_ne size']
      exact core.local_ r run₁ here'
  · dsimp only [RunAllocator.freeRun] at here
    by_cases same : idx' = idx
    · rw [same, Function.update_self] at here
      cases here
    · rw [Function.update_of_ne same] at here
      have ⟨run₁, found₁, size₁⟩ := core.localRun idx' r here
      have other : r ≠ runAddr := by
        intro eq
        rw [eq, found, Option.some.injEq] at found₁
        exact same (by rw [← size₁, ← found₁, size])
      exact ⟨run₁, freeRun_eq_some.mpr ⟨other, found₁⟩, size₁⟩
  · dsimp only [RunAllocator.freeRun] at none_
    dsimp only
    by_cases same : idx' = idx
    · rw [same, Function.update_self]
    · rw [Function.update_of_ne same] at none_ ⊢
      exact core.noLocal idx' none_

/-- A local run without objects goes away with the slots that were lent. -/
theorem Inv.releaseEmptyLocalrun (inv : m.Inv v) (idx : Nat) :
    ∃ m', m.releaseEmptyLocalrun idx = some m' ∧ (∃ v', m'.Inv v') ∧ ∀ a, m'.Live a ↔ m.Live a := by
  unfold RunAllocator.releaseEmptyLocalrun
  cases localRun : m.localRuns idx with
  | none => exact ⟨m, rfl, ⟨v, inv⟩, fun _ => Iff.rfl⟩
  | some runAddr =>
      have ⟨run, found, size⟩ := inv.localRun idx runAddr localRun
      simp only [found, Option.bind_eq_bind, Option.bind_some]
      by_cases empty : m.localRunIsEmpty runAddr run = true
      · rw [if_pos empty]
        have isLocal := (inv.local_ runAddr run found).mpr (by rw [size, localRun])
        have tracks := inv.runs runAddr run found
        have unused : ∀ a ∈ run.slots runAddr, m.mem.isAllocatedByAllocator a = false := by
          intro a member
          rw [localRunIsEmpty, Bool.or_eq_true] at empty
          rcases empty with isEmpty | none_
          · exact tracks.notAllocated (tracks.own_all isEmpty a member)
          · simpa using List.all_eq_true.mp none_ a member
        refine ⟨_, rfl, ⟨_, inv.releaseLocal localRun found size, fun idx' => ?_,
          fun r run₁ here => inv.used r run₁ (freeRun_eq_some.mp here).2⟩, fun a => ⟨?_, ?_⟩⟩
        · refine (inv.lists idx').congr fun r => nonFull_freeRun.trans (and_iff_left_of_imp ?_)
          intro ⟨run₁, here, _, notLocal, _⟩ same
          have here' : m.runs r = some run₁ := here
          rw [same, found, Option.some.injEq] at here'
          rw [← here', isLocal] at notLocal
          cases notLocal
        · intro ⟨r, run₁, here, member, allocated⟩
          exact ⟨r, run₁, (freeRun_eq_some.mp here).2, member, allocated⟩
        · intro ⟨r, run₁, here, member, allocated⟩
          refine ⟨r, run₁, freeRun_eq_some.mpr ⟨fun same => ?_, here⟩, member, allocated⟩
          rw [same, found, Option.some.injEq] at here
          rw [same, ← here] at member
          rw [unused a member] at allocated
          cases allocated
      · rw [if_neg empty]
        exact ⟨m, rfl, ⟨v, inv⟩, fun _ => Iff.rfl⟩

theorem apply_spec (m : RunAllocator) (op : Op) (consistent : m.Consistent) (legal : m.Legal op) :
    ∃ result m', m.apply op = some (result, m') ∧ m'.Consistent ∧ m.Does op result m' := by
  have ⟨v, inv⟩ := consistent.inv
  cases op with
  | allocateObj idx page header =>
      have ⟨addr, m', done, ⟨v', inv'⟩, does⟩ := inv.allocateObj legal.1 page legal.2 header
      exact ⟨addr, m', done, inv'.consistent, does⟩
  | sweepRun runAddr isObjectMarked =>
      have ⟨run, found⟩ := Option.isSome_iff_exists.mp legal
      have ⟨size, m', run', done, sweeps⟩ := inv.sweepRun found isObjectMarked
      have ⟨v', inv'⟩ := sweeps.inv
      exact ⟨size, m', done, inv'.consistent, run, run', sweeps.sweepsRun inv found⟩
  | concurrentSweepRun runAddr isObjectMarked =>
      have ⟨run, found⟩ := Option.isSome_iff_exists.mp legal
      have ⟨size, m', run', done, sweeps⟩ := inv.sweepRun found isObjectMarked
      have ⟨v', inv'⟩ := sweeps.inv
      have done' := (inv.concurrentSweepRun_eq found isObjectMarked).trans done
      exact ⟨size, m', done', inv'.consistent, run, run', sweeps.sweepsRun inv found⟩
  | sweepRunForConSweepPrologue runAddr isObjectMarked =>
      have ⟨run, found, isLocal⟩ := (Option.any_eq_true _ _).mp legal
      have ⟨size, m', run', done, sweeps⟩ := inv.sweepLocal found isLocal isObjectMarked
      have ⟨v', inv'⟩ := sweeps.inv
      exact ⟨size, m', done, inv'.consistent, run, run', sweeps.sweepsRun inv found⟩
  | releaseEmptyLocalrun idx =>
      have ⟨m', done, ⟨v', inv'⟩, same⟩ := inv.releaseEmptyLocalrun idx
      refine ⟨0, m', ?_, inv'.consistent, same⟩
      rw [apply, done]
      rfl
  | setConcurrentSweepRunning state =>
      have inv' : Inv { m with concurrentSweepIsRunning := state } v :=
        ⟨⟨inv.runs, inv.mutator, inv.local_, inv.localRun, inv.noLocal⟩, inv.lists, inv.used⟩
      exact ⟨0, _, rfl, inv'.consistent, fun _ => Iff.rfl⟩

/-- Whatever is allocated and swept, a sweep frees the slots that are not marked, and no slot is given
that is allocated. -/
theorem runs_sweep (m : RunAllocator) (consistent : m.Consistent) (ops : List Op)
    (legal : OperationRun.Along apply Legal m ops) : OperationRun.Runs apply Consistent Does m ops :=
  OperationRun.runs_of_along (fun _ consistent => consistent) apply_spec ops m consistent legal

/-- A run of two slots is filled, given back, swept twice, and taken again when it has one object;
the next run is swept by the prologue and released. -/
theorem runs_sweep_reused : OperationRun.Runs apply Consistent Does empty
    [.allocateObj 56 (some 0x4000) 5, .allocateObj 56 none 6, .allocateObj 56 (some 0x8000) 7,
      .sweepRun 0x4000 fun a => a == 0x4028, .setConcurrentSweepRunning true,
      .sweepRunForConSweepPrologue 0x8000 fun _ => false, .releaseEmptyLocalrun 56,
      .setConcurrentSweepRunning false, .allocateObj 56 none 8, .allocateObj 56 (some 0x8000) 9,
      .concurrentSweepRun 0x4000 fun _ => false] :=
  runs_sweep empty empty_inv.consistent _ (by decide +kernel)

/-- A local run that becomes empty is neither freed nor in a list. -/
theorem sweepRun_keeps_local : ∃ m,
    OperationRun.final apply empty [.allocateObj 56 (some 0x4000) 5, .allocateObj 56 none 6,
      .sweepRun 0x4000 fun _ => false] = some m ∧
      (m.runs 0x4000).any RunSlots.isEmpty = true ∧ ¬m.Placed 0x4000 := by
  have reached : ((OperationRun.final apply empty [.allocateObj 56 (some 0x4000) 5,
      .allocateObj 56 none 6, .sweepRun 0x4000 fun _ => false]).any fun m =>
        (m.runs 0x4000).any RunSlots.isEmpty && !decide (m.Placed 0x4000)) = true := by
    decide +kernel
  have ⟨m, isM, notPlaced⟩ := (Option.any_eq_true _ _).mp reached
  exact ⟨m, isM, by simpa using notPlaced⟩

end PrimJs.RunAllocator
