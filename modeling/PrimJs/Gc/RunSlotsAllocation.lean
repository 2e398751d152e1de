import PrimJs.Gc.RunSlotsInvariant

/-! Allocation from the runs. -/

namespace PrimJs

namespace RunSlots

variable {run run' : RunSlots} {runAddr : Nat} {mem mem' : SlotWords} {own rest : List Nat} {a : Nat}

theorem slots_of_mIdx (same : run'.mIdx = run.mIdx) : run'.slots runAddr = run.slots runAddr := by
  rw [slots, getRunSize, getMaxSlots, same]
  rfl

/-- The mutator takes a slot that was lent, and writes its header. -/
theorem Tracks.take (tracks : run.Tracks runAddr mem own (a :: rest)) (header : BitVec 63) :
    run.Tracks runAddr (Function.update mem a (header.cons true)) own rest where
  place := tracks.place
  init := tracks.init
  spells := by
    refine tracks.spells.congr fun b member => Function.update_of_ne (fun same => ?_) _ _
    have apart := (List.nodup_append.mp tracks.nodup).2.2
    exact apart b member a List.mem_cons_self same
  count := tracks.count
  nodup := (List.nodup_cons.mp (List.nodup_middle.mp tracks.nodup)).2
  sub b member := by
    refine tracks.sub b ?_
    simp only [List.mem_append, List.mem_cons] at member ⊢
    tauto
  free b member := by
    have fresh := (List.nodup_cons.mp (List.nodup_middle.mp tracks.nodup)).1
    by_cases same : b = a
    · rw [same, SlotWords.isAllocatedByAllocator, Function.update_self, BitVec.getLsbD_cons]
      simp [fresh]
    · rw [SlotWords.isAllocatedByAllocator, Function.update_of_ne same,
        ← SlotWords.isAllocatedByAllocator, tracks.free b member]
      simp [same]

/-- All the slots of a run are lent. -/
theorem Tracks.lend (tracks : run.Tracks runAddr mem own [])
    (kept : ∀ a, a ∉ own → mem' a = mem a)
    (free : ∀ a ∈ own, mem'.isAllocatedByAllocator a = false) :
    ({ run with
      isLocal := true
      nFree := 0
      freeList := .empty } : RunSlots).Tracks runAddr mem' [] own where
  place := ⟨tracks.place.known, tracks.place.page, tracks.place.notNull, tracks.place.small⟩
  init := tracks.init
  spells := FreeList.empty_spells
  count := rfl
  nodup := by simpa using tracks.nodup
  sub a member := tracks.sub a (by simpa using member)
  free a member := by
    have before := tracks.free a member
    rw [List.append_nil] at before
    rw [List.nil_append]
    by_cases inOwn : a ∈ own
    · exact iff_of_true (free a inOwn) inOwn
    · rw [SlotWords.isAllocatedByAllocator, kept a inOwn, ← SlotWords.isAllocatedByAllocator, before]

end RunSlots

namespace RunAllocator

open Function (update)

variable {m m' : RunAllocator} {v v' : Lists} {run run' : RunSlots} {runAddr r idx a b : Nat}
  {rest : List Nat}

def Live (m : RunAllocator) (a : Nat) : Prop :=
  ∃ r run, m.runs r = some run ∧ a ∈ run.slots r ∧ m.mem.isAllocatedByAllocator a = true

theorem Live.mono (live : m.Live a)
    (runs : ∀ r run, m.runs r = some run → ∃ run', m'.runs r = some run' ∧ run'.mIdx = run.mIdx)
    (bits : m'.mem.isAllocatedByAllocator a = m.mem.isAllocatedByAllocator a) : m'.Live a := by
  have ⟨r, run, here, member, allocated⟩ := live
  have ⟨run', here', size⟩ := runs r run here
  exact ⟨r, run', here', by rwa [RunSlots.slots_of_mIdx size], bits.trans allocated⟩

/-- A run is changed in place, and no slot is allocated or released. -/
theorem live_putRun (found : m.runs runAddr = some run)
    (runs : m'.runs = update m.runs runAddr (some run')) (size : run'.mIdx = run.mIdx)
    (bits : m'.mem.isAllocatedByAllocator a = m.mem.isAllocatedByAllocator a) :
    m'.Live a ↔ m.Live a := by
  constructor
  · refine fun live => live.mono (fun r run₁ here => ?_) bits.symm
    rw [runs] at here
    by_cases same : r = runAddr
    · rw [same, Function.update_self, Option.some.injEq] at here
      exact ⟨run, by rw [same, found], by rw [← here, size]⟩
    · rw [Function.update_of_ne same] at here
      exact ⟨run₁, here, rfl⟩
  · refine fun live => live.mono (fun r run₁ here => ?_) bits
    rw [runs]
    by_cases same : r = runAddr
    · rw [same, found, Option.some.injEq] at here
      exact ⟨run', by rw [same, Function.update_self], by rw [← here, size]⟩
    · exact ⟨run₁, by rw [Function.update_of_ne same, here], rfl⟩

/-! A slot from the list of the mutator. -/

/-- Slots of another run are other slots. -/
theorem Core.other_slot (core : m.Core v) (found : m.runs runAddr = some run)
    (here : m.runs r = some run') (other : r ≠ runAddr) (member : a ∈ run.slots runAddr)
    (member' : b ∈ run'.slots r) : b ≠ a := by
  intro same
  rw [same] at member'
  exact (core.runs r run' here).place.apart (core.runs runAddr run found).place other member' member

/-- The lists of other sizes have other slots. -/
theorem Core.other_lent {idx' : Nat} (core : m.Core v) (found : m.runs runAddr = some run)
    (member : a ∈ run.slots runAddr) (member' : b ∈ v.lent idx') (other : idx' ≠ run.mIdx) :
    b ≠ a := by
  have ⟨r, run', _, here, size, _, inSlots, _⟩ := core.lent_spec member'
  refine core.other_slot found here (fun same => other ?_) member inSlots
  rw [same, found, Option.some.injEq] at here
  rw [here, size]

/-- The lent slots of a run do not change with the list of another size. -/
theorem lentOf_update {own : Nat → List Nat} {slots : List Nat}
    (other : run.isLocal = true → run.mIdx ≠ idx) :
    lentOf ⟨own, update v.lent idx slots⟩ run = lentOf v run := by
  unfold lentOf
  by_cases isLocal : run.isLocal = true
  · rw [if_pos isLocal, if_pos isLocal]
    exact Function.update_of_ne (other isLocal) ..
  · rw [if_neg isLocal, if_neg isLocal]

theorem Core.take (core : m.Core v) (first : v.lent idx = a :: rest) {freeList : FreeList}
    (spells : freeList.Spells m.mem rest) (header : BitVec 63) :
    Core { m with
      mem := update m.mem a (header.cons true)
      freeLists := update m.freeLists idx freeList
      freeListSizes := update m.freeListSizes idx (m.freeListSizes idx - 1) }
      ⟨v.own, update v.lent idx rest⟩ := by
  have member : a ∈ v.lent idx := by
    rw [first]
    exact List.mem_cons_self
  obtain ⟨r₀, run₀, localRun, found, size, isLocal, inSlots, _⟩ := core.lent_spec member
  refine ⟨fun r run here => ?_, fun idx' => ?_, core.local_, core.localRun, fun idx' none_ => ?_⟩
  · have tracks := core.runs r run here
    by_cases same : r = r₀
    · have sameRun : run = run₀ := by
        rw [same] at here
        exact Option.some.inj (here.symm.trans found)
      have before : lentOf v run = a :: rest := by rw [lentOf, sameRun, if_pos isLocal, size, first]
      have after : lentOf ⟨v.own, update v.lent idx rest⟩ run = rest := by
        rw [lentOf, sameRun, if_pos isLocal, size]
        exact Function.update_self ..
      rw [before] at tracks
      rw [after]
      exact tracks.take header
    · have other : run.isLocal = true → run.mIdx ≠ idx := by
        intro isLocal' size'
        have localRun' := (core.local_ r run here).mp isLocal'
        rw [size', localRun, Option.some.injEq] at localRun'
        exact same localRun'.symm
      rw [lentOf_update other]
      exact tracks.congr fun b member' =>
        Function.update_of_ne (core.other_slot found here same inSlots member') _ _
  · obtain ⟨spells', count⟩ := core.mutator idx'
    dsimp only
    by_cases same : idx' = idx
    · rw [same] at spells' count
      rw [first] at spells' count
      have fresh := (List.nodup_cons.mp spells'.chain.nodup).1
      rw [same, Function.update_self, Function.update_self, Function.update_self, count]
      refine ⟨spells.congr fun b member' => Function.update_of_ne (fun eq => fresh ?_) _ _, rfl⟩
      rwa [eq] at member'
    · rw [Function.update_of_ne same, Function.update_of_ne same, Function.update_of_ne same]
      refine ⟨spells'.congr fun b member' => ?_, count⟩
      exact Function.update_of_ne (core.other_lent found inSlots member' (by rwa [size])) _ _
  · dsimp only at none_
    have other : idx' ≠ idx := fun same => by
      rw [same, localRun] at none_
      cases none_
    dsimp only
    rw [Function.update_of_ne other]
    exact core.noLocal idx' none_

/-- What an allocation gives: a slot that was not allocated and is, or else nothing. -/
structure Gives (m : RunAllocator) (a : Nat) (m' : RunAllocator) : Prop where
  nothing : a = 0 → (∃ v, m'.Inv v) ∧ ∀ b, m'.Live b ↔ m.Live b
  something : a ≠ 0 → ¬m.Live a ∧ ∀ header : BitVec 63,
    (∃ v, Inv { m' with mem := update m'.mem a (header.cons true) } v) ∧
      ∀ b, Live { m' with mem := update m'.mem a (header.cons true) } b ↔ m.Live b ∨ b = a

theorem Gives.after {m₁ : RunAllocator} (gives : m₁.Gives a m') (same : ∀ b, m₁.Live b ↔ m.Live b) :
    m.Gives a m' where
  nothing null := ⟨(gives.nothing null).1, fun b => ((gives.nothing null).2 b).trans (same b)⟩
  something some_ := by
    have ⟨fresh, written⟩ := gives.something some_
    refine ⟨fun live => fresh ((same a).mpr live), fun header => ?_⟩
    have ⟨inv, live⟩ := written header
    exact ⟨inv, fun b => by rw [live, same]⟩

theorem Inv.mutatorAlloc (inv : m.Inv v) (first : v.lent idx = a :: rest) :
    ∃ m', m.mutatorAlloc idx = (a, m') ∧ a ≠ 0 ∧ m.Gives a m' := by
  have member : a ∈ v.lent idx := by
    rw [first]
    exact List.mem_cons_self
  have ⟨r₀, run₀, _, found, _, _, inSlots, free⟩ := inv.lent_spec member
  have place := (inv.runs r₀ run₀ found).place
  have notNull := (place.slot_small inSlots).1
  have spells := (inv.mutator idx).1
  rw [first] at spells
  have ⟨freeList, fetched, spells'⟩ := FreeList.fetch_spells spells
  refine ⟨_, by rw [RunAllocator.mutatorAlloc, fetched], notNull, fun null => absurd null notNull,
    fun _ => ⟨?_, fun header => ⟨⟨⟨v.own, update v.lent idx rest⟩, ?_⟩, fun b => ?_⟩⟩⟩
  · intro ⟨_, _, _, _, allocated⟩
    rw [free] at allocated
    cases allocated
  · dsimp only
    rw [if_pos notNull]
    exact ⟨inv.take first spells' header, inv.lists, inv.used⟩
  · by_cases same : b = a
    · rw [same]
      refine iff_of_true ⟨r₀, run₀, found, inSlots, ?_⟩ (.inr rfl)
      dsimp only
      rw [SlotWords.isAllocatedByAllocator, Function.update_self, BitVec.getLsbD_cons]
      rfl
    · have bits : SlotWords.isAllocatedByAllocator (update m.mem a (header.cons true)) b =
          m.mem.isAllocatedByAllocator b := by
        rw [SlotWords.isAllocatedByAllocator, Function.update_of_ne same,
          SlotWords.isAllocatedByAllocator]
      unfold Live
      dsimp only
      rw [bits]
      simp [same]

theorem Core.mutatorAlloc_nil (core : m.Core v) (none_ : v.lent idx = []) :
    m.mutatorAlloc idx = (0, m) := by
  have spells := (core.mutator idx).1
  rw [none_] at spells
  rw [RunAllocator.mutatorAlloc, FreeList.fetch_nil spells]
  simp

/-! A run for the mutator. -/

/-- A run that is in no list, with free slots, for a mutator that has none. -/
structure Taken (m : RunAllocator) (v : Lists) (idx runAddr : Nat) (run : RunSlots) : Prop
    extends m.Core v where
  found : m.runs runAddr = some run
  size : run.mIdx = idx
  notFull : 0 < run.nFree
  nothing : v.lent idx = []
  only : ∀ r, m.localRuns idx = some r → r = runAddr
  lists : ∀ idx, (m.nonFullRuns idx).Keeps fun r => m.NonFull idx r ∧ r ≠ runAddr
  used : ∀ r run, r ≠ runAddr → m.runs r = some run → run.isLocal = false →
    run.nFree < run.getMaxSlots

section

variable (taken : Taken m v idx runAddr run)

include taken

theorem Taken.lentOf_nil : lentOf v run = [] := by
  unfold lentOf
  rw [taken.size, taken.nothing, ite_self]

theorem Taken.localise_core {freeList : FreeList} {mem : SlotWords}
    (spells : freeList.Spells mem (v.own runAddr))
    (kept : ∀ a, a ∉ v.own runAddr → mem a = m.mem a)
    (free : ∀ a ∈ v.own runAddr, mem.isAllocatedByAllocator a = false) :
    Core ({ m with
      mem := mem
      freeLists := update m.freeLists idx freeList
      freeListSizes := update m.freeListSizes idx (m.freeListSizes idx + run.nFree)
      localRuns := update m.localRuns idx (some runAddr) }.putRun runAddr { run with
        isLocal := true
        nFree := 0
        freeList := .empty }) ⟨update v.own runAddr [], update v.lent idx (v.own runAddr)⟩ := by
  have tracks := taken.runs runAddr run taken.found
  rw [taken.lentOf_nil] at tracks
  have inSlots : ∀ a ∈ v.own runAddr, a ∈ run.slots runAddr := fun a member =>
    tracks.sub a (List.mem_append_left [] member)
  have elsewhere : ∀ r run₁, m.runs r = some run₁ → r ≠ runAddr → ∀ b ∈ run₁.slots r, mem b = m.mem b := by
    intro r run₁ here other b member
    exact kept b fun inOwn => taken.other_slot taken.found here other (inSlots b inOwn) member rfl
  have notHere : ∀ r run₁, m.runs r = some run₁ → r ≠ runAddr → run₁.isLocal = true →
      run₁.mIdx ≠ idx := by
    intro r run₁ here other isLocal size
    have localRun := (taken.local_ r run₁ here).mp isLocal
    rw [size] at localRun
    exact other (taken.only r localRun)
  unfold putRun
  refine ⟨fun r run₁ here => ?_, fun idx' => ?_, fun r run₁ here => ?_, fun idx' r localRun => ?_,
    fun idx' none_ => ?_⟩
  · dsimp only at here ⊢
    by_cases same : r = runAddr
    · rw [same, Function.update_self, Option.some.injEq] at here
      rw [same, ← here, lentOf, if_pos rfl]
      have lent : update v.lent idx (v.own runAddr) run.mIdx = v.own runAddr := by
        rw [taken.size, Function.update_self]
      dsimp only
      rw [Function.update_self, lent]
      exact tracks.lend kept free
    · rw [Function.update_of_ne same] at here
      rw [lentOf_update (notHere r run₁ here same), Function.update_of_ne same]
      exact (taken.runs r run₁ here).congr (elsewhere r run₁ here same)
  · obtain ⟨spells', count⟩ := taken.mutator idx'
    dsimp only
    by_cases same : idx' = idx
    · rw [same] at count
      rw [same, Function.update_self, Function.update_self, Function.update_self, count, taken.nothing,
        tracks.count, List.length_nil, Nat.zero_add]
      exact ⟨spells, rfl⟩
    · rw [Function.update_of_ne same, Function.update_of_ne same, Function.update_of_ne same]
      refine ⟨spells'.congr fun b member => kept b fun inOwn => ?_, count⟩
      exact taken.other_lent taken.found (inSlots b inOwn) member (by rwa [taken.size]) rfl
  · dsimp only at here ⊢
    by_cases same : r = runAddr
    · rw [same, Function.update_self, Option.some.injEq] at here
      rw [← here, taken.size, same, Function.update_self]
      exact iff_of_true rfl rfl
    · rw [Function.update_of_ne same] at here
      by_cases size : run₁.mIdx = idx
      · rw [size, Function.update_self, Option.some.injEq]
        exact iff_of_false (fun isLocal => notHere r run₁ here same isLocal size) (Ne.symm same)
      · rw [Function.update_of_ne size]
        exact taken.local_ r run₁ here
  · dsimp only at localRun ⊢
    by_cases same : idx' = idx
    · rw [same, Function.update_self, Option.some.injEq] at localRun
      rw [← localRun, Function.update_self]
      exact ⟨_, rfl, by rw [same, ← taken.size]⟩
    · rw [Function.update_of_ne same] at localRun
      obtain ⟨run₁, here, size⟩ := taken.localRun idx' r localRun
      have other : r ≠ runAddr := by
        intro eq
        rw [eq, taken.found, Option.some.injEq] at here
        exact same (by rw [← size, ← here, taken.size])
      rw [Function.update_of_ne other]
      exact ⟨run₁, here, size⟩
  · dsimp only at none_ ⊢
    have other : idx' ≠ idx := fun same => by
      rw [same, Function.update_self] at none_
      cases none_
    rw [Function.update_of_ne other] at none_
    rw [Function.update_of_ne other]
    exact taken.noLocal idx' none_

theorem Taken.localise :
    ∃ m', m.localise runAddr = some m' ∧
      m'.Inv ⟨update v.own runAddr [], update v.lent idx (v.own runAddr)⟩ ∧
      ∀ a, m'.Live a ↔ m.Live a := by
  have tracks := taken.runs runAddr run taken.found
  rw [taken.lentOf_nil] at tracks
  have spells := (taken.mutator idx).1
  rw [taken.nothing] at spells
  have some_ : v.own runAddr ≠ [] := by
    intro none_
    have count := tracks.count
    rw [none_, List.length_nil] at count
    have notFull := taken.notFull
    omega
  have head : (m.freeLists idx).head < 2 ^ 63 := by
    rw [spells.nil_iff.mpr rfl]
    decide
  have ⟨freeList, mem, prepended, spells', kept, free⟩ :=
    FreeList.prepend_spells spells tracks.spells some_ (by simp) head
  rw [List.append_nil] at spells'
  have free' : ∀ a ∈ v.own runAddr, mem.isAllocatedByAllocator a = false := fun a member =>
    free a member (tracks.notAllocated member)
  have core := taken.localise_core spells' kept free'
  refine ⟨_, ?_, ⟨core, fun idx' => ?_, fun r run₁ here notLocal => ?_⟩, fun a => ?_⟩
  · rw [RunAllocator.localise, taken.found]
    simp only [Option.bind_eq_bind, Option.bind_some, taken.size, prepended]
  · refine (taken.lists idx').congr fun r => ?_
    rw [nonFull_putRun]
    show _ ∨ r ≠ runAddr ∧ m.NonFull idx' r ↔ _
    simp [and_comm]
  · rw [putRun] at here
    dsimp only at here
    by_cases same : r = runAddr
    · rw [same, Function.update_self, Option.some.injEq] at here
      rw [← here] at notLocal
      cases notLocal
    · rw [Function.update_of_ne same] at here
      exact taken.used r run₁ same here notLocal
  · refine live_putRun taken.found rfl rfl ?_
    by_cases inOwn : a ∈ v.own runAddr
    · exact (free' a inOwn).trans (tracks.notAllocated inOwn).symm
    · show mem.isAllocatedByAllocator a = _
      rw [SlotWords.isAllocatedByAllocator, kept a inOwn, ← SlotWords.isAllocatedByAllocator]

theorem Taken.allocAfterLocalise :
    ∃ a m', m.allocAfterLocalise idx runAddr = some (a, m') ∧ m.Gives a m' := by
  have ⟨m₁, localised, inv, same⟩ := taken.localise
  have tracks := taken.runs runAddr run taken.found
  have ⟨a, rest, first⟩ := List.exists_cons_of_length_pos (tracks.count ▸ taken.notFull)
  have lent : Lists.lent ⟨update v.own runAddr [], update v.lent idx (v.own runAddr)⟩ idx = a :: rest := by
    dsimp only
    rw [Function.update_self, first]
  have ⟨m', allocated, notNull, gives⟩ := inv.mutatorAlloc lent
  refine ⟨a, m', ?_, gives.after same⟩
  rw [RunAllocator.allocAfterLocalise, localised]
  simp only [Option.bind_eq_bind, Option.bind_some, allocated, if_neg notNull]

end

/-- A full local run is given back. -/
theorem Inv.globalise (inv : m.Inv v) (localRun : m.localRuns idx = some runAddr)
    (found : m.runs runAddr = some run) (full : run.isFull = true) (nothing : v.lent idx = []) :
    ∃ m', m.globalise runAddr = some m' ∧ m'.Inv v ∧ m'.localRuns idx = none ∧
      (∀ r, m.runs r = none → m'.runs r = none) ∧ ∀ a, m'.Live a ↔ m.Live a := by
  obtain ⟨run₁, found₁, size⟩ := inv.localRun idx runAddr localRun
  rw [found, Option.some.injEq] at found₁
  rw [← found₁] at size
  have tracks := inv.runs runAddr run found
  have noLent : lentOf v run = [] := by rw [lentOf, size, nothing, ite_self]
  rw [noLent] at tracks
  have count := (inv.mutator idx).2
  rw [nothing, List.length_nil] at count
  rw [RunSlots.isFull, decide_eq_true_iff] at full
  refine ⟨{ m with localRuns := update m.localRuns idx none }.putRun runAddr
    { run with isLocal := false }, ?_, ⟨⟨fun r run₁ here => ?_, inv.mutator, fun r run₁ here => ?_,
      fun idx' r here => ?_, fun idx' none_ => ?_⟩, fun idx' => ?_, fun r run₁ here notLocal => ?_⟩,
    ?_, fun r none_ => ?_, fun a => ?_⟩
  · rw [RunAllocator.globalise, found]
    simp only [Option.bind_eq_bind, Option.bind_some, size, count, ne_eq, not_true_eq_false, if_false]
  · dsimp only [putRun] at here
    by_cases same : r = runAddr
    · rw [same, Function.update_self, Option.some.injEq] at here
      rw [← here, same, lentOf, if_neg Bool.false_ne_true]
      exact ⟨⟨tracks.place.known, tracks.place.page, tracks.place.notNull, tracks.place.small⟩,
        tracks.init, tracks.spells, tracks.count, tracks.nodup, tracks.sub, tracks.free⟩
    · rw [Function.update_of_ne same] at here
      exact inv.runs r run₁ here
  · dsimp only [putRun] at here ⊢
    by_cases same : r = runAddr
    · rw [same, Function.update_self, Option.some.injEq] at here
      rw [← here]
      dsimp only
      rw [size, Function.update_self]
      exact iff_of_false Bool.false_ne_true (by simp)
    · rw [Function.update_of_ne same] at here
      rw [inv.local_ r run₁ here]
      by_cases size' : run₁.mIdx = idx
      · rw [size', Function.update_self, localRun, Option.some.injEq]
        exact iff_of_false (Ne.symm same) (by simp)
      · rw [Function.update_of_ne size']
  · dsimp only [putRun] at here ⊢
    by_cases same : idx' = idx
    · rw [same, Function.update_self] at here
      cases here
    · rw [Function.update_of_ne same] at here
      obtain ⟨run₁, found₁, size₁⟩ := inv.localRun idx' r here
      have other : r ≠ runAddr := by
        intro eq
        rw [eq, found, Option.some.injEq] at found₁
        exact same (by rw [← size₁, ← found₁, size])
      rw [Function.update_of_ne other]
      exact ⟨run₁, found₁, size₁⟩
  · dsimp only [putRun] at none_
    by_cases same : idx' = idx
    · rw [same, nothing]
    · rw [Function.update_of_ne same] at none_
      exact inv.noLocal idx' none_
  · refine (inv.lists idx').congr fun r => ?_
    rw [nonFull_putRun]
    show _ ∨ r ≠ runAddr ∧ m.NonFull idx' r ↔ _
    by_cases same : r = runAddr
    · rw [same]
      refine iff_of_false (by simp [full]) ?_
      rintro ⟨run₁, here, _, _, some_⟩
      rw [found, Option.some.injEq] at here
      rw [← here, full] at some_
      exact Nat.lt_irrefl 0 some_
    · simp [same]
  · dsimp only [putRun] at here
    by_cases same : r = runAddr
    · rw [same, Function.update_self, Option.some.injEq] at here
      rw [← here]
      dsimp only
      rw [full]
      exact (RunSlots.table_fits run.mIdx tracks.place.known).2.1
    · rw [Function.update_of_ne same] at here
      exact inv.used r run₁ here notLocal
  · exact Function.update_self ..
  · have other : r ≠ runAddr := fun same => by
      rw [same, found] at none_
      cases none_
    exact (putRun_of_ne other).trans none_
  · exact live_putRun found rfl rfl rfl

/-- The page can be that of a new run. -/
structure FreshPage (m : RunAllocator) (runAddr : Nat) : Prop where
  page : allocUtilPageSize ∣ runAddr
  notNull : 0 < runAddr
  small : runAddr + allocUtilPageSize ≤ 2 ^ 63
  fresh : m.runs runAddr = none

instance decidableFreshPage (m : RunAllocator) (runAddr : Nat) : Decidable (m.FreshPage runAddr) :=
  decidable_of_iff (allocUtilPageSize ∣ runAddr ∧ 0 < runAddr ∧ runAddr + allocUtilPageSize ≤ 2 ^ 63 ∧
    (m.runs runAddr).isNone = true)
    ⟨fun ⟨page, notNull, small, fresh⟩ => ⟨page, notNull, small, Option.isNone_iff_eq_none.mp fresh⟩,
      fun ⟨page, notNull, small, fresh⟩ =>
        ⟨page, notNull, small, Option.isNone_iff_eq_none.mpr fresh⟩⟩

theorem Core.addRun (core : m.Core v) (fresh : m.runs runAddr = none) {mem : SlotWords} {own : List Nat}
    (tracks : run.Tracks runAddr mem own []) (notLocal : run.isLocal = false)
    (elsewhere : ∀ r run, m.runs r = some run → ∀ a ∈ run.slots r, mem a = m.mem a) :
    Core ({ m with mem := mem }.putRun runAddr run) { v with own := update v.own runAddr own } := by
  have notHere : ∀ {r run}, m.runs r = some run → r ≠ runAddr := fun here same => by
    rw [same, fresh] at here
    cases here
  unfold putRun
  refine ⟨fun r run₁ here => ?_, fun idx => ?_, fun r run₁ here => ?_, fun idx r here => ?_,
    core.noLocal⟩
  · dsimp only at here ⊢
    by_cases same : r = runAddr
    · rw [same, Function.update_self, Option.some.injEq] at here
      rw [same, ← here, lentOf, notLocal, Function.update_self]
      exact tracks
    · rw [Function.update_of_ne same] at here
      rw [Function.update_of_ne same]
      exact (core.runs r run₁ here).congr (elsewhere r run₁ here)
  · obtain ⟨spells, count⟩ := core.mutator idx
    refine ⟨spells.congr fun a member => ?_, count⟩
    obtain ⟨r, run₁, _, here, _, _, inSlots, _⟩ := core.lent_spec member
    exact elsewhere r run₁ here a inSlots
  · dsimp only at here ⊢
    by_cases same : r = runAddr
    · rw [same, Function.update_self, Option.some.injEq] at here
      rw [same, ← here, notLocal]
      refine iff_of_false Bool.false_ne_true fun localRun => ?_
      obtain ⟨_, found, _⟩ := core.localRun run.mIdx runAddr localRun
      exact notHere found rfl
    · rw [Function.update_of_ne same] at here
      exact core.local_ r run₁ here
  · obtain ⟨run₁, found, size⟩ := core.localRun idx r here
    dsimp only
    rw [Function.update_of_ne (notHere found)]
    exact ⟨run₁, found, size⟩

theorem Inv.newRun (inv : m.Inv v) (known : idx < 57) (noLocal : m.localRuns idx = none)
    (page : m.FreshPage runAddr) :
    ∃ m' v' run, m.newRun idx runAddr = some m' ∧ Taken m' v' idx runAddr run ∧
      ∀ a, m'.Live a ↔ m.Live a := by
  obtain ⟨size, count, fits⟩ := RunSlots.table_fits idx known
  have small : runAddr + RunSlots.getContentOffset + maxSlots.getD idx 0 * runSizes.getD idx 0 ≤ 2 ^ 63 := by
    have small := page.small
    omega
  obtain ⟨freeList, mem, init, spells, free, kept⟩ := FreeList.init_spells m.mem size
    (Nat.lt_of_lt_of_le page.notNull (Nat.le_add_right runAddr RunSlots.getContentOffset)) small count
  let run : RunSlots := ⟨idx, false, true, maxSlots.getD idx 0, freeList⟩
  have place : run.OnPage runAddr := ⟨known, page.page, page.notNull, page.small⟩
  have notHere : ∀ {r run}, m.runs r = some run → r ≠ runAddr := fun here same => by
    rw [same, page.fresh] at here
    cases here
  have notNew : ∀ r run, m.runs r = some run → ∀ a ∈ run.slots r, mem a = m.mem a := by
    intro r run₁ here a member
    refine kept a fun inNew => ?_
    exact place.apart (inv.runs r run₁ here).place (notHere here).symm inNew member
  have tracks : run.Tracks runAddr mem (run.slots runAddr) [] := by
    refine ⟨place, rfl, spells, (FreeList.slotAddrs_length _ _ _).symm, ?_, ?_, ?_⟩
    · rw [List.append_nil]
      exact place.slots_nodup
    · simp
    · exact fun a member => iff_of_true (free a member) (List.mem_append_left [] member)
  let list := (((m.nonFullRuns idx).setNext runAddr none).setPrev runAddr none).setInList runAddr false
  have absent : ∀ idx, ¬m.NonFull idx runAddr := fun idx ⟨_, found, _⟩ => notHere found rfl
  have others : ∀ idx r, (({ m with mem := mem }.putList idx list).putRun runAddr run).NonFull idx r ∧
      r ≠ runAddr ↔ m.NonFull idx r := by
    intro idx r
    rw [nonFull_putRun]
    show (_ ∨ r ≠ runAddr ∧ m.NonFull idx r) ∧ r ≠ runAddr ↔ _
    by_cases same : r = runAddr
    · rw [same]
      simp [absent idx]
    · simp [same]
  refine ⟨({ m with mem := mem }.putList idx list).putRun runAddr run,
    { v with own := update v.own runAddr (run.slots runAddr) }, run, ?_,
    ⟨(inv.addRun page.fresh tracks rfl notNew).putList idx list, Function.update_self .., rfl, count,
      inv.noLocal idx noLocal, fun r here => ?_, fun idx' => ?_, fun r run₁ other here notLocal => ?_⟩,
    fun a => ?_⟩
  · rw [RunAllocator.newRun]
    simp only [Option.bind_eq_bind, RunSlots.getRunSize, RunSlots.getMaxSlots, init, Option.bind_some]
    rfl
  · have localRun : m.localRuns idx = some r := here
    rw [noLocal] at localRun
    cases localRun
  · refine ThreeTierList.Keeps.congr ?_ (others idx')
    refine keeps_update inv.lists ?_ (fun _ _ _ => Iff.rfl) idx'
    exact (inv.lists idx).forget (absent idx)
  · exact inv.used r run₁ ((putRun_of_ne other).symm.trans here) notLocal
  · constructor
    · rintro ⟨r, run₁, here, member, allocated⟩
      by_cases same : r = runAddr
      · have isNew : run = run₁ := by
          rw [same] at here
          exact Option.some.inj (putRun_self.symm.trans here)
        rw [same, ← isNew] at member
        have isFree : mem.isAllocatedByAllocator a = false := free a member
        exact absurd (isFree.symm.trans allocated) Bool.false_ne_true
      · have here' : m.runs r = some run₁ := (putRun_of_ne same).symm.trans here
        refine ⟨r, run₁, here', member, ?_⟩
        rw [SlotWords.isAllocatedByAllocator, ← notNew r run₁ here' a member]
        exact allocated
    · rintro ⟨r, run₁, here, member, allocated⟩
      refine ⟨r, run₁, (putRun_of_ne (notHere here)).trans here, member, ?_⟩
      rw [SlotWords.isAllocatedByAllocator, ← notNew r run₁ here a member] at allocated
      exact allocated

section

variable (inv : m.Inv v) (known : idx < 57) (noLocal : m.localRuns idx = none) (page : Option Nat)
  (fresh : ∀ runAddr, page = some runAddr → m.FreshPage runAddr)

include inv known noLocal fresh

theorem Inv.fetchOrAllocRun :
    ∃ result m', m.fetchOrAllocRun idx page = some (result, m') ∧ (∀ a, m'.Live a ↔ m.Live a) ∧
      (result = none → ∃ v, m'.Inv v) ∧
      ∀ runAddr, result = some runAddr → ∃ v run, Taken m' v idx runAddr run := by
  have allocRun : ∀ m₁ v₁, m₁.Inv v₁ → m₁.runs = m.runs → m₁.localRuns = m.localRuns →
      m₁.mem = m.mem → ∃ result m',
      page.elim (some (none, m₁)) (fun runAddr => (m₁.newRun idx runAddr).map fun m => (some runAddr, m)) =
        some (result, m') ∧ (∀ a, m'.Live a ↔ m.Live a) ∧ (result = none → ∃ v, m'.Inv v) ∧
      ∀ runAddr, result = some runAddr → ∃ v run, Taken m' v idx runAddr run := by
    intro m₁ v₁ inv₁ runs localRuns mem
    have same : ∀ a, m₁.Live a ↔ m.Live a := fun a => by
      unfold Live
      rw [runs, mem]
    cases page with
    | none => exact ⟨none, m₁, rfl, same, fun _ => ⟨v₁, inv₁⟩, by simp⟩
    | some runAddr =>
        obtain ⟨aligned, notNull, small, isFresh⟩ := fresh runAddr rfl
        obtain ⟨m', v', run, made, taken, live⟩ := inv₁.newRun known (by rw [localRuns, noLocal])
          ⟨aligned, notNull, small, by rw [runs, isFresh]⟩
        refine ⟨some runAddr, m', by rw [Option.elim_some, made, Option.map_some],
          fun a => (live a).trans (same a), by simp, ?_⟩
        intro r isRun
        rw [← Option.some.inj isRun]
        exact ⟨v', run, taken⟩
  unfold RunAllocator.fetchOrAllocRun
  by_cases sweeps : m.concurrentSweepIsRunning = true
  · rw [if_pos sweeps]
    have allocated := allocRun m v inv rfl rfl rfl
    cases page <;> exact allocated
  · obtain ⟨result, list, fetched, isHeld, keeps⟩ := (inv.lists idx).fetch
    rw [if_neg sweeps, fetched]
    have lists : ∀ idx', ((m.putList idx list).nonFullRuns idx').Keeps fun r =>
        m.NonFull idx' r ∧ result ≠ some r := by
      refine keeps_update inv.lists keeps fun idx' other r => and_iff_left_of_imp ?_
      rintro ⟨run, here, size, _⟩ same
      obtain ⟨run', here', size', _⟩ := isHeld r same
      rw [here, Option.some.injEq] at here'
      exact other (by rw [← size, here', size'])
    cases result with
    | none =>
        have consistent : (m.putList idx list).Inv v := ⟨inv.putList idx list,
          fun idx' => (lists idx').congr fun r => (and_iff_left (by simp)).symm, inv.used⟩
        have allocated := allocRun (m.putList idx list) v consistent rfl rfl rfl
        cases page <;> exact allocated
    | some runAddr =>
        obtain ⟨run, found, size, _, notFull⟩ := isHeld runAddr rfl
        refine ⟨some runAddr, m.putList idx list, rfl, fun a => Iff.rfl, by simp, ?_⟩
        intro r isRun
        rw [← Option.some.inj isRun]
        refine ⟨v, run, inv.putList idx list, found, size, notFull, inv.noLocal idx noLocal, ?_, ?_, ?_⟩
        · intro r localRun
          have none_ := noLocal.symm.trans localRun
          cases none_
        · exact fun idx' => (lists idx').congr fun r => and_congr_right fun _ => by simp [eq_comm]
        · exact fun r run _ here notLocal => inv.used r run here notLocal

theorem Inv.allocFromNextRun :
    ∃ a m', m.allocFromNextRun idx page = some (a, m') ∧ m.Gives a m' := by
  have ⟨result, m₁, fetched, same, nothing, something⟩ := inv.fetchOrAllocRun known noLocal page fresh
  rw [RunAllocator.allocFromNextRun, fetched]
  cases result with
  | none =>
      refine ⟨0, m₁, rfl, fun _ => ⟨nothing rfl, same⟩, fun wrong => absurd rfl wrong⟩
  | some runAddr =>
      have ⟨v', run, taken⟩ := something runAddr rfl
      have ⟨a, m', allocated, gives⟩ := taken.allocAfterLocalise
      exact ⟨a, m', allocated, gives.after same⟩

end

/-- The local run can be taken when the mutator has no slots left. -/
theorem Inv.taken (inv : m.Inv v) (localRun : m.localRuns idx = some runAddr)
    (found : m.runs runAddr = some run) (size : run.mIdx = idx) (notFull : 0 < run.nFree)
    (nothing : v.lent idx = []) : Taken m v idx runAddr run where
  toCore := inv.toCore
  found := found
  size := size
  notFull := notFull
  nothing := nothing
  only r here := Option.some.inj (here.symm.trans localRun)
  lists idx' := by
    refine (inv.lists idx').congr fun r => and_iff_left_of_imp ?_
    intro ⟨run₁, here, _, notLocal, _⟩ same
    have isLocal := (inv.local_ runAddr run found).mpr (by rw [size, localRun])
    rw [same, found, Option.some.injEq] at here
    rw [← here, isLocal] at notLocal
    cases notLocal
  used r run _ here notLocal := inv.used r run here notLocal

theorem Inv.allocFromLocalRun (inv : m.Inv v) (known : idx < 57) (page : Option Nat)
    (fresh : ∀ runAddr, page = some runAddr → m.FreshPage runAddr) :
    ∃ a m', m.allocFromLocalRun idx page = some (a, m') ∧ m.Gives a m' := by
  unfold RunAllocator.allocFromLocalRun
  cases localRun : m.localRuns idx with
  | none => exact inv.allocFromNextRun known localRun page fresh
  | some runAddr =>
      have ⟨run, found, size⟩ := inv.localRun idx runAddr localRun
      cases lent : v.lent idx with
      | cons a rest =>
          have ⟨m', allocated, notNull, gives⟩ := inv.mutatorAlloc lent
          refine ⟨a, m', ?_, gives⟩
          simp only [allocated]
          rw [if_pos notNull]
      | nil =>
          simp only [inv.mutatorAlloc_nil lent, ne_eq, not_true_eq_false, if_false, found,
            Option.bind_eq_bind, Option.bind_some]
          by_cases full : run.isFull = true
          · have ⟨m₁, globalised, inv₁, noLocal, runs, same⟩ := inv.globalise localRun found full lent
            rw [if_pos full, globalised]
            have fresh₁ : ∀ runAddr, page = some runAddr → m₁.FreshPage runAddr := fun r isPage =>
              have ⟨aligned, notNull, small, none_⟩ := fresh r isPage
              ⟨aligned, notNull, small, runs r none_⟩
            have ⟨a, m', allocated, gives⟩ := inv₁.allocFromNextRun known noLocal page fresh₁
            exact ⟨a, m', allocated, gives.after same⟩
          · rw [if_neg full]
            have notFull : 0 < run.nFree := by
              rw [RunSlots.isFull, decide_eq_true_iff] at full
              omega
            exact (inv.taken localRun found size notFull lent).allocAfterLocalise

end RunAllocator

end PrimJs
