import Mathlib.Algebra.Order.Field.Basic
import Mathlib.Tactic.Positivity
import PrimJs.Gc.RunSlotsSweep
import PrimJs.Gc.ThreeTierListRun

/-! What holds of the runs between the operations of the allocator. -/

namespace PrimJs

/-! The list of runs that are not full, as a set. -/

namespace ThreeTierList

variable {l : ThreeTierList Nat} {held : Nat → Prop} {n : Nat}

def Keeps (l : ThreeTierList Nat) (held : Nat → Prop) : Prop :=
  ∃ t, l.Represents t ∧ ∀ n, n ∈ t.nodes ↔ held n

section

variable (keeps : l.Keeps held)

include keeps

theorem Keeps.isInList : l.isInList n = true ↔ held n := by
  have ⟨t, represents, members⟩ := keeps
  rw [represents.inList, members]

theorem Keeps.congr {held' : Nat → Prop} (same : ∀ n, held' n ↔ held n) : l.Keeps held' := by
  have ⟨t, represents, members⟩ := keeps
  exact ⟨t, represents, fun n => (members n).trans (same n).symm⟩

/-- The links of a node outside of the list do not matter. -/
theorem Keeps.forget (outside : ¬held n) :
    (((l.setNext n none).setPrev n none).setInList n false).Keeps held := by
  have ⟨t, represents, members⟩ := keeps
  have fresh := mt (members n).mp outside
  have ends := represents.ends
  refine ⟨t, ⟨⟨ends.firstHead, ends.secondHead, ends.secondTail, ends.thirdHead, ends.empty⟩, ?_,
    represents.nodup, fun m => ?_⟩, members⟩
  · refine represents.links.congr fun m member => ?_
    have other : m ≠ n := fun same => fresh (by rwa [← same])
    exact ⟨Function.update_of_ne other _ _, Function.update_of_ne other _ _⟩
  · rw [← represents.inList]
    by_cases same : m = n
    · have notIn : l.isInList n = false := by
        rw [← Bool.not_eq_true, represents.inList]
        exact fresh
      rw [same, notIn]
      exact iff_of_false (by simp [setInList]) Bool.false_ne_true
    · rw [setInList]
      dsimp only
      rw [Function.update_of_ne same]
      rfl

theorem Keeps.insert (fresh : ¬held n) {value : Rat} (low : 0 ≤ value) (high : value ≤ 1) :
    ∃ l', l.insert n value = some l' ∧ l'.Keeps fun m => held m ∨ m = n := by
  have ⟨t, represents, members⟩ := keeps
  have ⟨l', run, represents'⟩ := insert_spec represents (mt (members n).mp fresh) low high
  refine ⟨l', run, _, represents', fun m => ?_⟩
  dsimp only
  rw [← members]
  unfold Tiers.insert Tiers.nodes
  split
  next none_ =>
    have ⟨noFirst, noThird⟩ := represents.ends.empty none_
    simp [none_, noFirst, noThird]
  next =>
    split
    · simp only [List.cons_append, List.mem_cons, List.mem_append]
      tauto
    · split <;> simp only [List.cons_append, List.mem_cons, List.mem_append] <;> tauto

theorem Keeps.erase (member : held n) :
    ∃ l', l.erase n = some l' ∧ l'.Keeps fun m => held m ∧ m ≠ n := by
  have ⟨t, represents, members⟩ := keeps
  have inTiers := (members n).mpr member
  have ⟨l', run, represents'⟩ := erase_spec represents inTiers
  have ⟨_, xs, ys, _, _, _, _, _, split_, rest⟩ := eraseEnds_spec represents inTiers
  have nodup := represents.nodup
  rw [split_, List.nodup_middle, List.nodup_cons] at nodup
  refine ⟨l', run, _, represents', fun m => ?_⟩
  dsimp only
  rw [rest, ← members, split_, List.mem_append, List.mem_append, List.mem_cons]
  have gone := nodup.1
  rw [List.mem_append] at gone
  constructor
  · intro inside
    exact ⟨by tauto, fun same => gone (by rwa [← same])⟩
  · tauto

theorem Keeps.fetch :
    ∃ result l', l.fetch = some (result, l') ∧ (∀ m, result = some m → held m) ∧
      l'.Keeps fun m => held m ∧ result ≠ some m := by
  obtain ⟨t, represents, members⟩ := keeps
  obtain ⟨l', run, represents'⟩ := fetch_spec represents
  rcases second : t.second with _ | ⟨m, rest⟩
  · have same : t.dropSecond = t := by rw [Tiers.dropSecond, second]
    rw [same] at represents'
    rw [second] at run
    refine ⟨none, l', run, by simp, t, represents', fun m => ?_⟩
    simp [members]
  · rw [second] at run
    have split_ : t.nodes = t.first ++ m :: (rest ++ t.third) := by rw [Tiers.nodes, second]; rfl
    have nodup := represents.nodup
    rw [split_, List.nodup_middle, List.nodup_cons, List.mem_append] at nodup
    have gone := nodup.1
    refine ⟨some m, l', run, fun m' same => ?_, _, represents', fun m' => ?_⟩
    · rw [← Option.some.inj same, ← members, split_]
      simp
    · dsimp only
      rw [dropSecond_nodes second, ← members, split_]
      simp only [List.mem_append, List.mem_cons, ne_eq, Option.some.injEq] at gone ⊢
      constructor
      · intro inside
        exact ⟨by tauto, fun same => gone (by rwa [same])⟩
      · rintro ⟨inside, other⟩
        have other' : m' ≠ m := fun same => other same.symm
        tauto

end

end ThreeTierList

namespace RunSlots

variable {run : RunSlots}

theorem toFloat_le {n d : Nat} (some_ : 0 < d) (most : n ≤ d) : 0 ≤ toFloat n d ∧ toFloat n d ≤ 1 := by
  unfold toFloat
  generalize floatPlaces n d = places
  have near := (Binary64.rounds_iff.mp (Binary64.divEven_rounds (n * 2 ^ places) some_)).1
  generalize Binary64.divEven (n * 2 ^ places) d = q at near
  have scaled := Nat.mul_le_mul_right (2 ^ places) most
  have few : q ≤ 2 ^ places := by
    by_contra more
    have above := Nat.mul_le_mul_right d (Nat.succ_le_of_lt (Nat.lt_of_not_le more))
    rw [Nat.succ_mul, Nat.mul_comm (2 ^ places)] at above
    rw [Nat.mul_assoc] at near
    omega
  have power : (0 : Rat) < 2 ^ places := by positivity
  refine ⟨by positivity, (div_le_one power).mpr ?_⟩
  exact_mod_cast few

/-- The value of a run is a part of 1. -/
theorem value_bounds (some_ : 0 < run.getMaxSlots) (most : run.nFree ≤ run.getMaxSlots) :
    0 ≤ run.value ∧ run.value ≤ 1 := by
  have ⟨low, high⟩ := toFloat_le some_ most
  unfold value
  generalize toFloat run.nFree run.getMaxSlots = free at low high
  have part : 0 ≤ 1 - free := by linarith
  refine toFloat_le (1 - free).den_pos ?_
  have below : 1 - free ≤ 1 := by linarith
  rw [Int.toNat_le]
  exact Rat.num_le_denom_iff.mpr below

end RunSlots

namespace RunAllocator

open Function (update)

/-- The slots in the list of each run, and those in the mutator's list of each size. -/
structure Lists where
  own : Nat → List Nat
  lent : Nat → List Nat

variable {m : RunAllocator} {v : Lists} {run run' : RunSlots} {runAddr r idx a : Nat}
  {isObjectMarked : Nat → Bool}

/-- The mutator has slots of its local run only. -/
def lentOf (v : Lists) (run : RunSlots) : List Nat := if run.isLocal then v.lent run.mIdx else []

/-- The runs and what the mutator has. -/
structure Core (m : RunAllocator) (v : Lists) : Prop where
  runs : ∀ r run, m.runs r = some run → run.Tracks r m.mem (v.own r) (lentOf v run)
  mutator : ∀ idx, (m.freeLists idx).Spells m.mem (v.lent idx) ∧
    m.freeListSizes idx = (v.lent idx).length
  local_ : ∀ r run, m.runs r = some run → (run.isLocal = true ↔ m.localRuns run.mIdx = some r)
  localRun : ∀ idx r, m.localRuns idx = some r → ∃ run, m.runs r = some run ∧ run.mIdx = idx
  noLocal : ∀ idx, m.localRuns idx = none → v.lent idx = []

def NonFull (m : RunAllocator) (idx r : Nat) : Prop :=
  ∃ run, m.runs r = some run ∧ run.mIdx = idx ∧ run.isLocal = false ∧ 0 < run.nFree

/-- Runs that are neither local nor full are in the list of their size, and none of them is empty. -/
structure Inv (m : RunAllocator) (v : Lists) : Prop extends m.Core v where
  lists : ∀ idx, (m.nonFullRuns idx).Keeps (m.NonFull idx)
  used : ∀ r run, m.runs r = some run → run.isLocal = false → run.nFree < run.getMaxSlots

/-- A run with free slots that are lent is the local one. -/
theorem Core.lent_spec (core : m.Core v) (member : a ∈ v.lent idx) :
    ∃ r run, m.localRuns idx = some r ∧ m.runs r = some run ∧ run.mIdx = idx ∧
      run.isLocal = true ∧ a ∈ run.slots r ∧ m.mem.isAllocatedByAllocator a = false := by
  cases found : m.localRuns idx with
  | none =>
      rw [core.noLocal idx found] at member
      cases member
  | some r =>
      have ⟨run, here, size⟩ := core.localRun idx r found
      have isLocal := (core.local_ r run here).mpr (by rw [size, found])
      have tracks := core.runs r run here
      rw [lentOf, if_pos isLocal, size] at tracks
      have either := List.mem_append_right (v.own r) member
      have inSlots := tracks.sub a either
      exact ⟨r, run, rfl, here, size, isLocal, inSlots, (tracks.free a inSlots).mpr either⟩

theorem putRun_self : (m.putRun runAddr run).runs runAddr = some run := Function.update_self ..

theorem putRun_of_ne (other : r ≠ runAddr) : (m.putRun runAddr run).runs r = m.runs r :=
  Function.update_of_ne other ..

/-- Memory and one run change, in place. -/
theorem Core.changeRun {mem : SlotWords} {own : List Nat} (core : m.Core v)
    (found : m.runs runAddr = some run) (size : run'.mIdx = run.mIdx)
    (isLocal : run'.isLocal = run.isLocal)
    (tracks : run'.Tracks runAddr mem own (lentOf v run))
    (kept : ∀ a, a ∉ run.slots runAddr → mem a = m.mem a)
    (lent : ∀ a, m.mem.isAllocatedByAllocator a = false → mem a = m.mem a) :
    ({ m with mem := mem }.putRun runAddr run').Core { v with own := update v.own runAddr own } where
  runs r run₁ here := by
    rw [putRun] at here
    by_cases same : r = runAddr
    · dsimp only at here
      rw [same, Function.update_self, Option.some.injEq] at here
      rw [same, ← here]
      have lentSame : lentOf { v with own := update v.own runAddr own } run' = lentOf v run := by
        rw [lentOf, lentOf, size, isLocal]
      rw [lentSame]
      dsimp only
      rw [Function.update_self]
      exact tracks
    · dsimp only at here
      rw [Function.update_of_ne same] at here
      have tracks' := core.runs r run₁ here
      dsimp only
      rw [Function.update_of_ne same]
      refine tracks'.congr fun a member => kept a ?_
      exact tracks'.place.apart (core.runs runAddr run found).place same member
  mutator idx := by
    have ⟨spells, count⟩ := core.mutator idx
    refine ⟨spells.congr fun a member => lent a ?_, count⟩
    have ⟨_, _, _, _, _, _, _, free⟩ := core.lent_spec member
    exact free
  local_ r run₁ here := by
    rw [putRun] at here
    by_cases same : r = runAddr
    · dsimp only at here
      rw [same, Function.update_self, Option.some.injEq] at here
      rw [same, ← here, size, isLocal]
      exact core.local_ runAddr run found
    · dsimp only at here
      rw [Function.update_of_ne same] at here
      exact core.local_ r run₁ here
  localRun idx r here := by
    have ⟨run₁, found₁, size₁⟩ := core.localRun idx r here
    rw [putRun]
    dsimp only
    by_cases same : r = runAddr
    · rw [same, Function.update_self]
      rw [same, found, Option.some.injEq] at found₁
      exact ⟨run', rfl, by rw [size, found₁, size₁]⟩
    · rw [Function.update_of_ne same]
      exact ⟨run₁, found₁, size₁⟩
  noLocal := core.noLocal

theorem Core.putList (core : m.Core v) (idx : Nat) (list : ThreeTierList Nat) :
    (m.putList idx list).Core v :=
  ⟨core.runs, core.mutator, core.local_, core.localRun, core.noLocal⟩

theorem freeRun_eq_some : (m.freeRun runAddr).runs r = some run ↔ r ≠ runAddr ∧ m.runs r = some run := by
  unfold freeRun
  dsimp only
  by_cases same : r = runAddr
  · rw [same, Function.update_self]
    simp
  · rw [Function.update_of_ne same]
    simp [same]

/-- A run that is not local goes away. -/
theorem Core.freeRun (core : m.Core v) (found : m.runs runAddr = some run)
    (notLocal : run.isLocal = false) : (m.freeRun runAddr).Core v where
  runs r run₁ here := core.runs r run₁ (freeRun_eq_some.mp here).2
  mutator := core.mutator
  local_ r run₁ here := core.local_ r run₁ (freeRun_eq_some.mp here).2
  localRun idx r here := by
    have ⟨run₁, found₁, size⟩ := core.localRun idx r here
    have other : r ≠ runAddr := by
      intro same
      rw [same, found, Option.some.injEq] at found₁
      have isLocal := (core.local_ runAddr run found).mpr (by rw [found₁, size, ← same]; exact here)
      rw [notLocal] at isLocal
      cases isLocal
    exact ⟨run₁, freeRun_eq_some.mpr ⟨other, found₁⟩, size⟩
  noLocal := core.noLocal

theorem nonFull_freeRun : (m.freeRun runAddr).NonFull idx r ↔ m.NonFull idx r ∧ r ≠ runAddr := by
  unfold NonFull
  simp only [freeRun_eq_some]
  constructor
  · intro ⟨run, ⟨other, here⟩, rest⟩
    exact ⟨⟨run, here, rest⟩, other⟩
  · intro ⟨⟨run, here, rest⟩, other⟩
    exact ⟨run, ⟨other, here⟩, rest⟩

theorem nonFull_of_runs {m' : RunAllocator} (runs : m'.runs = update m.runs runAddr (some run)) :
    m'.NonFull idx r ↔ (r = runAddr ∧ run.mIdx = idx ∧ run.isLocal = false ∧ 0 < run.nFree) ∨
      (r ≠ runAddr ∧ m.NonFull idx r) := by
  unfold NonFull
  rw [runs]
  by_cases same : r = runAddr
  · rw [same, Function.update_self]
    simp
  · rw [Function.update_of_ne same]
    simp [same]

theorem nonFull_putRun : (m.putRun runAddr run).NonFull idx r ↔
    (r = runAddr ∧ run.mIdx = idx ∧ run.isLocal = false ∧ 0 < run.nFree) ∨
      (r ≠ runAddr ∧ m.NonFull idx r) := nonFull_of_runs rfl

theorem nonFull_self (found : m.runs runAddr = some run) : m.NonFull run.mIdx runAddr ↔
    run.isLocal = false ∧ 0 < run.nFree := by
  unfold NonFull
  rw [found]
  simp

theorem keeps_update {held held' : Nat → Nat → Prop} {lists : Nat → ThreeTierList Nat}
    {list : ThreeTierList Nat} (keeps : ∀ idx, (lists idx).Keeps (held idx))
    (new : list.Keeps (held' idx)) (others : ∀ i, i ≠ idx → ∀ r, held' i r ↔ held i r) (i : Nat) :
    (update lists idx list i).Keeps (held' i) := by
  by_cases here : i = idx
  · rw [here, Function.update_self]
    exact new
  · rw [Function.update_of_ne here]
    exact (keeps i).congr (others i here)

end RunAllocator

end PrimJs
