import PrimJs.Foundation.OperationRun
import PrimJs.Collections.WeakEntriesSteps
import PrimJs.Collections.WeakEntriesCollector
import PrimJs.Collections.WeakEntriesRebuild

/-! What holds of the weak entries and their records in every run. -/

namespace PrimJs.LinkedHashMap

open JSMap (MapKeys)
open JSLinkedHashMap WeakHeap OperationRun

variable {κ ν : Type} {keys : MapKeys κ} [DecidableEq κ] {c c' : WeakHeap κ ν}

/-- Live entries of the weak tables in use and `WEAK_MAP` records are in bijection, an entry that
still waits for its record aside, and every chain has the live entries of its bucket. -/
structure Consistent (keys : MapKeys κ) (c : WeakHeap κ ν) : Prop where
  current : ∀ m t, c.maps[m]? = some (some t) → ∃ table, c.Current m t table
  recorded : ∀ m t table, c.Current m t table → table.isWeak = true → ∀ i key value,
    table.entries i = some (key, value) → ⟨t, i⟩ ∉ c.awaited → (c.firstWeakRef key).count ⟨t, i⟩ = 1
  pointsTo : ∀ key, ∀ wr ∈ c.firstWeakRef key, PointsTo c key wr ∧ (c.firstWeakRef key).count wr = 1
  chains : ∀ m t table, c.Current m t table → ∀ b, b < table.bucketCount →
    table.bucketChain b = table.chainOf keys b
  stored : ∀ m t table, c.Current m t table → table.isWeak = true → ∀ i key value,
    table.entries i = some (key, value) → table.weakBuckets i = table.bucketOf keys key

theorem HeapInv.consistent (inv : HeapInv keys c) : Consistent keys c where
  current := inv.current
  recorded m t table current isWeak i key value entry settled := by
    obtain ⟨-, found, noNext⟩ := current
    rw [inv.counts found noNext, if_pos]
    exact ⟨isWeak, settled, by rw [entry]; rfl⟩
  pointsTo key wr member := by
    obtain ⟨points, -, isTarget⟩ := inv.pointsTo member
    refine ⟨points, ?_⟩
    rw [inv.records key wr, if_pos isTarget]
  chains m t table current b inside := (inv.tables t table current.2.1 current.2.2).bucketChain_eq inside
  stored m t table current isWeak := (inv.tables t table current.2.1 current.2.2).recorded isWeak

/-- The death of a key takes exactly its entries out of the tables and their chains. -/
def Exact (c : WeakHeap κ ν) (event : WeakEvent κ ν) (reply : Reply ν) (c' : WeakHeap κ ν) : Prop :=
  ∀ key, event = .keyDeath key → reply = .done → ∀ t table, c.tables t = some table →
    table.nextTable = none → ∃ table', c'.tables t = some table'
      ∧ (∀ i, table'.entries i = if ⟨t, i⟩ ∈ c.firstWeakRef key then none else table.entries i)
      ∧ ∀ b, b < table.bucketCount → table'.bucketChain b
        = (table.bucketChain b).filter fun i => decide (⟨t, i⟩ ∉ c.firstWeakRef key)

/-- A cleanup callback that runs while a collection waits for memory does not delete the entry that
waits for its record, put another entry before it when the record fails, or give the collection
another table. -/
def Guarded (keys : MapKeys κ) (c : WeakHeap κ ν) : WeakEvent κ ν → Prop
  | .delete m key => ∀ wr ∈ deleted keys c m key, wr ∉ c.awaited
  | .resume allocated => ∀ frame ∈ c.frames.head?, frame.MayResume c allocated
  | _ => True

section Decisions

variable {m : Nat} {old : TableId} {added capacity : Nat}

omit [DecidableEq κ] in
theorem mayReplace_iff : MayReplace c m old added capacity ↔ c.maps[m]? = some (some old)
    ∧ (∀ wr ∈ c.awaited, wr.table ≠ old)
    ∧ ∀ table ∈ c.tables old, table.liveCount + added ≤ capacity :=
  ⟨fun may => ⟨may.current, may.settled, may.fits⟩, fun all => ⟨all.1, all.2.1, all.2.2⟩⟩

instance : Decidable (MayReplace c m old added capacity) := decidable_of_iff _ mayReplace_iff.symm

instance (c : WeakHeap κ ν) (allocated : Bool) : ∀ frame : Frame κ ν,
    Decidable (frame.MayResume c allocated)
  | .growTable m old _ capacity _ _ =>
      inferInstanceAs (Decidable (allocated = true → MayReplace c m old 1 capacity))
  | .shrinkTable m old _ capacity =>
      inferInstanceAs (Decidable (allocated = true → MayReplace c m old 0 capacity))
  | .clearTable m old => inferInstanceAs (Decidable (allocated = true → c.maps[m]? = some (some old)))
  | .weakRecord _ t entryIndex bucket _ => inferInstanceAs (Decidable
      (allocated = false → ∀ table ∈ c.tables t, table.buckets bucket = entryIndex))

instance (keys : MapKeys κ) (c : WeakHeap κ ν) : ∀ event : WeakEvent κ ν,
    Decidable (Guarded keys c event)
  | .delete m key => inferInstanceAs (Decidable (∀ wr ∈ deleted keys c m key, wr ∉ c.awaited))
  | .resume allocated =>
      inferInstanceAs (Decidable (∀ frame ∈ c.frames.head?, frame.MayResume c allocated))
  | .construct _ _ => inferInstanceAs (Decidable True)
  | .set _ _ _ => inferInstanceAs (Decidable True)
  | .get _ _ => inferInstanceAs (Decidable True)
  | .clear _ => inferInstanceAs (Decidable True)
  | .keyDeath _ => inferInstanceAs (Decidable True)
  | .mapDeath _ => inferInstanceAs (Decidable True)
  | .tableDeath _ => inferInstanceAs (Decidable True)

end Decisions

section Run

theorem HeapInv.exact_keyDeath (inv : HeapInv keys c) {key : κ} (cleaned :
    Cleaned keys (c.firstWeakRef key) c c') :
    ∀ t table, c.tables t = some table → table.nextTable = none → ∃ table',
      c'.tables t = some table'
      ∧ (∀ i, table'.entries i = if ⟨t, i⟩ ∈ c.firstWeakRef key then none else table.entries i)
      ∧ ∀ b, b < table.bucketCount → table'.bucketChain b
        = (table.bucketChain b).filter fun i => decide (⟨t, i⟩ ∉ c.firstWeakRef key) := by
  intro t table found noNext
  obtain ⟨table', there, without⟩ := cleaned.present t table found
  refine ⟨table', there, without.entries, fun b inside => ?_⟩
  have inside' : b < table'.bucketCount := by
    rw [without.bucketCount]
    exact inside
  rw [(inv.tables t table found noNext).bucketChain_eq inside,
    (without.inv noNext).bucketChain_eq inside', without.chainOf]

/-- One step of a guarded run -/
theorem step_keeps (inv : HeapInv keys c) {event : WeakEvent κ ν} (guarded : Guarded keys c event) :
    ∃ reply c', c.step keys event = some (reply, c') ∧ HeapInv keys c' ∧ Exact c event reply c' := by
  have exactly {outcome : Option (Stepped κ ν)} (keeps : Keeps keys outcome)
      (other : ∀ key, event ≠ .keyDeath key) :
      ∃ reply c', outcome = some (reply, c') ∧ HeapInv keys c' ∧ Exact c event reply c' := by
    obtain ⟨reply, c', run, inv'⟩ := keeps
    exact ⟨reply, c', run, inv', fun key same => absurd same (other key)⟩
  rw [WeakHeap.step.eq_def]
  cases event with
  | construct isWeak allocated => exact exactly (inv.construct isWeak allocated) (by simp)
  | set m key value => exact exactly (inv.set m key value) (by simp)
  | get m key => exact exactly (inv.get m key) (by simp)
  | delete m key => exact exactly (inv.delete guarded) (by simp)
  | clear m => exact exactly (inv.clear m) (by simp)
  | mapDeath m => exact exactly (inv.mapDeath m) (by simp)
  | tableDeath t => exact exactly (inv.tableDeath t) (by simp)
  | resume allocated => exact exactly (inv.resume guarded) (by simp)
  | keyDeath key =>
      by_cases held : some key ∈ c.frames.map Frame.key
      · simp only [WeakHeap.keyDeath, if_pos held]
        refine ⟨.refused, c, rfl, inv, fun _ _ done => ?_⟩
        cases done
      · obtain ⟨c', cleaned, run, inv'⟩ := inv.keyDeath key held
        refine ⟨_, _, run, inv', fun key' same _ => ?_⟩
        have sameKey : key = key' := by simpa using same
        rw [← sameKey]
        have gone := inv.exact_keyDeath cleaned
        exact gone

theorem heapInv_initial : HeapInv keys (WeakHeap.initial : WeakHeap κ ν) where
  tables t table found := by cases found
  current m t has := by simp [WeakHeap.initial] at has
  separate m m' t has := by simp [WeakHeap.initial] at has
  fresh t table found := by cases found
  frames frame member := absurd member List.not_mem_nil
  awaits := List.nodup_nil
  records key wr := rfl

end Run

section Runs

theorem residue_lt (key bits : Nat) : key % 2^bits < 2^bits :=
  Nat.mod_lt key (Nat.two_pow_pos bits)

def residues : MapKeys Nat where
  hash key bits := key % 2^bits
  hash_lt := residue_lt
  isObject _ := true

/-- Insertions until the table grows, keys that die while it waits for memory, a record that cannot
be allocated and the death of the collection -/
def collectedRun : List (WeakEvent Nat Nat) :=
  [.construct true true, .set 0 1 10, .resume true, .set 0 3 30, .keyDeath 5, .resume true,
    .set 0 5 50, .resume true, .set 0 7 70, .keyDeath 3, .resume true, .keyDeath 1, .resume false,
    .tableDeath 0, .delete 0 5, .set 0 9 90, .resume true, .mapDeath 0, .tableDeath 1]

end Runs

end PrimJs.LinkedHashMap
