import PrimJs.Collections.LinkedHashMapInvariant
import PrimJs.Collections.WeakEntries

/-! The records among the weak references of the keys and the live entries of the weak tables. -/

namespace PrimJs.LinkedHashMap

open JSMap (MapKeys)
open JSLinkedHashMap

variable {κ ν : Type}

namespace WeakHeap

def awaited (c : WeakHeap κ ν) : List WeakRefRecord := c.frames.filterMap Frame.awaited

/-- The key of the live entry a record can point to: the entry of a weak table that was not
replaced, unless its record is still awaited -/
def target (c : WeakHeap κ ν) (wr : WeakRefRecord) : Option κ :=
  match c.tables wr.table with
  | none => none
  | some table =>
      if table.isWeak = true ∧ table.nextTable = none ∧ wr ∉ c.awaited
        then (table.entries wr.entryIndex).map Prod.fst else none

/-- The collection `m` has the table, and nothing has replaced it. -/
def Current (c : WeakHeap κ ν) (m : Nat) (t : TableId) (table : JSLinkedHashMap κ ν) : Prop :=
  c.maps[m]? = some (some t) ∧ c.tables t = some table ∧ table.nextTable = none

end WeakHeap

open WeakHeap

section Sizes

def SizesOk (bucketCount capacity : Nat) : Prop :=
  (∃ k, bucketCount = 2^(k + 1)) ∧ capacity < kInvalidMapEntry

theorem doubledTo_spec {target fuel n m : Nat} (run : doubledTo target fuel n = some m)
    (small : n < uint32Max) : (∃ k, m = n * 2^k) ∧ m < uint32Max ∧ target ≤ m := by
  induction fuel generalizing n with
  | zero => cases run
  | succ fuel ih =>
      rw [doubledTo] at run
      by_cases more : n < target
      · rw [if_pos more] at run
        by_cases tooMany : n > uint32Max / 2
        · rw [if_pos tooMany] at run
          cases run
        · rw [if_neg tooMany] at run
          have room : n * 2 < uint32Max := by
            simp only [uint32Max] at tooMany ⊢
            omega
          obtain ⟨⟨k, isM⟩, below, enough⟩ := ih run room
          refine ⟨⟨k + 1, ?_⟩, below, enough⟩
          rw [isM, Nat.pow_succ, Nat.mul_assoc, Nat.mul_comm 2]
      · rw [if_neg more, Option.some.injEq] at run
        rw [← run]
        exact ⟨⟨0, by simp⟩, small, Nat.le_of_not_lt more⟩

theorem sizesOk_of {entryCount capacity bucketCount : Nat}
    (isCapacity : computeCapacity entryCount = some capacity)
    (isBuckets : newBucketCount capacity = some bucketCount) : SizesOk bucketCount capacity := by
  have buckets := (doubledTo_spec isBuckets (by decide)).1
  rw [computeCapacity] at isCapacity
  by_cases tooMany : entryCount > uint32Max - entryCount / 2
  · rw [if_pos tooMany] at isCapacity
    cases isCapacity
  · rw [if_neg tooMany] at isCapacity
    obtain ⟨k, power⟩ := buckets
    refine ⟨⟨k, ?_⟩, (doubledTo_spec isCapacity (by decide)).2.1⟩
    rw [power, kInitialMapBucketCount, Nat.pow_succ, Nat.mul_comm]

theorem alloc_spec (ν : Type) (keys : MapKeys κ) {bucketCount capacity : Nat}
    (sizes : SizesOk bucketCount capacity) (isWeak : Bool) :
    ∃ t : JSLinkedHashMap κ ν, linkedHashMapAlloc bucketCount capacity isWeak = some t
      ∧ TableInv keys t ∧ t.isWeak = isWeak ∧ t.nextTable = none ∧ t.entryUsed = 0
      ∧ t.entryCapacity = capacity ∧ ∀ i, t.entries i = none := by
  obtain ⟨⟨k, power⟩, small⟩ := sizes
  have enough : ¬ (bucketCount < kInitialMapBucketCount ∨ bucketCount &&& (bucketCount - 1) ≠ 0) := by
    have masked : bucketCount &&& (bucketCount - 1) = 0 := by
      rw [power, Nat.and_two_pow_sub_one_eq_mod, Nat.mod_self]
    have two : 2 ≤ bucketCount := by
      rw [power, Nat.pow_succ]
      have positive := Nat.two_pow_pos k
      omega
    rw [kInitialMapBucketCount]
    intro bad
    rcases bad with few | mask
    · omega
    · exact mask masked
  rw [linkedHashMapAlloc, if_neg enough]
  refine ⟨_, rfl, ?_, rfl, rfl, rfl, rfl, fun i => rfl⟩
  constructor
  case power => exact ⟨k, power⟩
  case used => rfl
  case fits => exact Nat.zero_le _
  case small => exact small
  case counted => rfl
  case unused => exact fun _ _ => rfl
  case linked => exact fun b _ => .nil
  case recorded => exact fun _ i key value here => by cases here

end Sizes

def FrameOk (keys : MapKeys κ) (c : WeakHeap κ ν) : Frame κ ν → Prop
  | .growTable _ _ bucketCount capacity _ _ => SizesOk bucketCount capacity
  | .shrinkTable _ _ bucketCount capacity => SizesOk bucketCount capacity
  | .clearTable _ old => old < c.next ∧ ∀ table, c.tables old = some table → table.isWeak = false
  | .weakRecord m t entryIndex bucket key => ∃ table value, c.Current m t table
      ∧ table.isWeak = true ∧ table.entries entryIndex = some (key, value)
      ∧ bucket = table.bucketOf keys key

structure HeapInv [DecidableEq κ] (keys : MapKeys κ) (c : WeakHeap κ ν) : Prop where
  tables : ∀ t table, c.tables t = some table → table.nextTable = none → TableInv keys table
  current : ∀ m t, c.maps[m]? = some (some t) → ∃ table, c.Current m t table
  separate : ∀ (m m' : Nat) (t : TableId), c.maps[m]? = some (some t) → c.maps[m']? = some (some t) → m = m'
  fresh : ∀ t table, c.tables t = some table → t < c.next
  frames : ∀ frame ∈ c.frames, FrameOk keys c frame
  awaits : c.awaited.Nodup
  records : ∀ key wr, (c.firstWeakRef key).count wr = if c.target wr = some key then 1 else 0

variable {keys : MapKeys κ} [DecidableEq κ] {c c' : WeakHeap κ ν} {m t : Nat}
  {table table' : JSLinkedHashMap κ ν} {key : κ} {value : ν} {wr : WeakRefRecord}

section Lookup

omit [DecidableEq κ] in
theorem target_eq (found : c.tables wr.table = some table) : c.target wr
    = if table.isWeak = true ∧ table.nextTable = none ∧ wr ∉ c.awaited
        then (table.entries wr.entryIndex).map Prod.fst else none := by
  rw [target, found]

theorem HeapInv.find_current (inv : HeapInv keys c) (has : c.maps[m]?.join = some t) :
    ∃ table, c.Current m t table ∧ TableInv keys table := by
  obtain ⟨table, current⟩ := inv.current m t (Option.join_eq_some_iff.mp has)
  exact ⟨table, current, inv.tables t table current.2.1 current.2.2⟩

omit [DecidableEq κ] in
theorem setTable_self (here : c.tables t = some table) : c.setTable t table = c := by
  rw [setTable, ← here, Function.update_eq_self]

omit [DecidableEq κ] in
theorem awaited_current (frames : ∀ frame ∈ c.frames, FrameOk keys c frame) (waits : wr ∈ c.awaited) :
    ∃ m table key value, c.Current m wr.table table ∧ table.isWeak = true
      ∧ table.entries wr.entryIndex = some (key, value) := by
  obtain ⟨frame, member, awaits⟩ := List.mem_filterMap.mp waits
  have ok := frames frame member
  cases frame with
  | weakRecord m t entryIndex bucket key =>
      have same : (⟨t, entryIndex⟩ : WeakRefRecord) = wr := Option.some.inj awaits
      obtain ⟨table, value, current, isWeak, here, -⟩ := ok
      rw [← same]
      exact ⟨m, table, key, value, current, isWeak, here⟩
  | growTable m old bucketCount capacity key value => cases awaits
  | shrinkTable m old bucketCount capacity => cases awaits
  | clearTable m old => cases awaits

end Lookup

section OneTable

/-- One table that was not replaced changes, and the entries that await a record keep their keys.
The records are those of the new table. -/
theorem HeapInv.setTable (inv : HeapInv keys c) (here : c.tables t = some table)
    (tableInv : TableInv keys table') (isWeak : table'.isWeak = table.isWeak)
    (nextTable : table'.nextTable = none)
    (frames : List (Frame κ ν))
    (framesOk : ∀ frame ∈ frames, FrameOk keys (c.setTable t table') frame)
    (awaits : (frames.filterMap Frame.awaited).Nodup)
    (firstWeakRef : κ → List WeakRefRecord)
    (elsewhere : ∀ key wr, wr.table ≠ t → (firstWeakRef key).count wr = (c.firstWeakRef key).count wr)
    (sameWaits : ∀ wr, wr.table ≠ t → (wr ∈ frames.filterMap Frame.awaited ↔ wr ∈ c.awaited))
    (there : ∀ key i, (firstWeakRef key).count ⟨t, i⟩
      = if table.isWeak = true ∧ (⟨t, i⟩ : WeakRefRecord) ∉ frames.filterMap Frame.awaited
          ∧ (table'.entries i).map Prod.fst = some key then 1 else 0) :
    HeapInv keys { c.setTable t table' with frames := frames, firstWeakRef := firstWeakRef } where
  tables t' other found noNext := by
    by_cases same : t' = t
    · have isTable : table' = other := by simpa [WeakHeap.setTable, same] using found
      rw [← isTable]
      exact tableInv
    · exact inv.tables t' other (by simpa [WeakHeap.setTable, same] using found) noNext
  current m t' has := by
    by_cases same : t' = t
    · exact ⟨table', has, by simp [WeakHeap.setTable, same], nextTable⟩
    · obtain ⟨other, has', found, noNext⟩ := inv.current m t' has
      exact ⟨other, has', by simpa [WeakHeap.setTable, same] using found, noNext⟩
  separate := inv.separate
  fresh t' other found := by
    by_cases same : t' = t
    · rw [same]
      exact inv.fresh t table here
    · exact inv.fresh t' other (by simpa [WeakHeap.setTable, same] using found)
  frames := framesOk
  awaits := awaits
  records key wr := by
    by_cases same : wr.table = t
    · obtain ⟨wrTable, i⟩ := wr
      have isT : wrTable = t := same
      rw [isT, there key i]
      have found : (c.setTable t table').tables t = some table' := by
        simp [WeakHeap.setTable]
      rw [target_eq found, isWeak, nextTable]
      apply if_congr _ rfl rfl
      by_cases reached : table.isWeak = true
          ∧ (⟨t, i⟩ : WeakRefRecord) ∉ frames.filterMap Frame.awaited
      · rw [if_pos ⟨reached.1, rfl, reached.2⟩]
        exact ⟨fun all => all.2.2, fun named => ⟨reached.1, reached.2, named⟩⟩
      · rw [if_neg fun all => reached ⟨all.1, all.2.2⟩]
        exact ⟨fun all => absurd ⟨all.1, all.2.1⟩ reached, fun never => by cases never⟩
    · have sameTarget : target { c.setTable t table' with
          frames := frames, firstWeakRef := firstWeakRef } wr = c.target wr := by
        have kept : (c.setTable t table').tables wr.table = c.tables wr.table := by
          simp [WeakHeap.setTable, same]
        rw [target, target, kept]
        cases c.tables wr.table with
        | none => rfl
        | some other =>
            apply if_congr _ rfl rfl
            rw [and_congr_right_iff]
            exact fun _ => and_congr_right fun _ => not_congr (sameWaits wr same)
      rw [elsewhere key wr same, inv.records key wr, sameTarget]

omit [DecidableEq κ] in
/-- The entries that await a record keep their keys. -/
theorem FrameOk.setTable {frame : Frame κ ν} (ok : FrameOk keys c frame)
    (here : c.tables t = some table) (table' : JSLinkedHashMap κ ν)
    (isWeak : table'.isWeak = table.isWeak) (nextTable : table'.nextTable = none)
    (bucketCount : table'.bucketCount = table.bucketCount)
    (kept : ∀ e k v, frame.awaited = some ⟨t, e⟩ → table.entries e = some (k, v) →
      ∃ v', table'.entries e = some (k, v')) :
    FrameOk keys (c.setTable t table') frame := by
  cases frame with
  | growTable m old bucketCount capacity key value => exact ok
  | shrinkTable m old bucketCount capacity => exact ok
  | clearTable m old =>
      refine ⟨ok.1, fun other found => ?_⟩
      by_cases same : old = t
      · have isTable : table' = other := by simpa [WeakHeap.setTable, same] using found
        rw [← isTable, isWeak]
        exact ok.2 table (same ▸ here)
      · exact ok.2 other (by simpa [WeakHeap.setTable, same] using found)
  | weakRecord m t' e bucket key =>
      obtain ⟨other, value, ⟨has, found, noNext⟩, weak, entry, inBucket⟩ := ok
      by_cases same : t' = t
      · have isTable : table = other := by
          rw [same, here] at found
          exact Option.some.inj found
        rw [← isTable] at weak entry inBucket
        obtain ⟨value', entry'⟩ := kept e key value (by rw [Frame.awaited, same]) entry
        refine ⟨table', value', ⟨has, by simp [WeakHeap.setTable, same], nextTable⟩,
          isWeak.trans weak, entry', ?_⟩
        rw [inBucket, bucketOf, bucketOf, bucketCount]
      · refine ⟨other, value, ⟨has, ?_, noNext⟩, weak, entry, inBucket⟩
        simpa [WeakHeap.setTable, same] using found

end OneTable

section Frames

/-- The operations in progress change, none that awaits a record among them. -/
theorem HeapInv.withFrames (inv : HeapInv keys c) {frames : List (Frame κ ν)}
    (framesOk : ∀ frame ∈ frames, FrameOk keys c frame)
    (awaits : frames.filterMap Frame.awaited = c.awaited) :
    HeapInv keys { c with frames := frames } where
  tables := inv.tables
  current := inv.current
  separate := inv.separate
  fresh := inv.fresh
  frames := framesOk
  awaits := by
    rw [awaited, awaits]
    exact inv.awaits
  records key wr := by
    have sameTarget : target { c with frames := frames } wr = c.target wr := by
      rw [target, target, awaited, awaits]
    rw [sameTarget]
    exact inv.records key wr

def Keeps (keys : MapKeys κ) (outcome : Option (Stepped κ ν)) : Prop :=
  ∃ reply c', outcome = some (reply, c') ∧ HeapInv keys c'

theorem HeapInv.same (inv : HeapInv keys c) (reply : Reply ν) : Keeps keys (some (reply, c)) :=
  ⟨reply, c, rfl, inv⟩

theorem HeapInv.wait (inv : HeapInv keys c) {frame : Frame κ ν} (ok : FrameOk keys c frame)
    (plain : frame.awaited = none) : Keeps keys (c.wait frame) := by
  refine ⟨_, _, rfl, inv.withFrames (fun other member => ?_) ?_⟩
  · rcases List.mem_cons.mp member with isNew | old
    · rw [isNew]
      exact ok
    · exact inv.frames other old
  · rw [List.filterMap_cons, plain]
    rfl

theorem HeapInv.popped {frames : List (Frame κ ν)} {frame : Frame κ ν}
    (inv : HeapInv keys { c with frames := frame :: frames }) (plain : frame.awaited = none) :
    HeapInv keys { c with frames := frames } := by
  apply inv.withFrames fun other member => inv.frames other (List.mem_cons_of_mem _ member)
  rw [awaited, List.filterMap_cons, plain]

end Frames

section Append

theorem HeapInv.counts (inv : HeapInv keys c) (here : c.tables t = some table)
    (noNext : table.nextTable = none) (k : κ) (i : Nat) : (c.firstWeakRef k).count ⟨t, i⟩
      = if table.isWeak = true ∧ (⟨t, i⟩ : WeakRefRecord) ∉ c.awaited
          ∧ (table.entries i).map Prod.fst = some k then 1 else 0 := by
  rw [inv.records k ⟨t, i⟩, target_eq here, noNext]
  apply if_congr _ rfl rfl
  by_cases reached : table.isWeak = true ∧ (⟨t, i⟩ : WeakRefRecord) ∉ c.awaited
  · rw [if_pos ⟨reached.1, rfl, reached.2⟩]
    exact ⟨fun named => ⟨reached.1, reached.2, named⟩, fun all => all.2.2⟩
  · rw [if_neg fun all => reached ⟨all.1, all.2.2⟩]
    exact ⟨nofun, fun all => absurd ⟨all.1, all.2.1⟩ reached⟩

omit [DecidableEq κ] in
theorem room_of_not_rehash (inv : TableInv keys table) (settled : table.shouldRehash 1 = false) :
    table.entryUsed < table.entryCapacity := by
  have used := inv.used
  rw [shouldRehash] at settled
  by_cases tooMany : 1 > uint32Max - table.liveCount
  · simp [tooMany] at settled
  · rw [if_neg tooMany] at settled
    by_cases room : table.liveCount + 1 < table.entryCapacity
        ∧ table.deletedCount ≤ (table.entryCapacity - (table.liveCount + 1)) / 2
        ∧ (table.liveCount + 1) / 2 ≤ table.entryCapacity - (table.liveCount + 1)
    · omega
    · simp [room] at settled

theorem HeapInv.append (inv : HeapInv keys c) (current : c.Current m t table)
    (room : table.entryUsed < table.entryCapacity) (key : κ) (value : ν) :
    Keeps keys (c.append m t table (table.bucketOf keys key) key value) := by
  obtain ⟨has, here, noNext⟩ := current
  have tableInv := inv.tables t table here noNext
  have pushedInv := tableInv.pushed room key value
  have unused : table.entries table.entryUsed = none := tableInv.unused _ (Nat.le_refl _)
  have notAwaited : (⟨t, table.entryUsed⟩ : WeakRefRecord) ∉ c.awaited := by
    intro waits
    obtain ⟨m', other, key', value', ⟨-, found, -⟩, -, entry⟩ := awaited_current inv.frames waits
    rw [here, Option.some.injEq] at found
    rw [← found, unused] at entry
    cases entry
  have kept : ∀ frame ∈ c.frames, FrameOk keys
      (c.setTable t (pushed table (table.bucketOf keys key) key value)) frame := by
    intro frame member
    apply (inv.frames frame member).setTable here (pushed table (table.bucketOf keys key) key value)
      rfl noNext rfl
    intro e k v _ entry
    have old : e ≠ table.entryUsed := Nat.ne_of_lt (tableInv.lt_used entry)
    refine ⟨v, ?_⟩
    rw [pushed_entries, if_neg old, entry]
  have counts := inv.counts here noNext
  rw [WeakHeap.append, pushEntry_eq room]
  simp only [Option.bind_eq_bind, Option.bind_some]
  by_cases isWeak : table.isWeak = true
  · rw [if_pos isWeak]
    refine ⟨_, _, rfl, inv.setTable here pushedInv rfl noNext _ ?_ ?_ _ (fun _ _ _ => rfl) ?_ ?_⟩
    · intro frame member
      rcases List.mem_cons.mp member with isNew | old
      · rw [isNew]
        refine ⟨pushed table (table.bucketOf keys key) key value, value,
          ⟨has, by simp [WeakHeap.setTable], noNext⟩, isWeak, ?_, rfl⟩
        rw [pushed_entries, if_pos rfl]
      · exact kept frame old
    · exact List.nodup_cons.mpr ⟨notAwaited, inv.awaits⟩
    · intro wr elsewhere
      show wr ∈ (⟨t, table.entryUsed⟩ : WeakRefRecord) :: c.awaited ↔ _
      rw [List.mem_cons]
      exact ⟨fun either => either.resolve_left fun same => elsewhere (same ▸ rfl), .inr⟩
    · intro k i
      rw [pushed_entries]
      apply (counts k i).trans (if_congr _ rfl rfl)
      show _ ↔ _ ∧ (⟨t, i⟩ : WeakRefRecord) ∉ (⟨t, table.entryUsed⟩ : WeakRefRecord) :: c.awaited ∧ _
      by_cases isNew : i = table.entryUsed
      · simp [isNew, unused]
      · simp [isNew]
  · rw [if_neg isWeak]
    refine ⟨_, _, rfl, inv.setTable here pushedInv rfl noNext c.frames kept inv.awaits
      c.firstWeakRef (fun _ _ _ => rfl) (fun _ _ => Iff.rfl) fun k i => ?_⟩
    apply (counts k i).trans
    simp [isWeak]

end Append

end PrimJs.LinkedHashMap
