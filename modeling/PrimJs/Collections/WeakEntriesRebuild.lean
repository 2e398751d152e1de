import PrimJs.Collections.WeakEntriesInvariant

/-! A collection gets a new table. -/

namespace PrimJs.LinkedHashMap

open JSMap (MapKeys)
open JSLinkedHashMap WeakHeap

variable {κ ν : Type} {keys : MapKeys κ} [DecidableEq κ] {c c' : WeakHeap κ ν} {m t old : Nat}
  {table table' newTable : JSLinkedHashMap κ ν} {key : κ} {value : ν} {wr : WeakRefRecord}

section NewTable

theorem HeapInv.next_unused (inv : HeapInv keys c) : c.tables c.next = none := by
  cases found : c.tables c.next with
  | none => rfl
  | some other => exact absurd (inv.fresh _ _ found) (Nat.lt_irrefl _)

theorem HeapInv.old_table (inv : HeapInv keys c) (has : c.maps[m]? = some (some t)) :
    t ≠ c.next := by
  obtain ⟨table, -, found, -⟩ := inv.current m t has
  exact Nat.ne_of_lt (inv.fresh t table found)

omit [DecidableEq κ] in
/-- Frames do not see the new table. -/
theorem FrameOk.beside {frame : Frame κ ν} (ok : FrameOk keys c frame)
    {maps : List (Option TableId)} {tables : TableId → Option (JSLinkedHashMap κ ν)}
    (firstWeakRef : κ → List WeakRefRecord)
    (weak : ∀ t other, t < c.next → tables t = some other →
      ∃ table, c.tables t = some table ∧ other.isWeak = table.isWeak)
    (awaited_ : ∀ (m : Nat) (t : TableId) e, frame.awaited = some ⟨t, e⟩ → c.maps[m]? = some (some t) →
      maps[m]? = some (some t) ∧ tables t = c.tables t) :
    FrameOk keys { c with
      tables := tables, next := c.next + 1, maps := maps, firstWeakRef := firstWeakRef } frame := by
  cases frame with
  | growTable m old bucketCount capacity key value => exact ok
  | shrinkTable m old bucketCount capacity => exact ok
  | clearTable m old =>
      refine ⟨Nat.lt_succ_of_lt ok.1, fun other found => ?_⟩
      obtain ⟨table, was, same⟩ := weak old other ok.1 found
      exact same.trans (ok.2 table was)
  | weakRecord m t e bucket key =>
      obtain ⟨table, value, ⟨has, found, noNext⟩, rest⟩ := ok
      obtain ⟨has', kept⟩ := awaited_ m t e rfl has
      exact ⟨table, value, ⟨has', kept.trans found, noNext⟩, rest⟩

theorem HeapInv.construct (inv : HeapInv keys c) (isWeak allocated : Bool) :
    Keeps keys (c.construct isWeak allocated) := by
  rw [WeakHeap.construct]
  by_cases fails : allocated = false
  · rw [if_pos fails]
    exact inv.same .exception
  have sizes : SizesOk kInitialMapBucketCount kInitialMapEntryCapacity := ⟨⟨0, rfl⟩, by decide⟩
  obtain ⟨table, alloc, tableInv, -, noNext, -, -, blank⟩ := alloc_spec ν keys sizes isWeak
  have unused := inv.next_unused
  have kept {t : TableId} (other : t ≠ c.next) :
      Function.update c.tables c.next (some table) t = c.tables t := Function.update_of_ne other _ _
  have maps {m t : Nat} (has : (c.maps ++ [some c.next])[m]? = some (some t)) :
      c.maps[m]? = some (some t) ∨ (m = c.maps.length ∧ t = c.next) := by
    rw [List.getElem?_append] at has
    by_cases inside : m < c.maps.length
    · rw [if_pos inside] at has
      exact .inl has
    · rw [if_neg inside] at has
      cases last : m - c.maps.length with
      | zero =>
          rw [last] at has
          have isNext : c.next = t := by simpa using has
          exact .inr ⟨by omega, isNext.symm⟩
      | succ n =>
          rw [last] at has
          simp at has
  have maps' {m t : Nat} (has : c.maps[m]? = some (some t)) :
      (c.maps ++ [some c.next])[m]? = some (some t) := by
    rw [List.getElem?_append_left (List.getElem?_eq_some_iff.mp has).1]
    exact has
  rw [if_neg fails, alloc]
  refine ⟨_, _, rfl, ?_, ?_, ?_, ?_, ?_, inv.awaits, ?_⟩
  · intro t other found noNext'
    by_cases same : t = c.next
    · have isTable : table = other := by simpa [WeakHeap.setTable, same] using found
      exact isTable ▸ tableInv
    · exact inv.tables t other ((kept same).symm.trans found) noNext'
  · intro m t has
    rcases maps has with has' | ⟨-, isNew⟩
    · obtain ⟨other, -, found, noNext'⟩ := inv.current m t has'
      exact ⟨other, has, (kept (inv.old_table has')).trans found, noNext'⟩
    · exact ⟨table, has, by simp [WeakHeap.setTable, isNew], noNext⟩
  · intro m m' t has has'
    rcases maps has with old | ⟨isLast, isNew⟩
    · rcases maps has' with old' | ⟨-, isNew'⟩
      · exact inv.separate m m' t old old'
      · exact absurd isNew' (inv.old_table old)
    · rcases maps has' with old' | ⟨isLast', -⟩
      · exact absurd isNew (inv.old_table old')
      · exact isLast.trans isLast'.symm
  · intro t other found
    by_cases same : t = c.next
    · rw [same]
      exact Nat.lt_succ_self _
    · exact Nat.lt_succ_of_lt (inv.fresh t other ((kept same).symm.trans found))
  · intro frame member
    apply (inv.frames frame member).beside
    · intro t other below found
      exact ⟨other, (kept (Nat.ne_of_lt below)).symm.trans found, rfl⟩
    · exact fun m t e _ has => ⟨maps' has, kept (inv.old_table has)⟩
  · intro key wr
    have before := inv.records key wr
    apply before.trans (if_congr _ rfl rfl)
    by_cases same : wr.table = c.next
    · simp [target, WeakHeap.setTable, same, unused, blank]
    · have found : (c.setTable c.next table).tables wr.table = c.tables wr.table := kept same
      rw [target, target, found]
      rfl

/-- The collection `m` gets the new table in place of the old one, whose records all moved. -/
theorem HeapInv.replace (inv : HeapInv keys c) (current : c.Current m old table)
    (table' : JSLinkedHashMap κ ν)
    (settled : ∀ e, (⟨old, e⟩ : WeakRefRecord) ∉ c.awaited)
    (replaced : table'.nextTable = some c.next) (sameWeak : table'.isWeak = table.isWeak)
    (newInv : TableInv keys newTable) (noNext : newTable.nextTable = none)
    (firstWeakRef : κ → List WeakRefRecord)
    (counts : ∀ key wr, (firstWeakRef key).count wr =
      if wr.table = c.next then
        if newTable.isWeak = true ∧ (newTable.entries wr.entryIndex).map Prod.fst = some key
          then 1 else 0
      else if wr.table = old then 0 else (c.firstWeakRef key).count wr) :
    HeapInv keys { c with
      tables := Function.update (Function.update c.tables old (some table')) c.next (some newTable)
      next := c.next + 1
      maps := c.maps.set m (some c.next)
      firstWeakRef := firstWeakRef } := by
  obtain ⟨has, found, oldNoNext⟩ := current
  have unused := inv.next_unused
  have notNew : old ≠ c.next := inv.old_table has
  have inside : m < c.maps.length := (List.getElem?_eq_some_iff.mp has).1
  have maps {m' t : Nat} (has' : (c.maps.set m (some c.next))[m']? = some (some t)) :
      (m' = m ∧ t = c.next) ∨ (m' ≠ m ∧ c.maps[m']? = some (some t)) := by
    by_cases same : m = m'
    · rw [← same, List.getElem?_set_self inside] at has'
      have isNext : c.next = t := by simpa using has'
      exact .inl ⟨same.symm, isNext.symm⟩
    · rw [List.getElem?_set_ne same] at has'
      exact .inr ⟨Ne.symm same, has'⟩
  have kept {t : TableId} (notNext : t ≠ c.next) (notOld : t ≠ old) :
      Function.update (Function.update c.tables old (some table')) c.next (some newTable) t
        = c.tables t := by
    rw [Function.update_of_ne notNext, Function.update_of_ne notOld]
  have atOld : Function.update (Function.update c.tables old (some table')) c.next
      (some newTable) old = some table' := by
    rw [Function.update_of_ne notNew, Function.update_self]
  have others {m' t : Nat} (differs : m' ≠ m) (has' : c.maps[m']? = some (some t)) : t ≠ old :=
    fun same => differs (inv.separate m' m old (same ▸ has') has)
  constructor
  case tables =>
    intro t other there noNext'
    by_cases isNew : t = c.next
    · have isTable : newTable = other := by simpa [isNew] using there
      exact isTable ▸ newInv
    · by_cases isOld : t = old
      · have isTable : table' = other := by
          rw [isOld] at there
          exact Option.some.inj (atOld.symm.trans there)
        rw [← isTable, replaced] at noNext'
        cases noNext'
      · exact inv.tables t other ((kept isNew isOld).symm.trans there) noNext'
  case current =>
    intro m' t has'
    rcases maps has' with ⟨-, isNew⟩ | ⟨differs, was⟩
    · exact ⟨newTable, has', by simp [isNew], noNext⟩
    · obtain ⟨other, -, there, noNext'⟩ := inv.current m' t was
      exact ⟨other, has', (kept (inv.old_table was) (others differs was)).trans there, noNext'⟩
  case separate =>
    intro m' m'' t has' has''
    rcases maps has' with ⟨same, isNew⟩ | ⟨differs, was⟩
    · rcases maps has'' with ⟨same', -⟩ | ⟨-, was'⟩
      · exact same.trans same'.symm
      · exact absurd isNew (inv.old_table was')
    · rcases maps has'' with ⟨-, isNew'⟩ | ⟨-, was'⟩
      · exact absurd isNew' (inv.old_table was)
      · exact inv.separate m' m'' t was was'
  case fresh =>
    intro t other there
    by_cases isNew : t = c.next
    · rw [isNew]
      exact Nat.lt_succ_self _
    · by_cases isOld : t = old
      · rw [isOld]
        exact Nat.lt_succ_of_lt (inv.fresh old table found)
      · exact Nat.lt_succ_of_lt (inv.fresh t other ((kept isNew isOld).symm.trans there))
  case awaits => exact inv.awaits
  case frames =>
    intro frame member
    apply (inv.frames frame member).beside
    · intro t other below there
      by_cases isOld : t = old
      · rw [isOld, atOld, Option.some.injEq] at there
        exact ⟨table, isOld ▸ found, there ▸ sameWeak⟩
      · exact ⟨other, (kept (Nat.ne_of_lt below) isOld).symm.trans there, rfl⟩
    · intro m' t e waits has'
      have notOld : t ≠ old := by
        intro same
        exact settled e (List.mem_filterMap.mpr ⟨frame, member, same ▸ waits⟩)
      have differs : m ≠ m' := by
        intro same
        rw [← same, has] at has'
        exact notOld (Option.some.inj (Option.some.inj has')).symm
      refine ⟨?_, kept (inv.old_table has') notOld⟩
      rw [List.getElem?_set_ne differs]
      exact has'
  case records =>
    intro key wr
    apply (counts key wr).trans
    have fresh : wr ∈ c.awaited → wr.table ≠ c.next := by
      intro waits
      obtain ⟨m', other, key', value', ⟨-, there, -⟩, -, -⟩ := awaited_current inv.frames waits
      exact Nat.ne_of_lt (inv.fresh wr.table other there)
    by_cases isNew : wr.table = c.next
    · have notAwaited : wr ∉ c.awaited := fun waits => fresh waits isNew
      rw [if_pos isNew]
      apply if_congr _ rfl rfl
      rw [target]
      have reached : newTable.isWeak = true → newTable.isWeak = true ∧ newTable.nextTable = none
          ∧ wr ∉ c.awaited := fun isWeak => ⟨isWeak, noNext, notAwaited⟩
      simp only [isNew, Function.update_self]
      change _ ↔ (if newTable.isWeak = true ∧ newTable.nextTable = none ∧ wr ∉ c.awaited
        then (newTable.entries wr.entryIndex).map Prod.fst else none) = some key
      by_cases isWeak : newTable.isWeak = true
      · rw [if_pos (reached isWeak)]
        exact ⟨fun both => both.2, fun named => ⟨isWeak, named⟩⟩
      · rw [if_neg fun all => isWeak all.1]
        exact ⟨fun both => absurd both.1 isWeak,
          fun wrong => absurd wrong (Option.some_ne_none key).symm⟩
    · rw [if_neg isNew]
      by_cases isOld : wr.table = old
      · rw [if_pos isOld, target]
        simp only [isOld, atOld, replaced]
        simp
      · have sameTables := kept isNew isOld
        rw [if_neg isOld, inv.records key wr]
        apply if_congr _ rfl rfl
        have found' : WeakHeap.tables { c with
            tables := Function.update (Function.update c.tables old (some table')) c.next
              (some newTable)
            next := c.next + 1
            maps := c.maps.set m (some c.next)
            firstWeakRef := firstWeakRef } wr.table = c.tables wr.table := sameTables
        rw [target, target, found']
        rfl

end NewTable

section Loop

theorem rebind_perm {from_ moved : WeakRefRecord} {records : List WeakRefRecord}
    (member : from_ ∈ records) :
    ∃ records', rebind from_ moved records = some records'
      ∧ records'.Perm (moved :: records.erase from_) := by
  induction records with
  | nil => cases member
  | cons first rest ih =>
      rw [rebind]
      by_cases same : first = from_
      · rw [if_pos same]
        refine ⟨_, rfl, ?_⟩
        rw [same, List.erase_cons_head]
      · have later : from_ ∈ rest := (List.mem_cons.mp member).resolve_left (Ne.symm same)
        obtain ⟨records', run, perm⟩ := ih later
        rw [if_neg same, run]
        refine ⟨first :: records', rfl, ?_⟩
        have differs : ¬ (first == from_) = true := by simpa using same
        rw [List.erase_cons_tail differs]
        exact (perm.cons first).trans (List.Perm.swap moved first _)

/-- What holds before the entry `n` of the old table is copied: the records of the entries before
it have moved. -/
structure RebuildInv (keys : MapKeys κ) (old new : TableId) (table : JSLinkedHashMap κ ν)
    (capacity : Nat) (records : κ → List WeakRefRecord) (n : Nat) (r : Rebuilding κ ν) : Prop where
  inv : TableInv keys r.newTable
  isWeak : r.newTable.isWeak = table.isWeak
  noNext : r.newTable.nextTable = none
  capacity : r.newTable.entryCapacity = capacity
  used : r.newTable.entryUsed = (List.range n).countP table.isLive
  counts : ∀ key wr, (r.firstWeakRef key).count wr =
    if wr.table = new then
      if table.isWeak = true ∧ (r.newTable.entries wr.entryIndex).map Prod.fst = some key
        then 1 else 0
    else if wr.table = old then
      if table.isWeak = true ∧ n ≤ wr.entryIndex
          ∧ (table.entries wr.entryIndex).map Prod.fst = some key then 1 else 0
    else (records key).count wr

variable {new capacity n : Nat} {records : κ → List WeakRefRecord} {r : Rebuilding κ ν}

/-- Nothing is copied for a deleted entry. -/
theorem RebuildInv.skip (inv : RebuildInv keys old new table capacity records n r)
    (blank : table.entries n = none) (hashNext : Nat → Nat) (deletedCount : Nat) :
    RebuildInv keys old new table capacity records (n + 1)
      { r with hashNext := hashNext, deletedCount := deletedCount } where
  inv := inv.inv
  isWeak := inv.isWeak
  noNext := inv.noNext
  capacity := inv.capacity
  used := by
    rw [List.range_succ, List.countP_append, inv.used]
    simp [isLive, blank]
  counts key wr := by
    apply (inv.counts key wr).trans
    apply if_congr Iff.rfl rfl
    apply if_congr Iff.rfl _ rfl
    refine if_congr (and_congr_right fun _ => ⟨?_, ?_⟩) rfl rfl
    · rintro ⟨from_, named⟩
      refine ⟨Nat.lt_of_le_of_ne from_ fun same => ?_, named⟩
      rw [← same, blank] at named
      cases named
    · exact fun both => ⟨Nat.le_of_succ_le both.1, both.2⟩

/-- A live entry is copied, and its record is bound to the copy. -/
theorem RebuildInv.copy (inv : RebuildInv keys old new table capacity records n r)
    (differ : old ≠ new) (entry : table.entries n = some (key, value))
    (room : r.newTable.entryUsed < capacity) :
    ∃ r', rebuildEntry keys old new table r n = some r'
      ∧ RebuildInv keys old new table capacity records (n + 1) r' := by
  have room' : r.newTable.entryUsed < r.newTable.entryCapacity := by
    rw [inv.capacity]
    exact room
  have pushedInv := inv.inv.pushed room' key value
  have used : (List.range (n + 1)).countP table.isLive = r.newTable.entryUsed + 1 := by
    rw [List.range_succ, List.countP_append, inv.used]
    simp [isLive, entry]
  have unused : r.newTable.entries r.newTable.entryUsed = none :=
    inv.inv.unused _ (Nat.le_refl _)
  rw [rebuildEntry]
  simp only [entry, pushEntry_eq room', Option.bind_eq_bind, Option.bind_some]
  by_cases isWeak : table.isWeak = true
  · have member : (⟨old, n⟩ : WeakRefRecord) ∈ r.firstWeakRef key := by
      have counted := inv.counts key ⟨old, n⟩
      rw [if_neg differ, if_pos rfl, if_pos ⟨isWeak, Nat.le_refl n, by rw [entry]; rfl⟩] at counted
      exact List.count_pos_iff.mp (by omega)
    obtain ⟨moved, run, perm⟩ : ∃ moved,
        rebind ⟨old, n⟩ ⟨new, r.newTable.entryUsed⟩ (r.firstWeakRef key) = some moved
          ∧ moved.Perm (⟨new, r.newTable.entryUsed⟩ :: (r.firstWeakRef key).erase ⟨old, n⟩) :=
      rebind_perm member
    rw [if_pos isWeak, run]
    refine ⟨_, rfl, pushedInv, inv.isWeak, inv.noNext, inv.capacity, used.symm, fun k wr => ?_⟩
    have before := inv.counts k wr
    have after : (Function.update r.firstWeakRef key moved k).count wr
        = (r.firstWeakRef k).count wr + (if k = key ∧ wr = ⟨new, r.newTable.entryUsed⟩ then 1 else 0)
          - if k = key ∧ wr = ⟨old, n⟩ then 1 else 0 := by
      by_cases sameKey : k = key
      · rw [sameKey, Function.update_self, perm.count_eq, List.count_cons, List.count_erase]
        by_cases isNew : wr = ⟨new, r.newTable.entryUsed⟩
        · have notOld : ¬ ((⟨new, r.newTable.entryUsed⟩ : WeakRefRecord) = ⟨old, n⟩) :=
            fun same => differ (congrArg WeakRefRecord.table same).symm
          simp [isNew, notOld, Ne.symm notOld]
        · by_cases isOld : wr = ⟨old, n⟩
          · simp [isOld, differ, Ne.symm differ]
          · simp [isNew, isOld, Ne.symm isNew, Ne.symm isOld]
      · simp [sameKey]
    apply after.trans
    rw [before]
    obtain ⟨wt, i⟩ := wr
    simp only [pushed_entries]
    by_cases isNew : wt = new
    · have notOld : ¬ (k = key ∧ (⟨wt, i⟩ : WeakRefRecord) = ⟨old, n⟩) :=
        fun both => differ (isNew ▸ (congrArg WeakRefRecord.table both.2).symm)
      rw [if_pos isNew, if_pos isNew, if_neg notOld, Nat.sub_zero]
      by_cases isLast : i = r.newTable.entryUsed
      · by_cases sameKey : k = key
        · simp [isLast, isNew, unused, isWeak, sameKey]
        · simp [isLast, unused, sameKey, Ne.symm sameKey]
      · have notLast : ¬ (k = key ∧ (⟨wt, i⟩ : WeakRefRecord) = ⟨new, r.newTable.entryUsed⟩) :=
          fun both => isLast (congrArg WeakRefRecord.entryIndex both.2)
        rw [if_neg notLast, if_neg isLast, Nat.add_zero]
    · have notNew : ¬ (k = key ∧ (⟨wt, i⟩ : WeakRefRecord) = ⟨new, r.newTable.entryUsed⟩) :=
        fun both => isNew (congrArg WeakRefRecord.table both.2)
      rw [if_neg isNew, if_neg isNew, if_neg notNew, Nat.add_zero]
      by_cases isOld : wt = old
      · rw [if_pos isOld, if_pos isOld]
        by_cases isN : i = n
        · by_cases sameKey : k = key
          · simp [isN, isOld, sameKey, entry, isWeak]
          · simp [isN, sameKey, entry, Ne.symm sameKey]
        · have notN : ¬ (k = key ∧ (⟨wt, i⟩ : WeakRefRecord) = ⟨old, n⟩) :=
            fun both => isN (congrArg WeakRefRecord.entryIndex both.2)
          have below : n ≤ i ↔ n + 1 ≤ i := by omega
          rw [if_neg notN, Nat.sub_zero]
          exact if_congr (and_congr_right fun _ => and_congr_left fun _ => below) rfl rfl
      · have notOld : ¬ (k = key ∧ (⟨wt, i⟩ : WeakRefRecord) = ⟨old, n⟩) :=
          fun both => isOld (congrArg WeakRefRecord.table both.2)
        rw [if_neg isOld, if_neg isOld, if_neg notOld, Nat.sub_zero]
  · rw [if_neg isWeak]
    refine ⟨_, rfl, pushedInv, inv.isWeak, inv.noNext, inv.capacity, used.symm, fun k wr => ?_⟩
    apply (inv.counts k wr).trans
    simp [isWeak]

/-- The whole loop: there is room for every live entry. -/
theorem RebuildInv.loop (tableInv : TableInv keys table) (differ : old ≠ new)
    (fits : table.liveCount ≤ capacity) (start : RebuildInv keys old new table capacity records 0 r)
    (n : Nat) (inside : n ≤ table.entryUsed) :
    ∃ r', (List.range n).foldlM (rebuildEntry keys old new table) r = some r'
      ∧ RebuildInv keys old new table capacity records n r' := by
  induction n with
  | zero => exact ⟨r, rfl, start⟩
  | succ n ih =>
      obtain ⟨r', run, inv⟩ := ih (Nat.le_of_succ_le inside)
      have next : ∃ r'', rebuildEntry keys old new table r' n = some r''
          ∧ RebuildInv keys old new table capacity records (n + 1) r'' := by
        cases entry : table.entries n with
        | none =>
            rw [rebuildEntry]
            simp only [entry]
            by_cases isWeak : table.isWeak = true
            · rw [if_pos isWeak]
              exact ⟨r', rfl, inv.skip entry r'.hashNext r'.deletedCount⟩
            · rw [if_neg isWeak]
              exact ⟨_, rfl, inv.skip entry _ _⟩
        | some found =>
            apply inv.copy differ entry
            have sublist := (List.range_sublist.mpr inside).countP_le (p := table.isLive)
            rw [List.range_succ, List.countP_append, ← tableInv.counted, ← inv.used] at sublist
            have live : List.countP table.isLive [n] = 1 := by
              simp [isLive, entry]
            omega
      obtain ⟨r'', step, inv'⟩ := next
      refine ⟨r'', ?_, inv'⟩
      rw [List.range_succ, List.foldlM_append, run]
      simp only [List.foldlM_cons, List.foldlM_nil, step, Option.bind_eq_bind, Option.bind_some]
      rfl

/-- The operation waits for a table that can still replace the old one. -/
structure MayReplace (c : WeakHeap κ ν) (m : Nat) (old : TableId) (added capacity : Nat) : Prop where
  current : c.maps[m]? = some (some old)
  settled : ∀ wr ∈ c.awaited, wr.table ≠ old
  fits : ∀ table ∈ c.tables old, table.liveCount + added ≤ capacity

theorem HeapInv.rebuild (inv : HeapInv keys c) {bucketCount added : Nat}
    (sizes : SizesOk bucketCount capacity) (may : MayReplace c m old added capacity) :
    ∃ c' newTable, c.rebuild keys m old bucketCount capacity = some c' ∧ HeapInv keys c'
      ∧ c'.Current m c.next newTable ∧ newTable.entryUsed + added ≤ newTable.entryCapacity := by
  obtain ⟨table, current⟩ := inv.current m old may.current
  obtain ⟨has, found, oldNoNext⟩ := current
  have tableInv := inv.tables old table found oldNoNext
  have differ := inv.old_table has
  have room : table.liveCount + added ≤ capacity := may.fits table found
  obtain ⟨blank, alloc, blankInv, isWeak, noNext, empty, blankCapacity, blankEntries⟩ :=
    alloc_spec ν keys sizes table.isWeak
  have start : RebuildInv keys old c.next table capacity c.firstWeakRef 0
      ⟨blank, table.hashNext, 0, c.firstWeakRef⟩ := by
    refine ⟨blankInv, isWeak, noNext, blankCapacity, by simp [empty], fun key wr => ?_⟩
    by_cases isNew : wr.table = c.next
    · have unused : c.target wr ≠ some key := by
        rw [target, isNew, inv.next_unused]
        exact (Option.some_ne_none key).symm
      rw [if_pos isNew, inv.records key wr, if_neg unused]
      simp [blankEntries]
    · rw [if_neg isNew]
      by_cases isOld : wr.table = old
      · obtain ⟨wt, i⟩ := wr
        have isT : wt = old := isOld
        have notAwaited : (⟨old, i⟩ : WeakRefRecord) ∉ c.awaited :=
          fun waits => may.settled _ waits rfl
        rw [if_pos isOld, isT]
        apply (inv.counts found oldNoNext key i).trans (if_congr _ rfl rfl)
        exact and_congr_right fun _ => and_congr_left fun _ => ⟨fun _ => Nat.zero_le i, fun _ => notAwaited⟩
      · rw [if_neg isOld]
  obtain ⟨r, run, last⟩ := RebuildInv.loop tableInv differ (by omega) start table.entryUsed
    (Nat.le_refl _)
  have moved : ∀ key wr, (r.firstWeakRef key).count wr =
      if wr.table = c.next then
        if r.newTable.isWeak = true ∧ (r.newTable.entries wr.entryIndex).map Prod.fst = some key
          then 1 else 0
      else if wr.table = old then 0 else (c.firstWeakRef key).count wr := by
    intro key wr
    apply (last.counts key wr).trans
    rw [last.isWeak]
    refine if_congr Iff.rfl rfl (if_congr Iff.rfl ?_ rfl)
    apply if_neg
    rintro ⟨-, beyond, named⟩
    rw [tableInv.unused _ beyond] at named
    cases named
  have replaced := inv.replace ⟨has, found, oldNoNext⟩
    { table with
      hashNext := r.hashNext
      deletedCount := if table.isWeak then table.deletedCount else r.deletedCount
      nextTable := some c.next }
    (fun e waits => may.settled _ waits rfl) rfl rfl last.inv last.noNext r.firstWeakRef moved
  refine ⟨_, r.newTable, ?_, replaced, ⟨?_, by simp, last.noNext⟩, ?_⟩
  · rw [WeakHeap.rebuild, found]
    simp only [alloc, run, Option.bind_eq_bind, Option.bind_some]
  · rw [List.getElem?_set_self (List.getElem?_eq_some_iff.mp has).1]
  · rw [last.used, last.capacity, ← tableInv.counted]
    exact room

end Loop

section Resume

/-- The condition under which a waiting operation goes on as it should -/
def Frame.MayResume (c : WeakHeap κ ν) (allocated : Bool) : Frame κ ν → Prop
  | .growTable m old _ capacity _ _ => allocated = true → MayReplace c m old 1 capacity
  | .shrinkTable m old _ capacity => allocated = true → MayReplace c m old 0 capacity
  | .clearTable m old => allocated = true → c.maps[m]? = some (some old)
  | .weakRecord _ t entryIndex bucket _ =>
      allocated = false → ∀ table ∈ c.tables t, table.buckets bucket = entryIndex

section

variable (inv : HeapInv keys c) {bucketCount : Nat} (sizes : SizesOk bucketCount capacity)

include inv sizes

theorem HeapInv.tableGrown (may : MayReplace c m old 1 capacity) (key : κ) (value : ν) :
    Keeps keys (c.tableGrown keys m old bucketCount capacity key value) := by
  obtain ⟨c', newTable, run, inv', current, room⟩ := inv.rebuild sizes may
  rw [WeakHeap.tableGrown, run]
  simp only [current.2.1, Option.bind_eq_bind, Option.bind_some]
  exact inv'.append current room key value

theorem HeapInv.tableShrunk (may : MayReplace c m old 0 capacity) :
    Keeps keys (c.tableShrunk keys m old bucketCount capacity) := by
  obtain ⟨c', newTable, run, inv', -⟩ := inv.rebuild sizes may
  rw [WeakHeap.tableShrunk, run]
  exact ⟨_, _, rfl, inv'⟩

end

theorem HeapInv.tableCleared (inv : HeapInv keys c) (ok : FrameOk keys c (.clearTable m old))
    (has : c.maps[m]? = some (some old)) : Keeps keys (c.tableCleared m old) := by
  obtain ⟨table, -, found, oldNoNext⟩ := inv.current m old has
  have strong := ok.2 table found
  have sizes : SizesOk kInitialMapBucketCount kInitialMapEntryCapacity := ⟨⟨0, rfl⟩, by decide⟩
  obtain ⟨blank, alloc, blankInv, isWeak, noNext, -, -, blankEntries⟩ :=
    alloc_spec ν keys sizes false
  have settled : ∀ e, (⟨old, e⟩ : WeakRefRecord) ∉ c.awaited := by
    intro e waits
    obtain ⟨m', other, key', value', ⟨-, there, -⟩, weak, -⟩ := awaited_current inv.frames waits
    rw [found, Option.some.injEq] at there
    rw [← there, strong] at weak
    cases weak
  have counts : ∀ key wr, (c.firstWeakRef key).count wr =
      if wr.table = c.next then
        if blank.isWeak = true ∧ (blank.entries wr.entryIndex).map Prod.fst = some key then 1 else 0
      else if wr.table = old then 0 else (c.firstWeakRef key).count wr := by
    intro key wr
    by_cases isNew : wr.table = c.next
    · have unused : c.target wr ≠ some key := by
        rw [target, isNew, inv.next_unused]
        exact (Option.some_ne_none key).symm
      rw [if_pos isNew, inv.records key wr, if_neg unused]
      simp [blankEntries]
    · rw [if_neg isNew]
      by_cases isOld : wr.table = old
      · obtain ⟨wt, i⟩ := wr
        have isT : wt = old := isOld
        rw [if_pos isOld, isT, inv.counts found oldNoNext key i, strong]
        simp
      · rw [if_neg isOld]
  have replaced := inv.replace ⟨has, found, oldNoNext⟩
    { table with nextTable := some c.next, deletedCount := kJSLinkedHashMapClearedCount }
    settled rfl rfl blankInv noNext c.firstWeakRef counts
  rw [WeakHeap.tableCleared, found]
  simp only [alloc, Option.bind_eq_bind, Option.bind_some]
  exact ⟨_, _, rfl, replaced⟩

variable {frames : List (Frame κ ν)} {e bucket : Nat}

section

variable (inv : HeapInv keys { c with frames := .weakRecord m t e bucket key :: frames })

include inv

/-- The record that was awaited is there. -/
theorem HeapInv.recordInserted :
    HeapInv keys { c with
      frames := frames, firstWeakRef := insertWeakMapEntryRecord c.firstWeakRef key ⟨t, e⟩ } := by
  obtain ⟨table, value, ⟨has, found, noNext⟩, isWeak, entry, inBucket⟩ :=
    inv.frames _ List.mem_cons_self
  have tableInv := inv.tables t table found noNext
  have counts := inv.counts found noNext
  obtain ⟨notOther, distinct⟩ := List.nodup_cons.mp inv.awaits
  have kept : ∀ frame ∈ frames, FrameOk keys (c.setTable t table) frame := by
    intro frame member
    have ok := inv.frames frame (List.mem_cons_of_mem _ member)
    exact ok.setTable found table rfl noNext rfl fun _ _ v _ there => ⟨v, there⟩
  have elsewhere : ∀ k wr, wr.table ≠ t →
      (insertWeakMapEntryRecord c.firstWeakRef key ⟨t, e⟩ k).count wr
        = (c.firstWeakRef k).count wr := by
    intro k wr other
    have differs : ¬ (⟨t, e⟩ : WeakRefRecord) = wr :=
      fun same => other (congrArg WeakRefRecord.table same).symm
    by_cases sameKey : k = key
    · simp [insertWeakMapEntryRecord, sameKey, differs]
    · simp [insertWeakMapEntryRecord, sameKey]
  have sameWaits : ∀ wr : WeakRefRecord, wr.table ≠ t → (wr ∈ frames.filterMap Frame.awaited
      ↔ wr ∈ (⟨t, e⟩ : WeakRefRecord) :: frames.filterMap Frame.awaited) := by
    intro wr other
    rw [List.mem_cons]
    exact ⟨.inr, fun either => either.resolve_left fun same => other (same ▸ rfl)⟩
  have there : ∀ k i, (insertWeakMapEntryRecord c.firstWeakRef key ⟨t, e⟩ k).count ⟨t, i⟩
      = if table.isWeak = true ∧ (⟨t, i⟩ : WeakRefRecord) ∉ frames.filterMap Frame.awaited
          ∧ (table.entries i).map Prod.fst = some k then 1 else 0 := by
    intro k i
    have before : (c.firstWeakRef k).count ⟨t, i⟩ = if table.isWeak = true
        ∧ (⟨t, i⟩ : WeakRefRecord) ∉ (⟨t, e⟩ : WeakRefRecord) :: frames.filterMap Frame.awaited
        ∧ (table.entries i).map Prod.fst = some k then 1 else 0 := counts k i
    by_cases isNew : i = e
    · have waited : (c.firstWeakRef k).count ⟨t, i⟩ = 0 := by
        rw [before, if_neg]
        exact fun all => all.2.1 (isNew ▸ List.mem_cons_self)
      rw [isNew] at waited ⊢
      rw [entry]
      by_cases sameKey : k = key
      · rw [sameKey] at waited ⊢
        simp [insertWeakMapEntryRecord, waited, isWeak, notOther]
      · simp [insertWeakMapEntryRecord, sameKey, waited, Ne.symm sameKey]
    · have differs : ¬ (⟨t, e⟩ : WeakRefRecord) = ⟨t, i⟩ :=
        fun same => isNew (congrArg WeakRefRecord.entryIndex same).symm
      have unchanged : (insertWeakMapEntryRecord c.firstWeakRef key ⟨t, e⟩ k).count ⟨t, i⟩
          = (c.firstWeakRef k).count ⟨t, i⟩ := by
        by_cases sameKey : k = key
        · simp [insertWeakMapEntryRecord, sameKey, differs]
        · simp [insertWeakMapEntryRecord, sameKey]
      rw [unchanged, before]
      apply if_congr _ rfl rfl
      simp [Ne.symm differs]
  have result := inv.setTable found tableInv rfl noNext frames kept distinct
    (insertWeakMapEntryRecord c.firstWeakRef key ⟨t, e⟩) elsewhere sameWaits there
  rw [setTable_self found] at result
  exact result

/-- The record could not be allocated, and the new entry is still the first of its bucket. -/
theorem HeapInv.recordFailed (head : ∀ table ∈ c.tables t, table.buckets bucket = e) :
    ∃ table, c.tables t = some table ∧ HeapInv keys { c.setTable t
      (table.unlinkEntry bucket kInvalidMapEntry e) with frames := frames } := by
  obtain ⟨table, value, ⟨has, found, noNext⟩, isWeak, entry, inBucket⟩ :=
    inv.frames _ List.mem_cons_self
  have tableInv := inv.tables t table found noNext
  have counts := inv.counts found noNext
  obtain ⟨notOther, distinct⟩ := List.nodup_cons.mp inv.awaits
  have first : table.buckets bucket = e := head table found
  have follows : Follows (table.chainOf keys bucket) kInvalidMapEntry e := by
    have chain := tableInv.linked bucket (inBucket ▸ tableInv.bucketOf_lt key)
    have member : e ∈ table.chainOf keys bucket :=
      tableInv.mem_chainOf.mpr ⟨key, value, entry, inBucket.symm⟩
    cases list : table.chainOf keys bucket with
    | nil =>
        rw [list] at member
        cases member
    | cons x rest =>
        rw [list] at chain
        have isX : table.buckets bucket = x := (Chain.cons_iff.mp chain).1
        exact ⟨[], rest, by rw [← isX, first]; rfl, rfl⟩
  refine ⟨table, found, inv.setTable found (tableInv.unlinkEntry entry inBucket follows) rfl noNext
    frames ?_ distinct c.firstWeakRef (fun _ _ _ => rfl) ?_ ?_⟩
  · intro frame member
    have ok := inv.frames frame (List.mem_cons_of_mem _ member)
    apply ok.setTable found (table.unlinkEntry bucket kInvalidMapEntry e) rfl noNext rfl
    intro i k v waits there
    have differs : i ≠ e := by
      intro same
      apply notOther
      rw [← same]
      exact List.mem_filterMap.mpr ⟨frame, member, waits⟩
    refine ⟨v, ?_⟩
    rw [unlinkEntry_entries, if_neg differs, there]
  · intro wr other
    show _ ↔ wr ∈ (⟨t, e⟩ : WeakRefRecord) :: frames.filterMap Frame.awaited
    rw [List.mem_cons]
    exact ⟨.inr, fun either => either.resolve_left fun same => other (same ▸ rfl)⟩
  · intro k i
    apply (counts k i).trans (if_congr _ rfl rfl)
    show _ ∧ (⟨t, i⟩ : WeakRefRecord) ∉ (⟨t, e⟩ : WeakRefRecord) :: frames.filterMap Frame.awaited
      ∧ _ ↔ _
    rw [unlinkEntry_entries]
    by_cases isNew : i = e
    · simp [isNew]
    · simp [isNew]

end

theorem HeapInv.resume (inv : HeapInv keys c) {allocated : Bool}
    (may : ∀ frame ∈ c.frames.head?, frame.MayResume c allocated) : Keeps keys (c.resume keys allocated) := by
  obtain ⟨tables, next, maps, firstWeakRef, frames⟩ := c
  cases frames with
  | nil => exact inv.same .refused
  | cons frame frames =>
      have ready := may frame rfl
      have ok := inv.frames frame List.mem_cons_self
      let c : WeakHeap κ ν := ⟨tables, next, maps, firstWeakRef, frames⟩
      cases frame with
      | growTable m old bucketCount capacity key value =>
          have rest : HeapInv keys c := HeapInv.popped (c := c) inv rfl
          cases allocated with
          | false => exact rest.same .exception
          | true =>
              obtain ⟨current, settled, fits⟩ := ready rfl
              have sizes : SizesOk bucketCount capacity := ok
              exact rest.tableGrown sizes ⟨current, settled, fits⟩ key value
      | shrinkTable m old bucketCount capacity =>
          have rest : HeapInv keys c := HeapInv.popped (c := c) inv rfl
          cases allocated with
          | false => exact rest.same .exception
          | true =>
              obtain ⟨current, settled, fits⟩ := ready rfl
              have sizes : SizesOk bucketCount capacity := ok
              exact rest.tableShrunk sizes ⟨current, settled, fits⟩
      | clearTable m old =>
          have rest : HeapInv keys c := HeapInv.popped (c := c) inv rfl
          cases allocated with
          | false => exact rest.same .exception
          | true => exact rest.tableCleared ok (ready rfl)
      | weakRecord m t e bucket key =>
          cases allocated with
          | false =>
              obtain ⟨table, found, result⟩ := HeapInv.recordFailed (c := c) inv (ready rfl)
              refine ⟨.exception, _, ?_, result⟩
              have there : tables t = some table := found
              simp only [WeakHeap.resume, recordReady, there]
              rfl
          | true => exact ⟨.done, _, rfl, HeapInv.recordInserted (c := c) inv⟩

end Resume

end PrimJs.LinkedHashMap
