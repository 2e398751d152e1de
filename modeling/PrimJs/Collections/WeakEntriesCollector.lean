import PrimJs.Collections.WeakEntriesInvariant

/-! What a garbage collection does to the weak entries. -/

namespace PrimJs.LinkedHashMap

open JSMap (MapKeys)
open JSLinkedHashMap WeakHeap

variable {κ ν : Type} {keys : MapKeys κ} {c c' : WeakHeap κ ν} {m t : Nat}
  {table table' : JSLinkedHashMap κ ν} {key : κ} {value : ν} {wr : WeakRefRecord}

section KeyDeath

/-- The table `t` without the entries of the records -/
structure Without (keys : MapKeys κ) (records : List WeakRefRecord) (t : TableId)
    (table table' : JSLinkedHashMap κ ν) : Prop where
  entries : ∀ i, table'.entries i = if ⟨t, i⟩ ∈ records then none else table.entries i
  used : table'.entryUsed = table.entryUsed
  isWeak : table'.isWeak = table.isWeak
  nextTable : table'.nextTable = table.nextTable
  bucketCount : table'.bucketCount = table.bucketCount
  inv : table.nextTable = none → TableInv keys table'

/-- Each bucket loses exactly these entries. -/
theorem Without.chainOf {records : List WeakRefRecord} (without : Without keys records t table table')
    (b : Nat) : table'.chainOf keys b
      = (table.chainOf keys b).filter fun i => decide (⟨t, i⟩ ∉ records) := by
  have inside (i : Nat) : table'.inBucket keys b i
      = (decide (⟨t, i⟩ ∉ records) && table.inBucket keys b i) := by
    by_cases gone : (⟨t, i⟩ : WeakRefRecord) ∈ records
    · simp [inBucket, without.entries, gone]
    · simp [inBucket, without.entries, gone, bucketOf, without.bucketCount]
  rw [JSLinkedHashMap.chainOf, JSLinkedHashMap.chainOf, List.filter_filter, without.used]
  congr 1
  funext i
  exact inside i

def PointsTo (c : WeakHeap κ ν) (key : κ) (wr : WeakRefRecord) : Prop :=
  ∃ table value, c.tables wr.table = some table ∧ table.isWeak = true ∧ table.nextTable = none
    ∧ table.entries wr.entryIndex = some (key, value)

theorem removeDead_spec (tables : ∀ t table, c.tables t = some table → table.nextTable = none →
    TableInv keys table) (points : PointsTo c key wr) :
    ∃ table table', c.tables wr.table = some table
      ∧ removeDead c wr = some (c.setTable wr.table table')
      ∧ Without keys [wr] wr.table table table' := by
  obtain ⟨table, value, found, isWeak, noNext, entry⟩ := points
  have tableInv := tables wr.table table found noNext
  obtain ⟨previous, run, inv⟩ := tableInv.removeDeadWeakEntry isWeak entry
  refine ⟨table, table.unlinkEntry (table.bucketOf keys key) previous wr.entryIndex, found, ?_,
    ?_, rfl, rfl, rfl, rfl, fun _ => inv⟩
  · rw [removeDead, found]
    simp only [run, Option.bind_eq_bind, Option.bind_some]
  · intro i
    rw [unlinkEntry_entries]
    have same : i = wr.entryIndex ↔ (⟨wr.table, i⟩ : WeakRefRecord) ∈ [wr] := by
      rw [List.mem_singleton]
      constructor
      · intro isEntry
        rw [isEntry]
      · exact fun isRecord => congrArg WeakRefRecord.entryIndex isRecord
    exact if_congr same rfl rfl

theorem Without.refl (tables : ∀ t table, c.tables t = some table → table.nextTable = none →
    TableInv keys table) (found : c.tables t = some table) : Without keys [] t table table :=
  ⟨fun i => by simp, rfl, rfl, rfl, rfl, tables t table found⟩

theorem Without.trans {first second : List WeakRefRecord} {table'' : JSLinkedHashMap κ ν}
    (without : Without keys first t table table') (without' : Without keys second t table' table'') :
    Without keys (first ++ second) t table table'' where
  entries i := by
    rw [without'.entries, without.entries]
    by_cases early : (⟨t, i⟩ : WeakRefRecord) ∈ first
    · simp [early]
    · simp [early]
  used := without'.used.trans without.used
  isWeak := without'.isWeak.trans without.isWeak
  nextTable := without'.nextTable.trans without.nextTable
  bucketCount := without'.bucketCount.trans without.bucketCount
  inv noNext := without'.inv (without.nextTable.trans noNext)

theorem Without.elsewhere (other : t ≠ wr.table) {found : JSLinkedHashMap κ ν} (inv : found.nextTable = none → TableInv keys found) :
    Without keys [wr] t found found where
  entries i := by
    have differs : (⟨t, i⟩ : WeakRefRecord) ∉ [wr] := by
      rw [List.mem_singleton]
      exact fun same => other (congrArg WeakRefRecord.table same)
    rw [if_neg differs]
  used := rfl
  isWeak := rfl
  nextTable := rfl
  bucketCount := rfl
  inv := inv

/-- The tables of `c'` are those of `c` without the entries of the records. -/
structure Cleaned (keys : MapKeys κ) (records : List WeakRefRecord) (c c' : WeakHeap κ ν) :
    Prop where
  rest : c' = { c with tables := c'.tables }
  absent : ∀ t, c.tables t = none → c'.tables t = none
  present : ∀ t table, c.tables t = some table →
    ∃ table', c'.tables t = some table' ∧ Without keys records t table table'

theorem foldlM_removeDead {records : List WeakRefRecord}
    (tables : ∀ t table, c.tables t = some table → table.nextTable = none → TableInv keys table)
    (distinct : records.Nodup) (points : ∀ wr ∈ records, PointsTo c key wr) :
    ∃ c', records.foldlM removeDead c = some c' ∧ Cleaned keys records c c' := by
  induction records generalizing c with
  | nil => exact ⟨c, rfl, rfl, fun _ none_ => none_, fun t table found =>
      ⟨table, found, Without.refl tables found⟩⟩
  | cons wr rest ih =>
      obtain ⟨notLater, distinct'⟩ := List.nodup_cons.mp distinct
      obtain ⟨table, table', found, run, without⟩ :=
        removeDead_spec tables (points wr List.mem_cons_self)
      have tables' : ∀ t other, (c.setTable wr.table table').tables t = some other →
          other.nextTable = none → TableInv keys other := by
        intro t other there noNext
        by_cases same : t = wr.table
        · have isTable : table' = other := by simpa [WeakHeap.setTable, same] using there
          rw [← isTable] at noNext ⊢
          exact without.inv (without.nextTable.symm.trans noNext)
        · exact tables t other (by simpa [WeakHeap.setTable, same] using there) noNext
      have points' : ∀ wr' ∈ rest, PointsTo (c.setTable wr.table table') key wr' := by
        intro wr' member
        obtain ⟨other, value, there, isWeak, noNext, entry⟩ :=
          points wr' (List.mem_cons_of_mem _ member)
        by_cases same : wr'.table = wr.table
        · have isTable : table = other := by
            rw [same, found] at there
            exact Option.some.inj there
          rw [← isTable] at isWeak noNext entry
          refine ⟨table', value, by simp [WeakHeap.setTable, same], without.isWeak.trans isWeak,
            without.nextTable.trans noNext, ?_⟩
          have differs : (⟨wr.table, wr'.entryIndex⟩ : WeakRefRecord) ∉ [wr] := by
            rw [List.mem_singleton, ← same]
            exact fun isWr => notLater (isWr ▸ member)
          rw [without.entries, if_neg differs, entry]
        · exact ⟨other, value, by simpa [WeakHeap.setTable, same] using there, isWeak, noNext, entry⟩
      obtain ⟨c', folded, cleaned⟩ := ih tables' distinct' points'
      refine ⟨c', ?_, ?_, ?_, ?_⟩
      · rw [List.foldlM_cons, run]
        exact folded
      · exact cleaned.rest
      · intro t none_
        apply cleaned.absent t
        have differs : t ≠ wr.table := fun same => by
          rw [same, found] at none_
          cases none_
        simpa [WeakHeap.setTable, differs] using none_
      · intro t other there
        by_cases same : t = wr.table
        · have isTable : table = other := by
            rw [same, found] at there
            exact Option.some.inj there
          obtain ⟨table'', last, without'⟩ :=
            cleaned.present t table' (by simp [WeakHeap.setTable, same])
          rw [same] at without' last ⊢
          exact ⟨table'', last, isTable ▸ without.trans without'⟩
        · obtain ⟨other', last, without'⟩ :=
            cleaned.present t other (by simpa [WeakHeap.setTable, same] using there)
          exact ⟨other', last, (Without.elsewhere same (tables t other there)).trans without'⟩

variable [DecidableEq κ]

theorem HeapInv.pointsTo (inv : HeapInv keys c) (member : wr ∈ c.firstWeakRef key) :
    PointsTo c key wr ∧ wr ∉ c.awaited ∧ c.target wr = some key := by
  have counted := inv.records key wr
  have positive : 0 < (c.firstWeakRef key).count wr := List.count_pos_iff.mpr member
  by_cases isTarget : c.target wr = some key
  · refine ⟨?_, ?_, isTarget⟩
    · cases found : c.tables wr.table with
      | none => simp [target, found] at isTarget
      | some table =>
          rw [target_eq found] at isTarget
          by_cases reached : table.isWeak = true ∧ table.nextTable = none ∧ wr ∉ c.awaited
          · rw [if_pos reached] at isTarget
            obtain ⟨⟨k, v⟩, entry, isKey⟩ := Option.map_eq_some_iff.mp isTarget
            have sameKey : k = key := isKey
            exact ⟨table, v, found, reached.1, reached.2.1, sameKey ▸ entry⟩
          · rw [if_neg reached] at isTarget
            cases isTarget
    · intro waits
      cases found : c.tables wr.table with
      | none => simp [target, found] at isTarget
      | some table =>
          rw [target_eq found, if_neg fun all => all.2.2 waits] at isTarget
          cases isTarget
  · rw [if_neg isTarget] at counted
    omega

theorem HeapInv.records_nodup (inv : HeapInv keys c) (key : κ) : (c.firstWeakRef key).Nodup := by
  rw [List.nodup_iff_count_le_one]
  intro wr
  rw [inv.records key wr]
  by_cases isTarget : c.target wr = some key
  · rw [if_pos isTarget]
  · rw [if_neg isTarget]
    exact Nat.zero_le 1

/-- All entries of the dead key are gone, and its records with them. -/
theorem HeapInv.cleaned (inv : HeapInv keys c) (cleaned : Cleaned keys (c.firstWeakRef key) c c') :
    HeapInv keys { c' with firstWeakRef := Function.update c'.firstWeakRef key [] } := by
  have rest := cleaned.rest
  have old {t : TableId} {table' : JSLinkedHashMap κ ν} (found : c'.tables t = some table') :
      ∃ table, c.tables t = some table
        ∧ Without keys (c.firstWeakRef key) t table table' := by
    cases was : c.tables t with
    | none =>
        rw [cleaned.absent t was] at found
        cases found
    | some table =>
        obtain ⟨other, there, without⟩ := cleaned.present t table was
        rw [found, Option.some.injEq] at there
        exact ⟨table, rfl, there ▸ without⟩
  have maps : c'.maps = c.maps := by rw [rest]
  have next : c'.next = c.next := by rw [rest]
  have frames : c'.frames = c.frames := by rw [rest]
  have firstWeakRef : c'.firstWeakRef = c.firstWeakRef := by rw [rest]
  have targets (wr : WeakRefRecord) : c'.target wr
      = if wr ∈ c.firstWeakRef key then none else c.target wr := by
    cases was : c.tables wr.table with
    | none =>
        have gone := cleaned.absent _ was
        simp [target, was, gone]
    | some table =>
        obtain ⟨table', found, without⟩ := cleaned.present _ _ was
        rw [target_eq found, target_eq was, without.isWeak, without.nextTable, without.entries,
          awaited, awaited, frames]
        by_cases member : wr ∈ c.firstWeakRef key
        · simp [member]
        · simp [member]
  constructor
  case tables =>
    intro t table' found noNext
    obtain ⟨table, -, without⟩ := old found
    exact without.inv (without.nextTable.symm.trans noNext)
  case current =>
    intro m t has
    have has' : c.maps[m]? = some (some t) := maps ▸ has
    obtain ⟨table, -, was, noNext⟩ := inv.current m t has'
    obtain ⟨table', found, without⟩ := cleaned.present t table was
    exact ⟨table', has, found, without.nextTable.trans noNext⟩
  case separate =>
    show ∀ (m m' : Nat) (t : TableId), c'.maps[m]? = _ → c'.maps[m']? = _ → _
    rw [maps]
    exact inv.separate
  case fresh =>
    intro t table' found
    obtain ⟨table, was, -⟩ := old found
    show t < c'.next
    rw [next]
    exact inv.fresh t table was
  case awaits =>
    show (c'.frames.filterMap Frame.awaited).Nodup
    rw [frames]
    exact inv.awaits
  case frames =>
    intro frame member
    have member' : frame ∈ c.frames := frames ▸ member
    have ok := inv.frames frame member'
    cases frame with
    | growTable m old bucketCount capacity key value => exact ok
    | shrinkTable m old bucketCount capacity => exact ok
    | clearTable m t =>
        refine ⟨next ▸ ok.1, fun table' found => ?_⟩
        obtain ⟨table, was, without⟩ := old found
        exact without.isWeak.trans (ok.2 table was)
    | weakRecord m t e bucket k =>
        obtain ⟨table, v, ⟨has, was, noNext⟩, isWeak, entry, inBucket⟩ := ok
        obtain ⟨table', found, without⟩ := cleaned.present t table was
        refine ⟨table', v, ⟨maps ▸ has, found, without.nextTable.trans noNext⟩,
          without.isWeak.trans isWeak, ?_, ?_⟩
        · have settled : (⟨t, e⟩ : WeakRefRecord) ∉ c.firstWeakRef key := by
            intro isRecord
            exact (inv.pointsTo isRecord).2.1 (List.mem_filterMap.mpr ⟨_, member', rfl⟩)
          rw [without.entries, if_neg settled, entry]
        · rw [inBucket, bucketOf, bucketOf, without.bucketCount]
  case records =>
    intro k wr
    show (Function.update c'.firstWeakRef key [] k).count wr = if c'.target wr = some k then 1 else 0
    rw [targets, firstWeakRef]
    by_cases member : wr ∈ c.firstWeakRef key
    · rw [if_pos member]
      by_cases same : k = key
      · simp [same]
      · have isTarget := (inv.pointsTo member).2.2
        have differs : c.target wr ≠ some k := by
          rw [isTarget]
          exact fun isKey => same (Option.some.inj isKey).symm
        have none_ := inv.records k wr
        rw [if_neg differs] at none_
        simp [same, none_]
    · rw [if_neg member]
      by_cases same : k = key
      · have none_ := inv.records key wr
        rw [List.count_eq_zero_of_not_mem member] at none_
        have differs : c.target wr ≠ some key := by
          intro isTarget
          rw [if_pos isTarget] at none_
          cases none_
        simp [same, differs]
      · rw [Function.update_of_ne same]
        exact inv.records k wr

theorem HeapInv.keyDeath (inv : HeapInv keys c) (key : κ) (live : some key ∉ c.frames.map Frame.key) :
    ∃ c', Cleaned keys (c.firstWeakRef key) c c'
      ∧ c.keyDeath key
        = some (.done, { c' with firstWeakRef := Function.update c'.firstWeakRef key [] })
      ∧ HeapInv keys { c' with firstWeakRef := Function.update c'.firstWeakRef key [] } := by
  obtain ⟨c', folded, cleaned⟩ := foldlM_removeDead inv.tables (inv.records_nodup key)
    fun wr member => (inv.pointsTo member).1
  refine ⟨c', cleaned, ?_, inv.cleaned cleaned⟩
  rw [WeakHeap.keyDeath, if_neg live, folded]
  rfl

end KeyDeath

section Deaths

variable [DecidableEq κ]

theorem HeapInv.mapDeath (inv : HeapInv keys c) (m : Nat) : Keeps keys (c.mapDeath m) := by
  rw [WeakHeap.mapDeath]
  by_cases held : m ∈ c.frames.map Frame.map
  · rw [if_pos held]
    exact inv.same .refused
  rw [if_neg held]
  have still {m' : Nat} {t : TableId} (has : (c.maps.set m none)[m']? = some (some t)) :
      c.maps[m']? = some (some t) := by
    by_cases same : m = m'
    · rw [same, List.getElem?_set_self'] at has
      cases there : c.maps[m']? with
      | none => simp [there] at has
      | some found => simp [there] at has
    · rw [List.getElem?_set_ne same] at has
      exact has
  refine ⟨_, _, rfl, inv.tables, ?_, ?_, inv.fresh, ?_, inv.awaits, inv.records⟩
  · intro m' t has
    obtain ⟨table, -, found⟩ := inv.current m' t (still has)
    exact ⟨table, has, found⟩
  · exact fun m' m'' t has has' => inv.separate m' m'' t (still has) (still has')
  · intro frame member
    have ok := inv.frames frame member
    cases frame with
    | growTable m old bucketCount capacity key value => exact ok
    | shrinkTable m old bucketCount capacity => exact ok
    | clearTable m old => exact ok
    | weakRecord m' t e bucket key =>
        obtain ⟨table, value, ⟨has, found⟩, rest⟩ := ok
        have differs : m ≠ m' := by
          intro same
          exact held (List.mem_map.mpr ⟨_, member, same.symm⟩)
        have has' : (c.maps.set m none)[m']? = some (some t) := by
          rw [List.getElem?_set_ne differs]
          exact has
        exact ⟨table, value, ⟨has', found⟩, rest⟩

theorem dropRecord_count (t : TableId) (table : JSLinkedHashMap κ ν)
    (records : κ → List WeakRefRecord) (i : Nat) (key : κ) (wr : WeakRefRecord) :
    (dropRecord t table records i key).count wr = (records key).count wr
      - if wr = ⟨t, i⟩ ∧ (table.entries i).map Prod.fst = some key then 1 else 0 := by
  rw [dropRecord]
  cases entry : table.entries i with
  | none => simp
  | some found =>
      simp only [deleteWeakMapEntryRecord]
      by_cases sameKey : key = found.1
      · rw [sameKey, Function.update_self, List.count_erase]
        by_cases here : wr = ⟨t, i⟩
        · simp [here]
        · have differs : ¬ (⟨t, i⟩ : WeakRefRecord) = wr := Ne.symm here
          simp [here, differs]
      · rw [Function.update_of_ne sameKey]
        simp [Ne.symm sameKey]

/-- Each live entry of the table loses a record. -/
theorem dropRecords_count (t : TableId) (table : JSLinkedHashMap κ ν)
    (records : κ → List WeakRefRecord) (n : Nat) (key : κ) (wr : WeakRefRecord) :
    ((List.range n).foldl (dropRecord t table) records key).count wr = (records key).count wr
      - if wr.table = t ∧ wr.entryIndex < n ∧ (table.entries wr.entryIndex).map Prod.fst = some key
          then 1 else 0 := by
  induction n with
  | zero => simp
  | succ n ih =>
      rw [List.range_succ, List.foldl_append, List.foldl_cons, List.foldl_nil, dropRecord_count, ih]
      obtain ⟨wrTable, e⟩ := wr
      by_cases here : e = n
      · rw [here]
        simp [-Option.map_eq_some_iff]
      · have notHere : ¬ ((⟨wrTable, e⟩ : WeakRefRecord) = ⟨t, n⟩
            ∧ (table.entries n).map Prod.fst = some key) :=
          fun all => here (congrArg WeakRefRecord.entryIndex all.1)
        have below : e < n + 1 ↔ e < n := by omega
        rw [if_neg notHere, Nat.sub_zero]
        congr 1
        exact if_congr (and_congr_right fun _ => and_congr_left fun _ => below.symm) rfl rfl

theorem HeapInv.tableDeath (inv : HeapInv keys c) (t : TableId) : Keeps keys (c.tableDeath t) := by
  rw [WeakHeap.tableDeath]
  by_cases used : some t ∈ c.maps
  · rw [if_pos used]
    exact inv.same .refused
  rw [if_neg used]
  cases found : c.tables t with
  | none => exact inv.same .refused
  | some table =>
      have notCurrent {m : Nat} {t' : TableId} (has : c.maps[m]? = some (some t')) : t' ≠ t :=
        fun same => used (same ▸ List.mem_of_getElem? has)
      have kept {t' : TableId} (other : t' ≠ t) :
          Function.update c.tables t none t' = c.tables t' := Function.update_of_ne other _ _
      have was {t' : TableId} {other : JSLinkedHashMap κ ν}
          (there : Function.update c.tables t none t' = some other) : c.tables t' = some other := by
        by_cases same : t' = t
        · rw [same, Function.update_self] at there
          cases there
        · rw [kept same] at there
          exact there
      refine ⟨_, _, rfl, ?_, ?_, inv.separate, ?_, ?_, inv.awaits, ?_⟩
      · exact fun t' other there noNext => inv.tables t' other (was there) noNext
      · intro m t' has
        obtain ⟨other, -, there, noNext⟩ := inv.current m t' has
        exact ⟨other, has, (kept (notCurrent has)).trans there, noNext⟩
      · exact fun t' other there => inv.fresh t' other (was there)
      · intro frame member
        have ok := inv.frames frame member
        cases frame with
        | growTable m old bucketCount capacity key value => exact ok
        | shrinkTable m old bucketCount capacity => exact ok
        | clearTable m old => exact ⟨ok.1, fun other there => ok.2 other (was there)⟩
        | weakRecord m t' e bucket key =>
            obtain ⟨other, value, ⟨has, there, noNext⟩, rest⟩ := ok
            exact ⟨other, value, ⟨has, (kept (notCurrent has)).trans there, noNext⟩, rest⟩
      · intro key wr
        have before := inv.records key wr
        by_cases same : wr.table = t
        · have gone : target { c with
              tables := Function.update c.tables t none
              firstWeakRef := if table.isWeak = true then dropRecords t table c.firstWeakRef
                else c.firstWeakRef } wr = none := by
            simp [target, same]
          have lost : (c.firstWeakRef key).count wr
              ≤ if table.isWeak = true ∧ wr.table = t ∧ wr.entryIndex < table.entryUsed
                ∧ (table.entries wr.entryIndex).map Prod.fst = some key then 1 else 0 := by
            rw [before]
            by_cases isTarget : c.target wr = some key
            · rw [if_pos isTarget]
              have found' : c.tables wr.table = some table := same ▸ found
              rw [target_eq found'] at isTarget
              by_cases reached : table.isWeak = true ∧ table.nextTable = none ∧ wr ∉ c.awaited
              · rw [if_pos reached] at isTarget
                have inside : wr.entryIndex < table.entryUsed := by
                  obtain ⟨entry, there, -⟩ := Option.map_eq_some_iff.mp isTarget
                  exact (inv.tables t table found reached.2.1).lt_used there
                rw [if_pos ⟨reached.1, same, inside, isTarget⟩]
              · rw [if_neg reached] at isTarget
                cases isTarget
            · rw [if_neg isTarget]
              exact Nat.zero_le _
          have never : ¬ (none : Option κ) = some key := (Option.some_ne_none key).symm
          rw [gone, if_neg never]
          by_cases isWeak : table.isWeak = true
          · simp only [isWeak, true_and] at lost
            simp only [isWeak, if_true]
            rw [dropRecords, dropRecords_count]
            exact Nat.sub_eq_zero_of_le lost
          · simp only [isWeak] at lost
            simp only [isWeak]
            exact Nat.le_zero.mp lost
        · have sameTarget : target { c with
              tables := Function.update c.tables t none
              firstWeakRef := if table.isWeak = true then dropRecords t table c.firstWeakRef
                else c.firstWeakRef } wr = c.target wr := by
            rw [target, target]
            simp only [kept same]
            rfl
          rw [sameTarget, ← before]
          by_cases isWeak : table.isWeak = true
          · simp only [isWeak, if_true]
            rw [dropRecords, dropRecords_count, if_neg fun all => same all.1, Nat.sub_zero]
          · simp only [isWeak]
            rfl

end Deaths

end PrimJs.LinkedHashMap
