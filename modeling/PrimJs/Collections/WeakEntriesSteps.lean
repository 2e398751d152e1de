import PrimJs.Collections.WeakEntriesInvariant

/-! What the operations on a collection keep. -/

namespace PrimJs.LinkedHashMap

open JSMap (MapKeys)
open JSLinkedHashMap WeakHeap

variable {κ ν : Type} {keys : MapKeys κ} [DecidableEq κ] {c c' : WeakHeap κ ν} {m t e : Nat}
  {table table' : JSLinkedHashMap κ ν} {key : κ} {value : ν} {wr : WeakRefRecord}

section Value

def setValue (table : JSLinkedHashMap κ ν) (e : Nat) (key : κ) (value : ν) : JSLinkedHashMap κ ν :=
  { table with entries := Function.update table.entries e (some (key, value)) }

omit [DecidableEq κ] in
theorem setValue_keys {old : ν} (here : table.entries e = some (key, old)) (value : ν) (i : Nat) :
    ((setValue table e key value).entries i).map Prod.fst = (table.entries i).map Prod.fst := by
  by_cases same : i = e
  · simp [setValue, same, here]
  · simp [setValue, same]

omit [DecidableEq κ] in
theorem TableInv.setValue (inv : TableInv keys table) {old : ν}
    (here : table.entries e = some (key, old)) (value : ν) :
    TableInv keys (setValue table e key value) := by
  have named := setValue_keys here value
  have bucket (b : Nat) : (LinkedHashMap.setValue table e key value).inBucket keys b
      = table.inBucket keys b := by
    funext i
    rw [Bool.eq_iff_iff, inBucket_iff, inBucket_iff]
    by_cases same : i = e
    · simp [LinkedHashMap.setValue, same, here, bucketOf]
    · simp [LinkedHashMap.setValue, same, bucketOf]
  have chains (b : Nat) : (LinkedHashMap.setValue table e key value).chainOf keys b
      = table.chainOf keys b := by
    rw [chainOf, chainOf, bucket b]
    rfl
  have live : (LinkedHashMap.setValue table e key value).isLive = table.isLive := by
    funext i
    have same := congrArg Option.isSome (named i)
    simpa [isLive] using same
  constructor
  case power => exact inv.power
  case used => exact inv.used
  case fits => exact inv.fits
  case small => exact inv.small
  case counted =>
    rw [live]
    exact inv.counted
  case unused =>
    intro i beyond
    have none_ := inv.unused i beyond
    have same := named i
    rw [none_] at same
    simpa using same
  case linked =>
    intro b inside
    rw [chains b]
    exact inv.linked b inside
  case recorded =>
    intro isWeak i k v entry
    have same := named i
    rw [entry] at same
    obtain ⟨entry', there, isKey⟩ := Option.map_eq_some_iff.mp same.symm
    have whole : table.entries i = some (k, entry'.2) := by
      rw [there, Option.some.injEq]
      exact Prod.ext isKey rfl
    exact inv.recorded isWeak i k entry'.2 whole

end Value

section Set

section

variable (inv : HeapInv keys c)

include inv

theorem HeapInv.add (current : c.Current m t table) (key : κ) (value : ν) :
    Keeps keys (c.add m t table (table.bucketOf keys key) key value) := by
  have tableInv := inv.tables t table current.2.1 current.2.2
  rw [WeakHeap.add]
  by_cases settled : table.shouldRehash 1 = false
  · rw [if_pos settled]
    exact inv.append current (room_of_not_rehash tableInv settled) key value
  rw [if_neg settled]
  by_cases full : table.liveCount = uint32Max
  · rw [if_pos full]
    exact inv.same .exception
  rw [if_neg full]
  cases isCapacity : computeCapacity (table.liveCount + 1) with
  | none => exact inv.same .exception
  | some capacity =>
      cases isBuckets : newBucketCount capacity with
      | none =>
          simp only [isBuckets]
          exact inv.same .exception
      | some bucketCount =>
          have ok : FrameOk keys c (.growTable m t bucketCount capacity key value) :=
            sizesOk_of isCapacity isBuckets
          simp only [isBuckets]
          exact inv.wait ok rfl

theorem HeapInv.setValue (current : c.Current m t table) {old : ν}
    (here : table.entries e = some (key, old)) (value : ν) :
    HeapInv keys (c.setTable t (setValue table e key value)) := by
  obtain ⟨has, found, noNext⟩ := current
  have tableInv := inv.tables t table found noNext
  apply inv.setTable found (tableInv.setValue here value) rfl noNext c.frames _ inv.awaits
    c.firstWeakRef (fun _ _ _ => rfl) (fun _ _ => Iff.rfl)
  · intro k i
    apply (inv.counts found noNext k i).trans (if_congr _ rfl rfl)
    rw [setValue_keys here]
    rfl
  · intro frame member
    apply (inv.frames frame member).setTable found (LinkedHashMap.setValue table e key value)
      rfl noNext rfl
    intro i k v _ entry
    by_cases same : i = e
    · rw [same, here, Option.some.injEq, Prod.mk.injEq] at entry
      exact ⟨value, by simp [LinkedHashMap.setValue, same, entry.1]⟩
    · exact ⟨v, by simpa [LinkedHashMap.setValue, same] using entry⟩

theorem HeapInv.set (m : Nat) (key : κ) (value : ν) : Keeps keys (c.set keys m key value) := by
  rw [WeakHeap.set]
  cases has : c.maps[m]?.join with
  | none => exact inv.same .refused
  | some t =>
      obtain ⟨table, current, tableInv⟩ := inv.find_current has
      have found := current.2.1
      simp only [found, Option.bind_eq_bind, Option.bind_some]
      by_cases notObject : table.isWeak = true ∧ keys.isObject key = false
      · rw [if_pos notObject]
        exact inv.same .exception
      rw [if_neg notObject]
      obtain ⟨l, run, bucket, result⟩ := tableInv.find key
      simp only [run, Option.bind_some, setTable_self found]
      rcases result with ⟨absent, -⟩ | ⟨old, entry, -⟩
      · rw [if_pos absent, bucket]
        exact inv.add current key value
      · have valid : l.entry ≠ kInvalidMapEntry := tableInv.lt_invalid (tableInv.lt_used entry)
        rw [if_neg valid, entry]
        simp only [Option.bind_some]
        exact ⟨_, _, rfl, inv.setValue current entry value⟩

theorem HeapInv.get (m : Nat) (key : κ) : Keeps keys (c.get keys m key) := by
  rw [WeakHeap.get]
  cases has : c.maps[m]?.join with
  | none => exact inv.same .refused
  | some t =>
      obtain ⟨table, current, tableInv⟩ := inv.find_current has
      have found := current.2.1
      obtain ⟨l, run, -, result⟩ := tableInv.find key
      simp only [found, run, Option.bind_eq_bind, Option.bind_some, setTable_self found]
      rcases result with ⟨absent, -⟩ | ⟨old, entry, -⟩
      · rw [if_pos absent]
        exact inv.same (.value none)
      · have valid : l.entry ≠ kInvalidMapEntry := tableInv.lt_invalid (tableInv.lt_used entry)
        rw [if_neg valid, entry]
        simp only [Option.bind_some]
        exact inv.same (.value (some old))

end

end Set

section Delete

/-- An entry that no record is awaited for leaves its table together with its record. -/
theorem HeapInv.unlinkEntry (inv : HeapInv keys c) (current : c.Current m t table)
    (entry : table.entries e = some (key, value)) (settled : (⟨t, e⟩ : WeakRefRecord) ∉ c.awaited)
    {previous : Nat} (follows : Follows (table.chainOf keys (table.bucketOf keys key)) previous e) :
    HeapInv keys { c.setTable t (table.unlinkEntry (table.bucketOf keys key) previous e) with
      firstWeakRef := if table.isWeak = true
        then deleteWeakMapEntryRecord c.firstWeakRef key ⟨t, e⟩ else c.firstWeakRef } := by
  obtain ⟨has, found, noNext⟩ := current
  have tableInv := inv.tables t table found noNext
  have counted := inv.counts found noNext
  apply inv.setTable found (tableInv.unlinkEntry entry rfl follows) rfl noNext c.frames _ inv.awaits
    _ _ (fun _ _ => Iff.rfl)
  · intro k i
    have before := counted k i
    rw [unlinkEntry_entries]
    by_cases isWeak : table.isWeak = true
    · rw [if_pos isWeak, deleteWeakMapEntryRecord]
      have erased : (Function.update c.firstWeakRef key
          ((c.firstWeakRef key).erase ⟨t, e⟩) k).count ⟨t, i⟩
          = (c.firstWeakRef k).count ⟨t, i⟩ - if k = key ∧ i = e then 1 else 0 := by
        by_cases sameKey : k = key
        · rw [sameKey, Function.update_self, List.count_erase]
          by_cases sameEntry : i = e
          · simp [sameEntry]
          · simp [sameEntry, Ne.symm sameEntry]
        · simp [sameKey]
      rw [erased, before]
      by_cases sameEntry : i = e
      · rw [sameEntry, entry]
        by_cases sameKey : k = key
        · simp [sameKey, isWeak, settled]
        · have differs : key ≠ k := Ne.symm sameKey
          simp [sameKey, differs]
      · have kept : ¬ (k = key ∧ i = e) := fun both => sameEntry both.2
        rw [if_neg kept, Nat.sub_zero, if_neg sameEntry]
        rfl
    · rw [if_neg isWeak, before]
      simp [isWeak]
  · intro frame member
    apply (inv.frames frame member).setTable found
      (table.unlinkEntry (table.bucketOf keys key) previous e) rfl noNext rfl
    intro i k v waits there
    refine ⟨v, ?_⟩
    have differs : i ≠ e := by
      intro same
      apply settled
      rw [← same]
      exact List.mem_filterMap.mpr ⟨frame, member, waits⟩
    rw [unlinkEntry_entries, if_neg differs, there]
  · intro k wr elsewhere
    by_cases isWeak : table.isWeak = true
    · rw [if_pos isWeak, deleteWeakMapEntryRecord]
      by_cases sameKey : k = key
      · have differs : wr ≠ ⟨t, e⟩ := fun same => elsewhere (same ▸ rfl)
        rw [sameKey, Function.update_self, List.count_erase_of_ne differs]
      · rw [Function.update_of_ne sameKey]
    · rw [if_neg isWeak]

theorem HeapInv.maybeShrink (inv : HeapInv keys c) (m t : Nat) (table : JSLinkedHashMap κ ν) :
    Keeps keys (c.maybeShrink m t table) := by
  rw [WeakHeap.maybeShrink]
  by_cases many : table.liveCount > table.entryCapacity / kDelayedMapShrinkDivisor
      ∨ table.liveCount > table.entryCapacity / 4
  · rw [if_pos many]
    exact inv.same (.flag true)
  rw [if_neg many]
  cases isCapacity : computeCapacity table.liveCount with
  | none => exact inv.same (.flag true)
  | some capacity =>
      by_cases small : capacity < kMinMapShrinkCapacity ∨ capacity ≥ table.entryCapacity
      · simp only [if_pos small]
        exact inv.same (.flag true)
      · simp only [if_neg small]
        cases isBuckets : newBucketCount capacity with
        | none => exact inv.same .exception
        | some bucketCount =>
            have ok : FrameOk keys c (.shrinkTable m t bucketCount capacity) :=
              sizesOk_of isCapacity isBuckets
            exact inv.wait ok rfl

/-- The entry that `js_map_delete` removes -/
def deleted (keys : MapKeys κ) (c : WeakHeap κ ν) (m : Nat) (key : κ) : Option WeakRefRecord := do
  let t ← c.maps[m]?.join
  let table ← c.tables t
  let (lookup, _) ← table.find keys key
  if lookup.entry = kInvalidMapEntry then none else some ⟨t, lookup.entry⟩

theorem HeapInv.delete (inv : HeapInv keys c) {m : Nat} {key : κ}
    (settled : ∀ wr ∈ deleted keys c m key, wr ∉ c.awaited) : Keeps keys (c.delete keys m key) := by
  rw [WeakHeap.delete]
  cases has : c.maps[m]?.join with
  | none => exact inv.same .refused
  | some t =>
      obtain ⟨table, current, tableInv⟩ := inv.find_current has
      have found := current.2.1
      obtain ⟨l, run, bucket, result⟩ := tableInv.find key
      simp only [found, run, Option.bind_eq_bind, Option.bind_some, setTable_self found]
      rcases result with ⟨absent, -⟩ | ⟨old, entry, follows⟩
      · rw [if_pos absent]
        exact inv.same (.flag false)
      · have valid : l.entry ≠ kInvalidMapEntry := tableInv.lt_invalid (tableInv.lt_used entry)
        rw [if_neg valid, entry, bucket]
        simp only [Option.bind_some]
        have isDeleted : (⟨t, l.entry⟩ : WeakRefRecord) ∈ deleted keys c m key := by
          simp [deleted, has, found, run, valid]
        exact (inv.unlinkEntry current entry (settled _ isDeleted) follows).maybeShrink m t _

theorem HeapInv.clear (inv : HeapInv keys c) (m : Nat) : Keeps keys (c.clear m) := by
  rw [WeakHeap.clear]
  cases has : c.maps[m]?.join with
  | none => exact inv.same .refused
  | some t =>
      obtain ⟨table, current, -⟩ := inv.find_current has
      have found := current.2.1
      simp only [found, Option.bind_eq_bind, Option.bind_some]
      by_cases isWeak : table.isWeak = true
      · rw [if_pos isWeak]
        exact inv.same .refused
      · rw [if_neg isWeak]
        have ok : FrameOk keys c (.clearTable m t) := by
          refine ⟨inv.fresh t table found, fun other there => ?_⟩
          rw [found, Option.some.injEq] at there
          rw [← there]
          exact Bool.eq_false_iff.mpr isWeak
        exact inv.wait ok rfl

end Delete

end PrimJs.LinkedHashMap
