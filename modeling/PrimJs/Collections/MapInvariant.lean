import Mathlib.Data.List.Nodup
import PrimJs.Collections.MapOperations

/-! The invariant of the records, relative to the references that iterators and operations in
progress hold, and what each change of a record does to it. -/

namespace PrimJs.JSMap

variable {κ ν : Type}

def JSMapRecord.own (mr : JSMapRecord κ ν) : Int := if mr.empty then 0 else 1

namespace JSMapState

def Entry (s : JSMapState κ ν) (r : RecordId) (key : κ) : Prop :=
  ∃ mr, s.heap r = some mr ∧ mr.empty = false ∧ mr.key = some key

def isEntry (s : JSMapState κ ν) (r : RecordId) : Bool :=
  match s.heap r with
  | some mr => !mr.empty
  | none => false

end JSMapState

open JSMapState

structure StoreInv (keys : MapKeys κ) (held : RecordId → Nat) (s : JSMapState κ ν) : Prop where
  distinct : s.records.Nodup
  listed : ∀ r, r ∈ s.records ↔ s.isLive r = true
  fresh : ∀ r, s.isLive r = true → r < s.next
  counted : ∀ r mr, s.heap r = some mr → mr.refCount = mr.own + held r ∧ 0 < mr.refCount
  dead : ∀ r, s.heap r = none → held r = 0
  keyed : ∀ r mr, s.heap r = some mr → mr.empty = false → ∃ key, mr.key = some key
  buckets : ∀ h, (s.hashTable h).Nodup
  hashed : ∀ h r, r ∈ s.hashTable h ↔ ∃ key, s.Entry r key ∧ keys.hash key s.hashBits = h
  size : s.recordCount = s.records.countP s.isEntry
  table : 2^s.hashBits ≤ s.hashSize
  weakDistinct : ∀ key, (s.firstWeakRef key).Nodup
  weak : ∀ key r, r ∈ s.firstWeakRef key ↔ s.isWeak = true ∧ s.Entry r key

variable {keys : MapKeys κ} {held held' : RecordId → Nat} {s : JSMapState κ ν} {r : RecordId}
  {mr mr' : JSMapRecord κ ν} {key : κ}

section Lists

variable {list : List RecordId}

theorem mem_of_prevOf {n : RecordId} (previous : n ∈ prevOf list r) : n ∈ list :=
  (List.takeWhile_sublist _).subset (List.mem_of_getLast? previous)

theorem mem_of_nextOf {n : RecordId} (following : n ∈ nextOf list r) : n ∈ list :=
  (List.dropWhile_sublist _).subset (List.mem_of_mem_drop (List.mem_of_mem_head? following))

theorem listDel_eq (live : ∀ n ∈ list, s.isLive n = true) (member : r ∈ list) :
    s.listDel list r = some (list.erase r) := by
  rw [listDel, if_pos]
  exact ⟨member, fun n previous => live n (mem_of_prevOf previous),
    fun n following => live n (mem_of_nextOf following)⟩

theorem isLive_iff : s.isLive r = true ↔ ∃ mr, s.heap r = some mr := Option.isSome_iff_exists

theorem isLive_of_heap (here : s.heap r = some mr) : s.isLive r = true :=
  isLive_iff.mpr ⟨mr, here⟩

theorem isLive_of_entry (entry : s.Entry r key) : s.isLive r = true := by
  obtain ⟨mr, here, -, -⟩ := entry
  exact isLive_of_heap here

theorem StoreInv.bucket_live (inv : StoreInv keys held s) (h : Nat) :
    ∀ n ∈ s.hashTable h, s.isLive n = true := by
  intro n member
  obtain ⟨key, entry, -⟩ := (inv.hashed h n).mp member
  exact isLive_of_entry entry

theorem StoreInv.listDel_records (inv : StoreInv keys held s) (live : s.isLive r = true) :
    s.listDel s.records r = some (s.records.erase r) :=
  listDel_eq (fun n member => (inv.listed n).mp member) ((inv.listed r).mpr live)

theorem countP_split (member : r ∈ list) (p : RecordId → Bool) :
    list.countP p = (list.erase r).countP p + if p r then 1 else 0 := by
  rw [(List.perm_cons_erase member).countP_eq p, List.countP_cons]

theorem isEntry_of_heap (here : s.heap r = some mr) : s.isEntry r = !mr.empty := by
  rw [isEntry, here]

end Lists

section SetRecord

@[simp] theorem setRecord_heap (s : JSMapState κ ν) (r : RecordId) (mr : JSMapRecord κ ν) :
    (s.setRecord r mr).heap = Function.update s.heap r (some mr) := rfl

@[simp] theorem freeRecord_heap (s : JSMapState κ ν) (r : RecordId) :
    (s.freeRecord r).heap = Function.update s.heap r none := rfl

theorem setRecord_isLive (here : s.heap r = some mr) (x : RecordId) :
    (s.setRecord r mr').isLive x = s.isLive x := by
  by_cases same : x = r
  · simp [isLive, same, here]
  · simp [isLive, same]

theorem setRecord_entry (here : s.heap r = some mr) (sameEmpty : mr'.empty = mr.empty)
    (sameKey : mr.empty = false → mr'.key = mr.key) (x : RecordId) (k : κ) :
    (s.setRecord r mr').Entry x k ↔ s.Entry x k := by
  by_cases same : x = r
  · rw [same]
    constructor
    · rintro ⟨record, there, live, named⟩
      have record_ : mr' = record := by simpa using there
      rw [← record_, sameEmpty] at live
      rw [← record_, sameKey live] at named
      exact ⟨mr, here, live, named⟩
    · rintro ⟨record, there, live, named⟩
      have record_ : mr = record := by simpa [here] using there
      rw [← record_] at live named
      exact ⟨mr', by simp, sameEmpty.trans live, (sameKey live).trans named⟩
  · simp [Entry, same]

theorem setRecord_isEntry (here : s.heap r = some mr) (sameEmpty : mr'.empty = mr.empty)
    (x : RecordId) : (s.setRecord r mr').isEntry x = s.isEntry x := by
  by_cases same : x = r
  · simp [isEntry, same, here, sameEmpty]
  · simp [isEntry, same]

/-- A record changes its count, its value, or once it is empty its key. -/
theorem StoreInv.setRecord (inv : StoreInv keys held s) (here : s.heap r = some mr)
    (mr' : JSMapRecord κ ν) (sameEmpty : mr'.empty = mr.empty) (sameKey : mr.empty = false → mr'.key = mr.key)
    (others : ∀ x, x ≠ r → held' x = held x) (count : mr'.refCount = mr.own + held' r)
    (positive : 0 < mr'.refCount) : StoreInv keys held' (s.setRecord r mr') where
  distinct := inv.distinct
  listed x := by
    rw [setRecord_isLive here]
    exact inv.listed x
  fresh x live := by
    rw [setRecord_isLive here] at live
    exact inv.fresh x live
  counted x record there := by
    by_cases same : x = r
    · rw [same] at there ⊢
      have record_ : mr' = record := by simpa using there
      rw [← record_, JSMapRecord.own, sameEmpty]
      exact ⟨count, positive⟩
    · rw [others x same]
      exact inv.counted x record (by simpa [same] using there)
  dead x gone := by
    by_cases same : x = r
    · simp [same] at gone
    · rw [others x same]
      exact inv.dead x (by simpa [same] using gone)
  keyed x record there live := by
    by_cases same : x = r
    · have record_ : mr' = record := by simpa [same] using there
      rw [← record_] at live ⊢
      obtain ⟨key, named⟩ := inv.keyed r mr here (sameEmpty.symm.trans live)
      exact ⟨key, (sameKey (sameEmpty.symm.trans live)).trans named⟩
    · exact inv.keyed x record (by simpa [same] using there) live
  buckets := inv.buckets
  hashed h x := by
    simp only [setRecord_entry here sameEmpty sameKey]
    exact inv.hashed h x
  size := by
    have same : (s.setRecord r mr').isEntry = s.isEntry :=
      funext fun x => setRecord_isEntry here sameEmpty x
    rw [same]
    exact inv.size
  table := inv.table
  weakDistinct := inv.weakDistinct
  weak key x := by
    rw [setRecord_entry here sameEmpty sameKey]
    exact inv.weak key x

end SetRecord

section Free

/-- An empty record that nothing holds is unlinked and freed. -/
theorem StoreInv.free (inv : StoreInv keys held s) (here : s.heap r = some mr)
    (isEmpty : mr.empty = true) (others : ∀ x, x ≠ r → held' x = held x) (none_ : held' r = 0) :
    StoreInv keys held' ({ s with records := s.records.erase r }.freeRecord r) := by
  have entries (x : RecordId) (k : κ) :
      ({ s with records := s.records.erase r }.freeRecord r).Entry x k ↔ s.Entry x k := by
    by_cases same : x = r
    · rw [same]
      constructor
      · rintro ⟨record, there, -, -⟩
        simp at there
      · rintro ⟨record, there, live, -⟩
        have record_ : mr = record := by simpa [here] using there
        rw [← record_, isEmpty] at live
        exact absurd live (by decide)
    · simp [Entry, same]
  have liveness (x : RecordId) : ({ s with records := s.records.erase r }.freeRecord r).isLive x
      = (s.isLive x && decide (x ≠ r)) := by
    by_cases same : x = r <;> simp [isLive, same]
  constructor
  · exact inv.distinct.erase r
  · intro x
    rw [liveness, Bool.and_eq_true, decide_eq_true_iff, ← inv.listed, and_comm]
    exact inv.distinct.mem_erase_iff
  · intro x live
    rw [liveness, Bool.and_eq_true] at live
    exact inv.fresh x live.1
  · intro x record there
    by_cases same : x = r
    · simp [same] at there
    · rw [others x same]
      exact inv.counted x record (by simpa [same] using there)
  · intro x gone
    by_cases same : x = r
    · rw [same]
      exact none_
    · rw [others x same]
      exact inv.dead x (by simpa [same] using gone)
  · intro x record there
    by_cases same : x = r
    · simp [same] at there
    · exact inv.keyed x record (by simpa [same] using there)
  · exact inv.buckets
  · intro h x
    simp only [entries]
    exact inv.hashed h x
  · show s.recordCount = (s.records.erase r).countP _
    have same : ∀ x ∈ s.records.erase r,
        ({ s with records := s.records.erase r }.freeRecord r).isEntry x = s.isEntry x := by
      intro x member
      have differs := (inv.distinct.mem_erase_iff.mp member).1
      simp [isEntry, differs]
    have none_ : s.isEntry r = false := by
      rw [isEntry_of_heap here, isEmpty]
      rfl
    have member := (inv.listed r).mpr (isLive_of_heap here)
    rw [List.countP_congr (fun x member => by rw [same x member]), inv.size,
      countP_split member s.isEntry, none_]
    simp
  · exact inv.table
  · exact inv.weakDistinct
  · intro key x
    rw [entries]
    exact inv.weak key x

end Free

/-- From one state to the next no old record becomes an entry again, and only the `lost` ones are
freed. -/
structure Evolves (lost : RecordId → Prop) (s s' : JSMapState κ ν) : Prop where
  next : s.next ≤ s'.next
  entries : ∀ x, x < s.next → s.isEntry x = false → s'.isEntry x = false
  live : ∀ x, s.isLive x = true → ¬ lost x → s'.isLive x = true

section Evolution

variable {lost lost' : RecordId → Prop} {s' s'' : JSMapState κ ν}

theorem Evolves.refl (s : JSMapState κ ν) : Evolves (fun _ => False) s s where
  next := Nat.le_refl _
  entries _ _ same := same
  live _ same _ := same

theorem Evolves.trans (first : Evolves lost s s') (second : Evolves lost' s' s'') :
    Evolves (fun x => lost x ∨ lost' x) s s'' where
  next := Nat.le_trans first.next second.next
  entries x old none_ :=
    second.entries x (Nat.lt_of_lt_of_le old first.next) (first.entries x old none_)
  live x here kept := second.live x (first.live x here fun gone => kept (.inl gone))
    fun gone => kept (.inr gone)

theorem Evolves.mono (evolves : Evolves lost s s') (more : ∀ x, lost x → lost' x) :
    Evolves lost' s s' where
  next := evolves.next
  entries := evolves.entries
  live x here kept := evolves.live x here fun gone => kept (more x gone)

theorem Evolves.setRecord (here : s.heap r = some mr) (mr' : JSMapRecord κ ν)
    (emptier : mr.empty = true → mr'.empty = true) :
    Evolves (fun _ => False) s (s.setRecord r mr') where
  next := Nat.le_refl _
  entries x _ none_ := by
    by_cases same : x = r
    · rw [same, isEntry_of_heap here] at none_
      have isEmpty : mr.empty = true := by simpa using none_
      simp [isEntry, same, emptier isEmpty]
    · simpa [isEntry, same] using none_
  live x here' _ := (setRecord_isLive here x).trans here'

theorem Evolves.free (records : List RecordId) :
    Evolves (· = r) s ({ s with records := records }.freeRecord r) where
  next := Nat.le_refl _
  entries x _ none_ := by
    by_cases same : x = r
    · simp [isEntry, same]
    · simpa [isEntry, same] using none_
  live x here kept := by
    simpa [isLive, kept] using here

end Evolution

section References

theorem StoreInv.increment (inv : StoreInv keys held s) (here : s.heap r = some mr)
    (others : ∀ x, x ≠ r → held' x = held x) (more : held' r = held r + 1) :
    s.increment r = some (s.setRecord r { mr with refCount := mr.refCount + 1 })
      ∧ StoreInv keys held' (s.setRecord r { mr with refCount := mr.refCount + 1 }) := by
  obtain ⟨count, positive⟩ := inv.counted r mr here
  refine ⟨by simp [JSMapState.increment, here], ?_⟩
  apply inv.setRecord here { mr with refCount := mr.refCount + 1 } rfl (fun _ => rfl) others
  · show mr.refCount + 1 = _
    omega
  · show 0 < mr.refCount + 1
    omega

def afterDecrement (s : JSMapState κ ν) (r : RecordId) (mr : JSMapRecord κ ν) : JSMapState κ ν :=
  if mr.refCount - 1 = 0 then { s with records := s.records.erase r }.freeRecord r
  else s.setRecord r { mr with refCount := mr.refCount - 1 }

theorem StoreInv.mapDecrefRecord (inv : StoreInv keys held s) (here : s.heap r = some mr)
    (others : ∀ x, x ≠ r → held' x = held x) (less : held' r + 1 = held r) :
    s.mapDecrefRecord r = some (afterDecrement s r mr)
      ∧ StoreInv keys held' (afterDecrement s r mr) := by
  obtain ⟨count, positive⟩ := inv.counted r mr here
  have unlinked := inv.listDel_records (isLive_of_heap here)
  rw [JSMapState.mapDecrefRecord, afterDecrement, JSMapState.decrement]
  by_cases last : mr.refCount - 1 = 0
  · have isEmpty : mr.empty = true := by
      by_contra full
      rw [JSMapRecord.own, if_neg full] at count
      omega
    rw [if_pos last]
    refine ⟨by simp [here, last, isEmpty, unlinked], inv.free here isEmpty others ?_⟩
    rw [JSMapRecord.own, if_pos isEmpty] at count
    omega
  · rw [if_neg last]
    refine ⟨by simp [here, last], ?_⟩
    apply inv.setRecord here { mr with refCount := mr.refCount - 1 } rfl (fun _ => rfl) others
    · show mr.refCount - 1 = _
      omega
    · show 0 < mr.refCount - 1
      omega

theorem Evolves.afterDecrement (here : s.heap r = some mr) :
    Evolves (fun x => x = r ∧ mr.refCount = 1) s (afterDecrement s r mr) := by
  rw [JSMap.afterDecrement]
  by_cases last : mr.refCount - 1 = 0
  · rw [if_pos last]
    have one : mr.refCount = 1 := by omega
    exact (Evolves.free _).mono fun x gone => ⟨gone, one⟩
  · rw [if_neg last]
    exact (Evolves.setRecord here { mr with refCount := mr.refCount - 1 } id).mono
      fun x gone => gone.elim

/-- The release of a record whose own reference is held for it -/
theorem StoreInv.mapReleaseRecord (inv : StoreInv keys held s) (here : s.heap r = some mr)
    (isEmpty : mr.empty = true) (others : ∀ x, x ≠ r → held' x = held x)
    (less : held' r + 1 = held r) :
    ∃ s', s.mapReleaseRecord r = some s' ∧ StoreInv keys held' s'
      ∧ Evolves (fun x => x = r ∧ mr.refCount = 1) s s' := by
  let cleared : JSMapRecord κ ν := { mr with key := none, value := none }
  obtain ⟨count, positive⟩ := inv.counted r mr here
  have inv' : StoreInv keys held (s.setRecord r cleared) := by
    apply inv.setRecord here cleared rfl
    · intro full
      rw [isEmpty] at full
      exact absurd full (by decide)
    · exact fun _ _ => rfl
    · exact count
    · exact positive
  have here' : (s.setRecord r cleared).heap r = some cleared := by simp
  obtain ⟨run, after⟩ := inv'.mapDecrefRecord here' others less
  refine ⟨afterDecrement (s.setRecord r cleared) r cleared, ?_, after, ?_⟩
  · rw [JSMapState.mapDecrefRecord, here'] at run
    have asserted : mr.empty = true := isEmpty
    rw [JSMapState.mapReleaseRecord]
    simp only [here, Option.bind_eq_bind, Option.bind_some]
    simpa [cleared, asserted] using run
  · have clears : Evolves (fun _ => False) s (s.setRecord r cleared) :=
      Evolves.setRecord here cleared id
    exact (clears.trans (Evolves.afterDecrement here')).mono fun x gone => gone.elim False.elim id

end References

end PrimJs.JSMap
