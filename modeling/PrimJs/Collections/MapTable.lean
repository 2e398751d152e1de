import PrimJs.Collections.MapInvariant

/-! The hash table under insertion, resizing, lookup and deletion. -/

namespace PrimJs.JSMap

open JSMapState

variable {κ ν : Type} [DecidableEq κ] {keys : MapKeys κ} {held held' : RecordId → Nat}
  {s : JSMapState κ ν} {r : RecordId} {mr : JSMapRecord κ ν} {key : κ}

omit [DecidableEq κ] in
theorem Entry.key_unique {k k' : κ} (left : s.Entry r k) (right : s.Entry r k') : k = k' := by
  obtain ⟨mr, here, -, named⟩ := left
  obtain ⟨mr', here', -, named'⟩ := right
  rw [here, Option.some.injEq] at here'
  rw [here', named', Option.some.injEq] at named
  exact named.symm

section Find

theorem findIn_spec {bucket : List RecordId} (live : ∀ n ∈ bucket, s.isLive n = true) (key : κ) :
    ∃ found, s.findIn key bucket = some found
      ∧ ∀ r ∈ found, r ∈ bucket ∧ ∃ mr, s.heap r = some mr ∧ mr.key = some key := by
  induction bucket with
  | nil => exact ⟨none, rfl, by simp⟩
  | cons x rest ih =>
      obtain ⟨mr, here⟩ := isLive_iff.mp (live x List.mem_cons_self)
      obtain ⟨found, later, named⟩ := ih fun n member => live n (List.mem_cons_of_mem _ member)
      by_cases same : mr.key = some key
      · refine ⟨some x, by simp [findIn, here, same], fun r isX => ?_⟩
        have isX' : x = r := by simpa using isX
        rw [← isX']
        exact ⟨List.mem_cons_self, mr, here, same⟩
      · refine ⟨found, by simp [findIn, here, same, later], fun r isFound => ?_⟩
        obtain ⟨member, record⟩ := named r isFound
        exact ⟨List.mem_cons_of_mem _ member, record⟩

/-- The lookup finds only live entries for the key. -/
theorem StoreInv.mapFindRecord (inv : StoreInv keys held s) (key : κ) :
    ∃ found, s.mapFindRecord keys key = some found ∧ ∀ r ∈ found, s.Entry r key := by
  obtain ⟨found, run, named⟩ := findIn_spec (inv.bucket_live (keys.hash key s.hashBits)) key
  refine ⟨found, run, fun r isFound => ?_⟩
  obtain ⟨member, mr, here, sameKey⟩ := named r isFound
  obtain ⟨key', ⟨mr', here', full, -⟩, -⟩ := (inv.hashed _ r).mp member
  rw [here, Option.some.injEq] at here'
  exact ⟨mr, here, here' ▸ full, sameKey⟩

end Find

section Resize

omit [DecidableEq κ] in
def hashesTo (keys : MapKeys κ) (s : JSMapState κ ν) (bits h : Nat) (r : RecordId) : Bool :=
  match s.heap r with
  | some mr => !mr.empty && decide (mr.key.map (keys.hash · bits) = some h)
  | none => false

omit [DecidableEq κ] in
theorem hashesTo_iff {bits h : Nat} : hashesTo keys s bits h r = true
    ↔ ∃ key, s.Entry r key ∧ keys.hash key bits = h := by
  rw [hashesTo]
  cases here : s.heap r with
  | none => simp [Entry, here]
  | some mr =>
      cases named : mr.key with
      | none => simp [Entry, here, named]
      | some key => simp [Entry, here, named]

omit [DecidableEq κ] in
theorem rehash_eq (inv : StoreInv keys held s) (bits : Nat) {rest : List RecordId}
    (live : ∀ n ∈ rest, s.isLive n = true) (table : Nat → List RecordId) :
    s.rehash keys bits table rest
      = some fun h => table h ++ rest.filter (hashesTo keys s bits h) := by
  induction rest generalizing table with
  | nil => simp [rehash]
  | cons x rest ih =>
      obtain ⟨mr, here⟩ := isLive_iff.mp (live x List.mem_cons_self)
      have later := ih fun n member => live n (List.mem_cons_of_mem _ member)
      have kept (full : mr.empty = true) (h : Nat) : hashesTo keys s bits h x = false := by
        simp [hashesTo, here, full]
      by_cases isEmpty : mr.empty = true
      · rw [rehash]
        simp only [here, isEmpty, Option.bind_eq_bind, Option.bind_some]
        rw [later]
        congr 1
        funext h
        rw [List.filter_cons_of_neg (by simp [kept isEmpty])]
      · have full : mr.empty = false := by simpa using isEmpty
        obtain ⟨key, named⟩ := inv.keyed x mr here full
        rw [rehash]
        simp only [here, full, named, Option.bind_eq_bind, Option.bind_some]
        rw [later]
        congr 1
        funext h
        by_cases same : h = keys.hash key bits
        · have goes : hashesTo keys s bits h x = true := by simp [hashesTo, here, full, named, same]
          rw [List.filter_cons_of_pos goes, same, Function.update_self, List.append_assoc,
            List.singleton_append]
        · have stays : ¬ hashesTo keys s bits h x = true := by
            simp [hashesTo, here, full, named, Ne.symm same]
          rw [List.filter_cons_of_neg stays, Function.update_of_ne same]

omit [DecidableEq κ] in
theorem StoreInv.mapHashResize (inv : StoreInv keys held s) (slack : Option Nat) :
    ∃ s', s.mapHashResize keys slack = some s' ∧ StoreInv keys held s'
      ∧ s'.heap = s.heap ∧ s'.next = s.next := by
  cases slack with
  | none => exact ⟨s, rfl, inv, rfl, rfl⟩
  | some slack =>
      have live : ∀ n ∈ s.records, s.isLive n = true := fun n member => (inv.listed n).mp member
      rw [JSMapState.mapHashResize]
      simp only [rehash_eq inv _ live, List.nil_append, Option.bind_eq_bind,
        Option.bind_some]
      refine ⟨_, rfl, ?_, rfl, rfl⟩
      constructor
      case distinct => exact inv.distinct
      case listed => exact inv.listed
      case fresh => exact inv.fresh
      case counted => exact inv.counted
      case dead => exact inv.dead
      case keyed => exact inv.keyed
      case buckets =>
        intro h
        exact inv.distinct.filter _
      case hashed =>
        intro h x
        show x ∈ List.filter _ s.records ↔ _
        rw [List.mem_filter, hashesTo_iff]
        constructor
        · exact fun there => there.2
        · rintro ⟨key, entry, same⟩
          exact ⟨(inv.listed x).mpr (isLive_of_entry entry), key, entry, same⟩
      case size => exact inv.size
      case table => exact Nat.le_add_right _ slack
      case weakDistinct => exact inv.weakDistinct
      case weak => exact inv.weak

end Resize

section Insert

omit [DecidableEq κ] in
theorem StoreInv.next_free (inv : StoreInv keys held s) : s.heap s.next = none := by
  by_contra taken
  have live : s.isLive s.next = true := Option.isSome_iff_ne_none.mpr taken
  exact Nat.lt_irrefl _ (inv.fresh s.next live)

theorem linkRecord_entry (unused : s.heap s.next = none) (key : κ) (value : Option ν)
    (x : RecordId) (k : κ) : (s.linkRecord keys key value).Entry x k
      ↔ s.Entry x k ∨ (x = s.next ∧ k = key) := by
  by_cases same : x = s.next
  · rw [same]
    have sides : (s.linkRecord keys key value).Entry s.next k ↔ key = k := by
      simp [Entry, linkRecord]
    have old : ¬ s.Entry s.next k := by
      simp [Entry, unused]
    rw [sides, eq_comm]
    simp [old]
  · simp [Entry, linkRecord, same]

theorem linkRecord_isLive (key : κ) (value : Option ν) (x : RecordId) :
    (s.linkRecord keys key value).isLive x = (decide (x = s.next) || s.isLive x) := by
  by_cases same : x = s.next <;> simp [isLive, linkRecord, same]

theorem StoreInv.linkRecord (inv : StoreInv keys held s) (key : κ) (value : Option ν) :
    StoreInv keys held (s.linkRecord keys key value) := by
  have unused := inv.next_free
  have absent : s.next ∉ s.records := by
    rw [inv.listed, isLive, unused]
    simp
  have notEntry (k : κ) : ¬ s.Entry s.next k := by
    rintro ⟨mr, here, -, -⟩
    rw [unused] at here
    cases here
  constructor
  · exact List.nodup_append.mpr ⟨inv.distinct, List.nodup_singleton _, fun x member y last same => by
      rw [List.mem_singleton.mp last] at same
      exact absent (same ▸ member)⟩
  · intro x
    rw [linkRecord_isLive, Bool.or_eq_true, decide_eq_true_iff, ← inv.listed]
    show x ∈ s.records ++ [s.next] ↔ _
    rw [List.mem_append, List.mem_singleton, or_comm]
  · intro x live
    rw [linkRecord_isLive, Bool.or_eq_true, decide_eq_true_iff] at live
    show x < s.next + 1
    rcases live with same | old
    · rw [same]
      exact Nat.lt_succ_self _
    · exact Nat.lt_succ_of_lt (inv.fresh x old)
  · intro x record there
    by_cases same : x = s.next
    · have nothing := inv.dead s.next unused
      rw [same] at there ⊢
      have record_ : (⟨1, false, some key, value⟩ : JSMapRecord κ ν) = record := by simpa [JSMapState.linkRecord] using there
      rw [← record_, nothing]
      exact ⟨rfl, Int.one_pos⟩
    · exact inv.counted x record (by simpa [JSMapState.linkRecord, same] using there)
  · intro x gone
    by_cases same : x = s.next
    · simp [JSMapState.linkRecord, same] at gone
    · exact inv.dead x (by simpa [JSMapState.linkRecord, same] using gone)
  · intro x record there full
    by_cases same : x = s.next
    · have record_ : (⟨1, false, some key, value⟩ : JSMapRecord κ ν) = record := by simpa [JSMapState.linkRecord, same] using there
      exact ⟨key, by rw [← record_]⟩
    · exact inv.keyed x record (by simpa [JSMapState.linkRecord, same] using there) full
  · intro h
    show (Function.update s.hashTable _ _ h).Nodup
    by_cases same : h = keys.hash key s.hashBits
    · rw [same, Function.update_self]
      refine List.nodup_append.mpr ⟨inv.buckets _, List.nodup_singleton _, fun x member y last eq => ?_⟩
      rw [List.mem_singleton.mp last] at eq
      obtain ⟨k, entry, -⟩ := (inv.hashed _ x).mp member
      exact notEntry k (eq ▸ entry)
    · rw [Function.update_of_ne same]
      exact inv.buckets h
  · intro h x
    simp only [linkRecord_entry unused]
    show x ∈ Function.update s.hashTable _ _ h ↔ ∃ k, _ ∧ keys.hash k s.hashBits = h
    by_cases same : h = keys.hash key s.hashBits
    · rw [same, Function.update_self, List.mem_append, List.mem_singleton, inv.hashed]
      constructor
      · rintro (⟨k, entry, hashes⟩ | isNew)
        · exact ⟨k, .inl entry, hashes⟩
        · exact ⟨key, .inr ⟨isNew, rfl⟩, rfl⟩
      · rintro ⟨k, entry | ⟨isNew, -⟩, hashes⟩
        · exact .inl ⟨k, entry, hashes⟩
        · exact .inr isNew
    · rw [Function.update_of_ne same, inv.hashed]
      constructor
      · rintro ⟨k, entry, hashes⟩
        exact ⟨k, .inl entry, hashes⟩
      · rintro ⟨k, entry | ⟨-, sameKey⟩, hashes⟩
        · exact ⟨k, entry, hashes⟩
        · rw [sameKey] at hashes
          exact absurd hashes.symm same
  · show s.recordCount + 1 = (s.records ++ [s.next]).countP _
    have old : ∀ x ∈ s.records, (s.linkRecord keys key value).isEntry x = s.isEntry x := by
      intro x member
      have differs : x ≠ s.next := fun same => absent (same ▸ member)
      simp [isEntry, JSMapState.linkRecord, differs]
    have new : (s.linkRecord keys key value).isEntry s.next = true := by
      simp [isEntry, JSMapState.linkRecord]
    rw [List.countP_append, List.countP_congr (fun x member => by rw [old x member]), inv.size,
      List.countP_singleton, if_pos new]
  · exact inv.table
  · intro k
    show (if s.isWeak then _ else s.firstWeakRef : κ → List RecordId) k |>.Nodup
    by_cases isWeak : s.isWeak = true
    · rw [if_pos isWeak]
      by_cases same : k = key
      · rw [same, Function.update_self]
        exact List.nodup_cons.mpr ⟨fun member => notEntry key ((inv.weak key _).mp member).2,
          inv.weakDistinct key⟩
      · rw [Function.update_of_ne same]
        exact inv.weakDistinct k
    · rw [if_neg isWeak]
      exact inv.weakDistinct k
  · intro k x
    rw [linkRecord_entry unused]
    show x ∈ (if s.isWeak then _ else s.firstWeakRef : κ → List RecordId) k ↔ s.isWeak = true ∧ _
    by_cases isWeak : s.isWeak = true
    · rw [if_pos isWeak]
      by_cases same : k = key
      · rw [same, Function.update_self, List.mem_cons, inv.weak]
        simp [isWeak, or_comm]
      · rw [Function.update_of_ne same, inv.weak]
        simp [isWeak, same]
    · rw [if_neg isWeak, inv.weak]
      simp [isWeak]

theorem Evolves.linkRecord (key : κ) (value : Option ν) :
    Evolves (fun _ => False) s (s.linkRecord keys key value) where
  next := Nat.le_succ _
  entries x old none_ := by
    have differs : x ≠ s.next := Nat.ne_of_lt old
    simpa [isEntry, JSMapState.linkRecord, differs] using none_
  live x here _ := by rw [linkRecord_isLive, here, Bool.or_true]

omit [DecidableEq κ] in
theorem Evolves.of_heap {s s' s'' : JSMapState κ ν} {lost : RecordId → Prop}
    (evolves : Evolves lost s s') (heap : s''.heap = s'.heap) (next : s''.next = s'.next) :
    Evolves lost s s'' where
  next := next ▸ evolves.next
  entries x old none_ := by
    rw [isEntry, heap]
    exact evolves.entries x old none_
  live x here kept := by
    rw [isLive, heap]
    exact evolves.live x here kept

theorem StoreInv.mapAddRecord (inv : StoreInv keys held s) (key : κ) (value : Option ν)
    (slack : Option Nat) :
    ∃ s', s.mapAddRecord keys key value slack = some s' ∧ StoreInv keys held s'
      ∧ Evolves (fun _ => False) s s' := by
  have linked := inv.linkRecord key value
  have evolves : Evolves (fun _ => False) s (s.linkRecord keys key value) :=
    Evolves.linkRecord key value
  rw [JSMapState.mapAddRecord]
  by_cases full : (s.linkRecord keys key value).recordCountThreshold
      ≤ (s.linkRecord keys key value).recordCount
  · obtain ⟨s', run, inv', heap, next⟩ := linked.mapHashResize slack
    exact ⟨s', by simp only [if_pos full, run], inv', evolves.of_heap heap next⟩
  · exact ⟨_, by simp only [if_neg full], linked, evolves⟩

end Insert

section Detach

/-- The record `mr` under `key` out of the hash table and the weak references -/
def detached (keys : MapKeys κ) (s : JSMapState κ ν) (r : RecordId) (mr : JSMapRecord κ ν)
    (key : κ) : JSMapState κ ν :=
  { s.setRecord r { mr with empty := true } with
    hashTable := Function.update s.hashTable (keys.hash key s.hashBits)
      ((s.hashTable (keys.hash key s.hashBits)).erase r)
    firstWeakRef := if s.isWeak
      then Function.update s.firstWeakRef key ((s.firstWeakRef key).erase r) else s.firstWeakRef
    recordCount := s.recordCount - 1 }

theorem StoreInv.mapDetachRecord_eq (inv : StoreInv keys held s) (here : s.heap r = some mr)
    (full : mr.empty = false) (named : mr.key = some key) :
    s.mapDetachRecord keys r = some (detached keys s r mr key) := by
  have entry : s.Entry r key := ⟨mr, here, full, named⟩
  have inBucket : r ∈ s.hashTable (keys.hash key s.hashBits) :=
    (inv.hashed _ r).mpr ⟨key, entry, rfl⟩
  have unlinked := listDel_eq (inv.bucket_live (keys.hash key s.hashBits)) inBucket
  rw [JSMapState.mapDetachRecord]
  simp only [here, named, Option.bind_eq_bind, Option.bind_some, hashUnlink, unlinked, dropWeakRef]
  by_cases isWeak : s.isWeak = true
  · have weakRef : r ∈ s.firstWeakRef key := (inv.weak key r).mpr ⟨isWeak, entry⟩
    simp [isWeak, deleteWeakRef, weakRef, detached, JSMapState.setRecord, named]
  · simp [isWeak, detached, JSMapState.setRecord, named]

omit [DecidableEq κ] in
theorem erase_setRecord_entry (mr : JSMapRecord κ ν) (x : RecordId) (k : κ) :
    (s.setRecord r { mr with empty := true }).Entry x k ↔ x ≠ r ∧ s.Entry x k := by
  by_cases same : x = r
  · rw [same]
    simp [Entry]
  · simp [Entry, same]

/-- The own reference of a detached record is held for its release. -/
theorem StoreInv.detached (inv : StoreInv keys held s) (here : s.heap r = some mr)
    (full : mr.empty = false) (named : mr.key = some key)
    (others : ∀ x, x ≠ r → held' x = held x) (more : held' r = held r + 1) :
    StoreInv keys held' (detached keys s r mr key) := by
  have entry : s.Entry r key := ⟨mr, here, full, named⟩
  have entries (x : RecordId) (k : κ) :
      (JSMap.detached keys s r mr key).Entry x k ↔ x ≠ r ∧ s.Entry x k :=
    erase_setRecord_entry mr x k
  have liveness (x : RecordId) : (JSMap.detached keys s r mr key).isLive x = s.isLive x :=
    setRecord_isLive here x
  obtain ⟨count, positive⟩ := inv.counted r mr here
  have member := (inv.listed r).mpr (isLive_of_heap here)
  constructor
  · exact inv.distinct
  · intro x
    rw [liveness]
    exact inv.listed x
  · intro x live
    rw [liveness] at live
    exact inv.fresh x live
  · intro x record there
    by_cases same : x = r
    · rw [same] at there ⊢
      have record_ : ({ mr with empty := true } : JSMapRecord κ ν) = record := by simpa [JSMap.detached] using there
      rw [← record_]
      refine ⟨?_, positive⟩
      show mr.refCount = (if true = true then 0 else 1) + (held' r : Int)
      rw [JSMapRecord.own, full] at count
      simp only [Bool.false_eq_true, if_false] at count
      simp only [if_true]
      omega
    · rw [others x same]
      exact inv.counted x record (by simpa [JSMap.detached, same] using there)
  · intro x gone
    by_cases same : x = r
    · simp [JSMap.detached, same] at gone
    · rw [others x same]
      exact inv.dead x (by simpa [JSMap.detached, same] using gone)
  · intro x record there fullRecord
    by_cases same : x = r
    · have record_ : ({ mr with empty := true } : JSMapRecord κ ν) = record := by simpa [JSMap.detached, same] using there
      rw [← record_] at fullRecord
      exact absurd fullRecord (by simp)
    · exact inv.keyed x record (by simpa [JSMap.detached, same] using there) fullRecord
  · intro h
    show (Function.update s.hashTable _ _ h).Nodup
    by_cases same : h = keys.hash key s.hashBits
    · rw [same, Function.update_self]
      exact (inv.buckets _).erase r
    · rw [Function.update_of_ne same]
      exact inv.buckets h
  · intro h x
    simp only [entries]
    show x ∈ Function.update s.hashTable _ _ h ↔ ∃ k, _ ∧ keys.hash k s.hashBits = h
    have bucket : x ∈ Function.update s.hashTable (keys.hash key s.hashBits)
        ((s.hashTable (keys.hash key s.hashBits)).erase r) h ↔ x ≠ r ∧ x ∈ s.hashTable h := by
      by_cases same : h = keys.hash key s.hashBits
      · rw [same, Function.update_self]
        exact (inv.buckets _).mem_erase_iff
      · rw [Function.update_of_ne same]
        refine ⟨fun there => ⟨fun isR => ?_, there⟩, fun there => there.2⟩
        obtain ⟨k, entry', hashes⟩ := (inv.hashed h x).mp there
        rw [isR] at entry'
        rw [Entry.key_unique entry' entry] at hashes
        exact same hashes.symm
    rw [bucket, inv.hashed]
    constructor
    · rintro ⟨differs, k, there, hashes⟩
      exact ⟨k, ⟨differs, there⟩, hashes⟩
    · rintro ⟨k, ⟨differs, there⟩, hashes⟩
      exact ⟨differs, k, there, hashes⟩
  · show s.recordCount - 1 = s.records.countP _
    have old : s.isEntry r = true := by
      rw [isEntry_of_heap here, full]
      rfl
    have new : (JSMap.detached keys s r mr key).isEntry r = false := by
      simp [isEntry, JSMap.detached]
    have rest : ∀ x ∈ s.records.erase r,
        (JSMap.detached keys s r mr key).isEntry x = s.isEntry x := by
      intro x there
      have differs := (inv.distinct.mem_erase_iff.mp there).1
      simp [isEntry, JSMap.detached, differs]
    rw [countP_split member, new, List.countP_congr (fun x there => by rw [rest x there]), inv.size,
      countP_split member s.isEntry, old]
    simp
  · exact inv.table
  · intro k
    show (if s.isWeak then _ else s.firstWeakRef : κ → List RecordId) k |>.Nodup
    by_cases isWeak : s.isWeak = true
    · rw [if_pos isWeak]
      by_cases same : k = key
      · rw [same, Function.update_self]
        exact (inv.weakDistinct key).erase r
      · rw [Function.update_of_ne same]
        exact inv.weakDistinct k
    · rw [if_neg isWeak]
      exact inv.weakDistinct k
  · intro k x
    rw [entries]
    show x ∈ (if s.isWeak then _ else s.firstWeakRef : κ → List RecordId) k ↔ s.isWeak = true ∧ _
    by_cases isWeak : s.isWeak = true
    · rw [if_pos isWeak]
      by_cases same : k = key
      · rw [same, Function.update_self, (inv.weakDistinct key).mem_erase_iff, inv.weak]
        exact and_left_comm
      · rw [Function.update_of_ne same, inv.weak]
        refine ⟨fun there => ⟨there.1, fun isR => ?_, there.2⟩, fun there => ⟨there.1, there.2.2⟩⟩
        exact same (Entry.key_unique (isR ▸ there.2) entry)
    · rw [if_neg isWeak, inv.weak]
      simp [isWeak]

theorem Evolves.detached (here : s.heap r = some mr) :
    Evolves (fun _ => False) s (detached keys s r mr key) :=
  (Evolves.setRecord here { mr with empty := true } fun _ => rfl).of_heap rfl rfl

theorem StoreInv.mapDetachRecord (inv : StoreInv keys held s) (entry : s.Entry r key)
    (others : ∀ x, x ≠ r → held' x = held x) (more : held' r = held r + 1) :
    ∃ s' mr, s.mapDetachRecord keys r = some s' ∧ StoreInv keys held' s'
      ∧ Evolves (fun _ => False) s s' ∧ s.heap r = some mr
      ∧ s'.heap r = some { mr with empty := true } := by
  obtain ⟨mr, here, full, named⟩ := entry
  refine ⟨JSMap.detached keys s r mr key, mr, inv.mapDetachRecord_eq here full named,
    inv.detached here full named others more, Evolves.detached here, here, ?_⟩
  simp [JSMap.detached]

end Detach

section Stage

/-- The staged records are empty and hold two references each. -/
theorem StoreInv.stageRecords (inv : StoreInv keys held s) {rest : List RecordId}
    (live : ∀ n ∈ rest, s.isLive n = true) :
    ∃ staged s', s.stageRecords keys rest = some (staged, s')
      ∧ StoreInv keys (fun x => held x + 2 * staged.count x) s' ∧ Evolves (fun _ => False) s s'
      ∧ ∀ x ∈ staged, x < s'.next ∧ s'.isEntry x = false := by
  induction rest generalizing s held with
  | nil => exact ⟨[], s, rfl, by simpa using inv, Evolves.refl s, by simp⟩
  | cons r rest ih =>
      obtain ⟨mr, here⟩ := isLive_iff.mp (live r List.mem_cons_self)
      have later : ∀ n ∈ rest, s.isLive n = true :=
        fun n member => live n (List.mem_cons_of_mem _ member)
      by_cases isEmpty : mr.empty = true
      · obtain ⟨staged, s', run, inv', evolves, empties⟩ := ih inv later
        exact ⟨staged, s', by simp [JSMapState.stageRecords, here, isEmpty, run], inv', evolves,
          empties⟩
      · have full : mr.empty = false := by simpa using isEmpty
        obtain ⟨key, named⟩ := inv.keyed r mr here full
        let held1 := fun x => held x + if x = r then 1 else 0
        let held2 := fun x => held x + if x = r then 2 else 0
        have others1 : ∀ x, x ≠ r → held1 x = held x := fun x differs => by simp [held1, differs]
        have others2 : ∀ x, x ≠ r → held2 x = held1 x := fun x differs => by
          simp [held1, held2, differs]
        have more1 : held1 r = held r + 1 := by simp [held1]
        have more2 : held2 r = held1 r + 1 := by simp [held1, held2]
        obtain ⟨s1, mr1, run1, inv1, evolves1, -, here1⟩ :=
          inv.mapDetachRecord ⟨mr, here, full, named⟩ others1 more1
        obtain ⟨run2, inv2⟩ := inv1.increment here1 others2 more2
        have evolves2 : Evolves (fun _ => False) s1 (s1.setRecord r _) :=
          Evolves.setRecord here1
            { { mr1 with empty := true } with refCount := mr1.refCount + 1 } id
        have evolves12 := (evolves1.trans evolves2).mono fun x gone => gone.elim id id
        obtain ⟨staged, s', run, inv', evolves, empties⟩ :=
          ih inv2 fun n member => evolves12.live n (later n member) id
        refine ⟨r :: staged, s', ?_, ?_, (evolves12.trans evolves).mono fun x gone => gone.elim id id, ?_⟩
        · rw [JSMapState.stageRecords]
          simp only [here, full, run1, run2, run, Option.bind_eq_bind, Option.bind_some,
            Bool.false_eq_true, if_false]
        · have same : (fun x => held2 x + 2 * staged.count x)
              = fun x => held x + 2 * (r :: staged).count x := by
            funext x
            rw [List.count_cons]
            by_cases isR : x = r
            · simp [held2, isR]
              omega
            · simp [held2, isR, Ne.symm isR]
          rw [← same]
          exact inv'
        · intro x member
          rcases List.mem_cons.mp member with isR | inStaged
          · have old : r < s.next := inv.fresh r (isLive_of_heap here)
            have old2 : r < (s1.setRecord r _).next := Nat.lt_of_lt_of_le old evolves12.next
            rw [isR]
            refine ⟨Nat.lt_of_lt_of_le old2 evolves.next, evolves.entries r old2 ?_⟩
            simp [isEntry]
          · exact empties x inStaged

end Stage

end PrimJs.JSMap
