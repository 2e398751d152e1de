import PrimJs.Napi.CodeCache

/-! What the operations of a blob do to its entries, its size and its flag, as long as no sum
leaves the range of an `int`. -/

namespace PrimJs

theorem wrapInt_of_small {v : Int} (low : -2147483648 ≤ v) (high : v < 2147483648) :
    wrapInt v = v := by
  apply Int.bmod_eq_of_le <;> omega

theorem wrapInt_add (a b : Int) : wrapInt (wrapInt a + b) = wrapInt (a + b) :=
  Int.bmod_add_bmod

theorem wrapInt_sum (a b c : Int) : wrapInt (wrapInt a + b + c) = wrapInt (a + b + c) := by
  rw [Int.add_assoc, wrapInt_add, Int.add_assoc]

section

variable {entries : EntryMap} {name : List UInt8} {e : CacheEntry}

theorem entriesSize_erase (found : entries.lookup name = some e) :
    entriesSize (entries.erase name) + e.data.length = entriesSize entries :=
  mapSize_erase (w := fun e => e.data.length) found

theorem entriesSize_insert :
    entriesSize (entries.insert name e) = e.data.length + entriesSize (entries.erase name) :=
  mapSize_insert

end

namespace CacheBlob

variable {B B' B'' : CacheBlob} {name : List UInt8} {e : CacheEntry}

/-- The recorded size is the size of the entries, and an `int` can hold it. -/
structure Sized (B : CacheBlob) : Prop where
  size : B.currentSize = entriesSize B.entries
  int : entriesSize B.entries < 2147483648

/-- Entries have been taken out; if so, `dirty_` is set. -/
structure Shrinks (B B' : CacheBlob) : Prop where
  kept : ∀ name, B'.entries.lookup name = B.entries.lookup name ∨ B'.entries.lookup name = none
  sized : B'.Sized
  smaller : entriesSize B'.entries ≤ entriesSize B.entries
  capacity : B'.maxCapacity = B.maxCapacity
  loaded : B'.loaded = B.loaded
  dirty : B' = B ∨ B'.dirty = true

theorem Shrinks.refl (sized : B.Sized) : Shrinks B B :=
  ⟨fun _ => .inl rfl, sized, Nat.le_refl _, rfl, rfl, .inl rfl⟩

theorem Shrinks.trans (first : Shrinks B B') (second : Shrinks B' B'') : Shrinks B B'' where
  kept name := by
    rcases second.kept name with same | gone
    · rw [same]
      exact first.kept name
    · exact .inr gone
  sized := second.sized
  smaller := Nat.le_trans second.smaller first.smaller
  capacity := second.capacity.trans first.capacity
  loaded := second.loaded.trans first.loaded
  dirty := by
    rcases second.dirty with same | set
    · rw [same]
      exact first.dirty
    · exact .inr set

/-- An entry that is left is an old one. -/
theorem Shrinks.old (shrinks : Shrinks B B') (found : B'.entries.lookup name = some e) :
    B.entries.lookup name = some e := by
  rcases shrinks.kept name with same | gone
  · rw [← same]
    exact found
  · rw [gone] at found
    cases found

theorem eraseEntry_none (absent : B.entries.lookup name = none) : B.eraseEntry name = B := by
  simp only [eraseEntry, absent]

theorem eraseEntry_some (found : B.entries.lookup name = some e) :
    B.eraseEntry name = { B with
      currentSize := wrapInt (B.currentSize - e.data.length)
      entries := B.entries.erase name
      dirty := true } := by
  simp only [eraseEntry, found]

theorem eraseEntry_lookup (B : CacheBlob) (name other : List UInt8) :
    (B.eraseEntry name).entries.lookup other =
      if other = name then none else B.entries.lookup other := by
  cases found : B.entries.lookup name with
  | none =>
      rw [eraseEntry_none found]
      by_cases same : other = name
      · rw [if_pos same, same]
        exact found
      · rw [if_neg same]
  | some e =>
      rw [eraseEntry_some found]
      exact lookup_erase_eq name other

theorem eraseEntry_total (B : CacheBlob) (name : List UInt8) :
    entriesSize (B.eraseEntry name).entries = entriesSize (B.entries.erase name) := by
  apply mapSize_congr
  intro other
  rw [eraseEntry_lookup, lookup_erase_eq]

theorem eraseEntry_shrinks (sized : B.Sized) (name : List UInt8) :
    Shrinks B (B.eraseEntry name) := by
  cases found : B.entries.lookup name with
  | none =>
      rw [eraseEntry_none found]
      exact .refl sized
  | some e =>
      have split := entriesSize_erase found
      have size := sized.size
      have int := sized.int
      rw [eraseEntry_some found]
      constructor
      · intro other
        by_cases same : other = name
        · exact .inr (by rw [same]; exact AList.lookup_erase name B.entries)
        · exact .inl (AList.lookup_erase_ne same)
      · constructor
        · change wrapInt (B.currentSize - e.data.length) = entriesSize (B.entries.erase name)
          rw [wrapInt_of_small] <;> omega
        · change entriesSize (B.entries.erase name) < 2147483648
          omega
      · change entriesSize (B.entries.erase name) ≤ entriesSize B.entries
        omega
      · rfl
      · rfl
      · exact .inr rfl

theorem victim_mem {entries : List (Σ _ : List UInt8, CacheEntry)} :
    entries ≠ [] → ∃ it ∈ entries, victim entries = some it.1 := by
  cases entries with
  | nil => exact fun empty => absurd rfl empty
  | cons first rest =>
      intro _
      have chosen : ∀ (rest : List (Σ _ : List UInt8, CacheEntry)) (best : Σ _ : List UInt8, CacheEntry),
          ∃ it ∈ best :: rest, rest.foldl (fun victim it =>
            if it.2.usedTimes < victim.2.usedTimes ∨
              it.2.usedTimes = victim.2.usedTimes ∧ it.2.data.length > victim.2.data.length then it
            else victim) best = it := by
        intro rest
        induction rest with
        | nil => exact fun best => ⟨best, List.mem_cons_self, rfl⟩
        | cons it rest ih =>
            intro best
            rw [List.foldl_cons]
            have ⟨found, member, result⟩ := ih (if it.2.usedTimes < best.2.usedTimes ∨
              it.2.usedTimes = best.2.usedTimes ∧ it.2.data.length > best.2.data.length then it
              else best)
            refine ⟨found, ?_, result⟩
            rcases List.mem_cons.mp member with here | later
            · rw [here]
              split <;> simp
            · simp [later]
      have ⟨it, member, result⟩ := chosen rest first
      exact ⟨it, member, by rw [victim, result]⟩

theorem victim_found (filled : B.entries.entries ≠ []) :
    ∃ name e, victim B.entries.entries = some name ∧ B.entries.lookup name = some e := by
  have ⟨⟨name, e⟩, member, chosen⟩ := victim_mem filled
  exact ⟨name, e, chosen, AList.mem_lookup_iff.mpr member⟩

theorem entries_erase_length (found : B.entries.lookup name = some e) :
    (B.eraseEntry name).entries.entries.length + 1 = B.entries.entries.length := by
  have present : name ∈ B.entries.entries.keys := by
    apply AList.mem_keys.mp
    rw [← AList.lookup_isSome, found]
    rfl
  have ⟨b, before, after, fresh, split, erased⟩ := List.exists_of_kerase present
  rw [eraseEntry_some found]
  change (B.entries.entries.kerase name).length + 1 = B.entries.entries.length
  rw [erased, split]
  simp only [List.length_append, List.length_cons]
  omega

/-- The loop ends with room for `length` bytes. -/
theorem evict_spec (length : Nat) (room : length ≤ B.maxCapacity)
    (sums : entriesSize B.entries + length < 2147483648) (sized : B.Sized) (fuel : Nat)
    (enough : B.entries.entries.length < fuel) :
    Shrinks B (evict length fuel B) ∧
      entriesSize (evict length fuel B).entries + length ≤ B.maxCapacity := by
  induction fuel generalizing B with
  | zero => omega
  | succ fuel ih =>
      have sum : wrapInt (B.currentSize + length) = (entriesSize B.entries + length : Nat) := by
        rw [sized.size, wrapInt_of_small] <;> omega
      unfold evict
      rw [sum]
      by_cases full : ((entriesSize B.entries + length : Nat) : Int) > B.maxCapacity
      · have filled : B.entries.entries ≠ [] := by
          intro empty
          have zero : entriesSize B.entries = 0 := by simp [entriesSize, mapSize, empty]
          omega
        obtain ⟨name, e, chosen, found⟩ := victim_found filled
        have first := eraseEntry_shrinks sized name
        have smaller := first.smaller
        have shorter := entries_erase_length found
        have capacity := first.capacity
        obtain ⟨later, fits⟩ := ih (by omega) (by omega) first.sized (by omega)
        rw [if_pos full, chosen]
        exact ⟨first.trans later, by dsimp only; omega⟩
      · rw [if_neg full]
        exact ⟨.refl sized, by omega⟩

/-- `insert` with data: the old entry goes, room is made, the new entry comes. -/
theorem insert_data {data : List UInt8} (some_ : data ≠ []) (sourceHash : UInt64) :
    B.insert name sourceHash (some data) =
      if ((B.eraseEntry name).makeRoom data.length).1 then
        (true, { ((B.eraseEntry name).makeRoom data.length).2 with
          entries := ((B.eraseEntry name).makeRoom data.length).2.entries.insert name
            ⟨sourceHash, data, 1⟩
          currentSize := wrapInt (((B.eraseEntry name).makeRoom data.length).2.currentSize +
            data.length)
          dirty := true })
      else (false, ((B.eraseEntry name).makeRoom data.length).2) := by
  cases data with
  | nil => exact absurd rfl some_
  | cons byte rest => rfl

/-- Data longer than the capacity only loses the old entry. -/
theorem insert_rejected {data : List UInt8} (some_ : data ≠ []) (sourceHash : UInt64)
    (long : B.maxCapacity < data.length) :
    B.insert name sourceHash (some data) = (false, B.eraseEntry name) := by
  have capacity : (B.eraseEntry name).maxCapacity = B.maxCapacity := by
    unfold eraseEntry
    split <;> rfl
  have full : (B.eraseEntry name).makeRoom data.length = (false, B.eraseEntry name) := by
    rw [makeRoom, if_pos (by omega)]
  rw [insert_data some_, full]
  rfl

/-- Accepted data is stored and other entries may have been evicted. -/
structure Inserted (B B' : CacheBlob) (name : List UInt8) (e : CacheEntry) : Prop where
  here : B'.entries.lookup name = some e
  others : ∀ other, other ≠ name →
    B'.entries.lookup other = B.entries.lookup other ∨ B'.entries.lookup other = none
  sized : B'.Sized
  budget : entriesSize B'.entries ≤ B.maxCapacity
  capacity : B'.maxCapacity = B.maxCapacity
  loaded : B'.loaded = B.loaded
  dirty : B'.dirty = true

theorem insert_accepted {data : List UInt8} (some_ : data ≠ []) (sourceHash : UInt64)
    (fits : data.length ≤ B.maxCapacity) (sized : B.Sized)
    (sums : entriesSize (B.entries.erase name) + data.length < 2147483648) :
    (B.insert name sourceHash (some data)).1 = true ∧
      Inserted B (B.insert name sourceHash (some data)).2 name ⟨sourceHash, data, 1⟩ := by
  have erased := eraseEntry_shrinks sized name
  have total := eraseEntry_total B name
  have capacity := erased.capacity
  have ⟨shrinks, room⟩ := evict_spec (B := B.eraseEntry name) data.length
    (by omega) (by omega) erased.sized _ (Nat.lt_succ_self _)
  have made : (B.eraseEntry name).makeRoom data.length =
      (true, evict data.length ((B.eraseEntry name).entries.entries.length + 1)
        (B.eraseEntry name)) := by
    rw [makeRoom, if_neg (by omega)]
  rw [insert_data some_, made]
  generalize evict data.length ((B.eraseEntry name).entries.entries.length + 1)
    (B.eraseEntry name) = B' at shrinks room
  dsimp only
  rw [if_pos rfl]
  have gone : B'.entries.lookup name = none := by
    rcases shrinks.kept name with same | gone
    · rw [same, eraseEntry_lookup, if_pos rfl]
    · exact gone
  have size : entriesSize (B'.entries.insert name ⟨sourceHash, data, 1⟩) =
      data.length + entriesSize B'.entries := by
    have same : entriesSize (B'.entries.erase name) = entriesSize B'.entries :=
      mapSize_erase_absent gone
    rw [entriesSize_insert, same]
  have sum := shrinks.sized.size
  have smaller := shrinks.smaller
  refine ⟨rfl, AList.lookup_insert B'.entries, ?_, ⟨?_, ?_⟩, ?_, ?_, ?_, rfl⟩
  · intro other different
    dsimp only
    rw [AList.lookup_insert_ne different]
    rcases shrinks.kept other with same | gone
    · rw [same, eraseEntry_lookup, if_neg different]
      exact .inl rfl
    · exact .inr gone
  · dsimp only
    rw [size, sum, wrapInt_of_small] <;> omega
  · dsimp only
    omega
  · dsimp only
    omega
  · exact shrinks.capacity.trans erased.capacity
  · exact shrinks.loaded.trans erased.loaded

/-- Only the counters of use and the order of iteration have changed. -/
structure SameContents (B B' : CacheBlob) : Prop where
  contents : ∀ name, (B'.entries.lookup name).map CacheEntry.content =
    (B.entries.lookup name).map CacheEntry.content
  total : entriesSize B'.entries = entriesSize B.entries
  size : B'.currentSize = B.currentSize
  capacity : B'.maxCapacity = B.maxCapacity
  loaded : B'.loaded = B.loaded
  dirty : B'.dirty = B.dirty

theorem SameContents.refl (B : CacheBlob) : SameContents B B :=
  ⟨fun _ => rfl, rfl, rfl, rfl, rfl, rfl⟩

theorem SameContents.old (same : SameContents B B') (found : B'.entries.lookup name = some e) :
    ∃ e', B.entries.lookup name = some e' ∧ e'.content = e.content := by
  have image := same.contents name
  rw [found] at image
  exact Option.map_eq_some_iff.mp image.symm

section

variable (B : CacheBlob) (name : List UInt8) (sourceHash : UInt64)

theorem find_same : SameContents B (B.find name sourceHash).2 := by
  cases found : B.entries.lookup name with
  | none =>
      simp only [find, found]
      exact .refl B
  | some e =>
      by_cases expired : e.sourceHash ≠ sourceHash
      · simp only [find, found, if_pos expired]
        exact .refl B
      · simp only [find, found, if_neg expired]
        constructor
        · intro other
          rw [lookup_insert_eq]
          by_cases here : other = name
          · rw [if_pos here, here, found]
            rfl
          · rw [if_neg here]
        · have split := entriesSize_erase found
          rw [entriesSize_insert]
          dsimp only
          omega
        · rfl
        · rfl
        · rfl
        · rfl

theorem find_result :
    (B.find name sourceHash).1 = (B.entries.lookup name).bind fun e =>
      if e.sourceHash = sourceHash then some e.data else none := by
  cases found : B.entries.lookup name with
  | none => simp only [find, found, Option.bind_none]
  | some e =>
      by_cases expired : e.sourceHash ≠ sourceHash
      · simp only [find, found, if_pos expired, Option.bind_some, if_neg expired]
      · simp only [find, found, if_neg expired, Option.bind_some, if_pos (not_not.mp expired)]

end

theorem rehash_same {order : EntryMap} (perm : order.entries.Perm B.entries.entries) :
    SameContents B { B with entries := order } := by
  have same : ∀ name, order.lookup name = B.entries.lookup name := fun name =>
    AList.perm_lookup perm
  constructor
  · intro name
    dsimp only
    rw [same]
  · exact mapSize_congr same
  · rfl
  · rfl
  · rfl
  · rfl

end CacheBlob

end PrimJs
