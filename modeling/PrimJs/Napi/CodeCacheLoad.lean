import PrimJs.Napi.CodeCacheSpec

/-! What `read_entries` accepts and how `input` merges it. -/

namespace PrimJs

variable {maxCapacity count : Nat} {entries : EntryMap} {file rest bytes name : List UInt8}
  {r : CacheRecord} {L : Loading}

theorem guard_some {p : Prop} [Decidable p] {u : Unit} (passed : (guard p : Option Unit) = some u) :
    p := by
  by_contra failed
  simp [guard, failed] at passed

theorem fread_some (read : fread count file = some (bytes, rest)) :
    bytes.length = count ∧ file = bytes ++ rest := by
  unfold fread at read
  split at read
  · simp only [Option.some.injEq, Prod.mk.injEq] at read
    rw [← read.1, ← read.2]
    exact ⟨by simp; omega, (List.take_append_drop count file).symm⟩
  · cases read

/-- A record that is read is new and not empty. -/
structure CacheRecord.Readable (maxCapacity : Nat) (entries : EntryMap) (r : CacheRecord) : Prop where
  fresh : r.name ∉ entries
  named : r.name ≠ []
  short : r.name.length ≤ 65535
  filled : r.data ≠ []
  fits : r.data.length ≤ maxCapacity

theorem readRecord_some (read : readRecord maxCapacity entries file = some (r, rest)) :
    r.Readable maxCapacity entries ∧ rest.length < file.length := by
  simp only [readRecord, Option.bind_eq_bind, Option.bind_eq_some_iff, Prod.exists, freadU16,
    freadU32, freadU64, Option.map_eq_some_iff, Prod.mk.injEq] at read
  have ⟨nameLength, _, ⟨lengthBytes, _, first, length, same⟩, _, named, name, _, second, _, fresh,
    hash, _, ⟨_, _, third, _, same'⟩, dataLength, _, ⟨_, _, fourth, _, same''⟩, _, sized, data, _,
    fifth, _, _, ⟨_, _, sixth, _, same'''⟩, _, _, result⟩ := read
  subst same same' same'' same'''
  have ⟨positive, small⟩ := guard_some sized
  have ⟨nameSize, split⟩ := fread_some second
  have ⟨dataSize, _⟩ := fread_some fifth
  have parts := (fread_some first).2
  have shorter := (fread_some third).2
  have shorter' := (fread_some fourth).2
  have shorter'' := (fread_some fifth).2
  have shorter''' := (fread_some sixth).2
  simp only [Option.pure_def, Option.some.injEq, Prod.mk.injEq] at result
  rw [← result.1, ← result.2]
  refine ⟨⟨guard_some fresh, ?_, ?_, ?_, ?_⟩, ?_⟩
  · intro empty
    change name = [] at empty
    rw [empty] at nameSize
    exact guard_some named nameSize.symm
  · have bound := getU16_lt lengthBytes 0
    dsimp only
    omega
  · intro empty
    change data = [] at empty
    rw [empty] at dataSize
    exact positive dataSize.symm
  · dsimp only
    omega
  · rw [parts, split, shorter, shorter', shorter'', shorter''']
    simp only [List.length_append]
    omega

/-- No sum of the loop leaves the range of an `int`. -/
def sumsFit (maxCapacity : Nat) : Nat → List UInt8 → Loading → Bool
  | _, [], _ => true
  | 0, _, _ => true
  | fuel + 1, file, L =>
      match readRecord maxCapacity L.entries file with
      | none => true
      | some (r, rest) => decide (L.totalSize + r.data.length < 2147483648) &&
          sumsFit maxCapacity fuel rest (L.accept maxCapacity r)

/-- The entries read so far fit the capacity, and each could be written. -/
structure Loading.Sound (maxCapacity : Nat) (L : Loading) : Prop where
  size : L.totalSize = entriesSize L.entries
  budget : entriesSize L.entries ≤ maxCapacity
  writable : ∀ name e, L.entries.lookup name = some e →
    writableName name = true ∧ e.data ≠ []

theorem Loading.Sound.empty : Loading.Sound maxCapacity ⟨∅, 0, false⟩ where
  size := rfl
  budget := Nat.zero_le _
  writable name e found := by simp at found

theorem accept_kept (new : r.name ∉ L.entries) (fits : entriesSize L.entries + r.data.length ≤ maxCapacity)
    (size : L.totalSize = entriesSize L.entries)
    (sum : L.totalSize + r.data.length < 2147483648) :
    L.accept maxCapacity r =
        { L with
          totalSize := (entriesSize L.entries + r.data.length : Nat)
          entries := L.entries.insert r.name ⟨r.sourceHash, r.data, 0⟩ } ∧
      entriesSize (L.entries.insert r.name ⟨r.sourceHash, r.data, 0⟩) =
        entriesSize L.entries + r.data.length := by
  have whole : wrapInt (L.totalSize + r.data.length) = (entriesSize L.entries + r.data.length : Nat) := by
    rw [wrapInt_of_small] <;> omega
  have same : entriesSize (L.entries.erase r.name) = entriesSize L.entries :=
    mapSize_erase_absent (AList.lookup_eq_none.mpr new)
  constructor
  · rw [Loading.accept, whole, if_neg (by omega)]
  · rw [entriesSize_insert, same]
    dsimp only
    omega

theorem accept_dropped (full : maxCapacity < entriesSize L.entries + r.data.length)
    (size : L.totalSize = entriesSize L.entries)
    (sum : L.totalSize + r.data.length < 2147483648) :
    L.accept maxCapacity r = { L with dirty := true } := by
  have whole : wrapInt (L.totalSize + r.data.length) = (entriesSize L.entries + r.data.length : Nat) := by
    rw [wrapInt_of_small] <;> omega
  rw [Loading.accept, whole, if_pos (by omega)]

theorem accept_sound (sound : L.Sound maxCapacity) (readable : r.Readable maxCapacity L.entries)
    (sum : L.totalSize + r.data.length < 2147483648) :
    (L.accept maxCapacity r).Sound maxCapacity := by
  by_cases fits : entriesSize L.entries + r.data.length ≤ maxCapacity
  · have ⟨kept, size⟩ := accept_kept readable.fresh fits sound.size sum
    rw [kept]
    constructor
    · dsimp only
      rw [size]
    · dsimp only
      rw [size]
      exact fits
    · intro name e found
      dsimp only at found
      rw [lookup_insert_eq] at found
      split at found
      · rename_i here
        rw [here, ← Option.some.inj found]
        simp [writableName, readable.named, readable.short, readable.filled]
      · exact sound.writable name e found
  · rw [accept_dropped (by omega) sound.size sum]
    exact ⟨sound.size, sound.budget, sound.writable⟩

theorem readLoop_sound (fuel : Nat) (sound : L.Sound maxCapacity)
    (sums : sumsFit maxCapacity fuel file L = true) :
    (readLoop maxCapacity fuel file L).2.Sound maxCapacity := by
  induction fuel generalizing file L with
  | zero => cases file <;> exact sound
  | succ fuel ih =>
      cases file with
      | nil => exact sound
      | cons byte file =>
          rw [readLoop]
          · cases read : readRecord maxCapacity L.entries (byte :: file) with
            | none => exact sound
            | some found =>
                have ⟨r, rest⟩ := found
                rw [sumsFit] at sums
                · rw [read] at sums
                  have ⟨sum, later⟩ := Bool.and_eq_true_iff.mp sums
                  have next := accept_sound sound (readRecord_some read).1 (of_decide_eq_true sum)
                  exact ih next later
                · simp
          · simp

def readSumsFit (maxCapacity : Nat) (file : List UInt8) : Bool :=
  match readHeader file with
  | none => true
  | some rest => sumsFit maxCapacity rest.length rest ⟨∅, 0, false⟩

theorem readEntries_sound (sums : readSumsFit maxCapacity file = true) :
    (readEntries maxCapacity file).2.Sound maxCapacity := by
  unfold readEntries
  unfold readSumsFit at sums
  split
  · exact .empty
  · rename_i rest header
    rw [header] at sums
    exact readLoop_sound _ .empty sums

section Merge

variable {list : List (Σ _ : List UInt8, CacheEntry)} {state : EntryMap × Int}

theorem mergeEntry_size (size : state.2 = wrapInt (entriesSize state.1))
    (it : Σ _ : List UInt8, CacheEntry) :
    (mergeEntry state it).2 = wrapInt (entriesSize (mergeEntry state it).1) := by
  have whole : entriesSize (state.1.insert it.1 it.2) =
      it.2.data.length + entriesSize (state.1.erase it.1) := entriesSize_insert
  cases found : state.1.lookup it.1 with
  | none =>
      have same : entriesSize (state.1.erase it.1) = entriesSize state.1 := mapSize_erase_absent found
      have sum : (entriesSize state.1 : Int) - 0 + it.2.data.length =
          entriesSize (state.1.insert it.1 it.2) := by omega
      simp only [mergeEntry, found]
      rw [wrapInt_add, size, Int.sub_eq_add_neg, wrapInt_sum, ← Int.sub_eq_add_neg, sum]
  | some old =>
      have split := entriesSize_erase found
      have sum : (entriesSize state.1 : Int) - old.data.length + it.2.data.length =
          entriesSize (state.1.insert it.1 it.2) := by omega
      simp only [mergeEntry, found]
      rw [wrapInt_add, size, Int.sub_eq_add_neg, wrapInt_sum, ← Int.sub_eq_add_neg, sum]

theorem foldl_mergeEntry_size (list : List (Σ _ : List UInt8, CacheEntry)) (state : EntryMap × Int)
    (size : state.2 = wrapInt (entriesSize state.1)) :
    (list.foldl mergeEntry state).2 = wrapInt (entriesSize (list.foldl mergeEntry state).1) := by
  induction list generalizing state with
  | nil => exact size
  | cons it list ih => exact ih _ (mergeEntry_size size it)

theorem foldl_mergeEntry_lookup (keys : list.NodupKeys) (name : List UInt8) :
    (list.foldl mergeEntry state).1.lookup name =
      match list.dlookup name with
      | none => state.1.lookup name
      | some e => some e := by
  induction list generalizing state with
  | nil => rfl
  | cons it list ih =>
      have ⟨fresh, rest⟩ := List.nodupKeys_cons.mp keys
      rw [List.foldl_cons, ih rest]
      by_cases here : name = it.1
      · have absent : list.dlookup name = none := by
          rw [here]
          exact List.dlookup_eq_none.mpr fresh
        have head : (it :: list).dlookup name = some it.2 := by
          rw [here]
          exact List.dlookup_cons_eq list it.1 it.2
        rw [absent, head, here]
        exact AList.lookup_insert state.1
      · have tail : (it :: list).dlookup name = list.dlookup name :=
          List.dlookup_cons_ne list it here
        rw [tail]
        cases list.dlookup name with
        | none => exact AList.lookup_insert_ne here
        | some e => rfl

/-- What the loop of `input` leaves: the entries of the memory before those of the file. -/
theorem merge_lookup (memory loaded : EntryMap) (size : Int) (name : List UInt8) :
    (memory.entries.foldl mergeEntry (loaded, size)).1.lookup name =
      (memory ∪ loaded).lookup name := by
  rw [foldl_mergeEntry_lookup memory.nodupKeys]
  change (match memory.lookup name with
    | none => loaded.lookup name
    | some e => some e) = _
  cases found : memory.lookup name with
  | none => exact (AList.lookup_union_right (AList.lookup_eq_none.mp found)).symm
  | some e =>
      have present : name ∈ memory := by
        rw [← AList.lookup_isSome, found]
        rfl
      rw [AList.lookup_union_left present]
      exact found.symm

theorem merge_total (memory loaded : EntryMap) (size : Int) :
    entriesSize (memory.entries.foldl mergeEntry (loaded, size)).1 = entriesSize (memory ∪ loaded) :=
  mapSize_congr (merge_lookup memory loaded size)

end Merge

namespace CacheBlob

variable {B : CacheBlob}

/-- The entries `input` adds to the memory. -/
def loads (B : CacheBlob) : Option (List UInt8) → Option Loading
  | none => none
  | some file =>
      if B.loaded then none
      else if (readEntries B.maxCapacity file).1 then some (readEntries B.maxCapacity file).2 else none

/-- The file and the memory together fit the capacity, and no sum wraps while the file is read. -/
def LoadFits (B : CacheBlob) (file : List UInt8) : Prop :=
  (readEntries B.maxCapacity file).1 = true → readSumsFit B.maxCapacity file = true ∧
    entriesSize (B.entries ∪ (readEntries B.maxCapacity file).2.entries) ≤ B.maxCapacity

instance (file : List UInt8) : Decidable (B.LoadFits file) :=
  inferInstanceAs (Decidable (_ → _))

theorem input_loaded (loaded : B.loaded = true) (file : Option (List UInt8)) :
    B.input file = (B.loadResult, B) := by
  rw [input, if_pos loaded]

section

variable (first : B.loaded = false)

include first

theorem input_absent : B.input none = (false, { B with loaded := true }) := by
  rw [input, if_neg (by simp [first])]

theorem input_invalid (invalid : (readEntries B.maxCapacity file).1 = false) :
    B.input (some file) = (false, { B with loaded := true, dirty := true }) := by
  rw [input, if_neg (by simp [first])]
  simp [invalid]

theorem input_valid (valid : (readEntries B.maxCapacity file).1 = true) :
    B.input (some file) = (true, { B with
      loaded := true
      entries := (B.entries.entries.foldl mergeEntry ((readEntries B.maxCapacity file).2.entries,
        (readEntries B.maxCapacity file).2.totalSize)).1
      currentSize := (B.entries.entries.foldl mergeEntry
        ((readEntries B.maxCapacity file).2.entries,
          (readEntries B.maxCapacity file).2.totalSize)).2
      loadResult := true
      dirty := B.dirty || (readEntries B.maxCapacity file).2.dirty }) := by
  rw [input, if_neg (by simp [first])]
  simp [valid]

/-- A load that fits leaves a blob within its capacity. -/
theorem input_sized (valid : (readEntries B.maxCapacity file).1 = true) (fits : B.LoadFits file) :
    (B.input (some file)).2.Sized ∧ entriesSize (B.input (some file)).2.entries ≤ B.maxCapacity := by
  have ⟨sums, room⟩ := fits valid
  have sound := readEntries_sound sums
  have int := B.capacityInt
  have budget := sound.budget
  have start : (readEntries B.maxCapacity file).2.totalSize =
      wrapInt (entriesSize (readEntries B.maxCapacity file).2.entries) := by
    rw [sound.size, wrapInt_of_small] <;> omega
  have size := foldl_mergeEntry_size B.entries.entries
    ((readEntries B.maxCapacity file).2.entries, (readEntries B.maxCapacity file).2.totalSize) start
  have total := merge_total B.entries (readEntries B.maxCapacity file).2.entries
    (readEntries B.maxCapacity file).2.totalSize
  rw [input_valid first valid]
  constructor
  · constructor
    · dsimp only
      rw [size, total, wrapInt_of_small] <;> omega
    · dsimp only
      omega
  · dsimp only
    omega

end

end CacheBlob

end PrimJs
