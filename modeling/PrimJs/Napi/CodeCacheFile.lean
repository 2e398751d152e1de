import PrimJs.Napi.CodeCacheLoad

/-! The file format: `read_entries` reads what `serialize` writes. -/

namespace PrimJs

variable {maxCapacity : Nat} {entries : EntryMap} {rest name : List UInt8} {L : Loading}

theorem fread_append (bytes rest : List UInt8) :
    fread bytes.length (bytes ++ rest) = some (bytes, rest) := by
  simp [fread]

theorem freadU16_append {v : Nat} (small : v < 2 ^ 16) (rest : List UInt8) :
    freadU16 (u16Bytes v ++ rest) = some (v, rest) := by
  have value := getU16_u16Bytes small []
  rw [List.append_nil] at value
  have read := fread_append (u16Bytes v) rest
  rw [u16Bytes_length] at read
  simp [freadU16, read, value]

theorem freadU32_append {v : Nat} (small : v < 2 ^ 32) (rest : List UInt8) :
    freadU32 (u32Bytes v ++ rest) = some (v, rest) := by
  have value := getU32_u32Bytes small []
  rw [List.append_nil] at value
  have read := fread_append (u32Bytes v) rest
  rw [u32Bytes_length] at read
  simp [freadU32, read, value]

theorem freadU64_append (v : UInt64) (rest : List UInt8) :
    freadU64 (u64Bytes v.toNat ++ rest) = some (v, rest) := by
  have value := getU64_u64Bytes v.toNat_lt []
  rw [List.append_nil] at value
  have read := fread_append (u64Bytes v.toNat) rest
  rw [u64Bytes_length] at read
  simp [freadU64, read, value]

def recordOf (it : Σ _ : List UInt8, CacheEntry) : CacheRecord := ⟨it.1, it.2.sourceHash, it.2.data⟩

/-- An entry that is written comes back as it is. -/
theorem readRecord_writeRecord {it : Σ _ : List UInt8, CacheEntry} (writable : writableName it.1 = true)
    (filled : it.2.data ≠ []) (fits : it.2.data.length ≤ maxCapacity) (int : maxCapacity < 2 ^ 31)
    (fresh : it.1 ∉ entries) (rest : List UInt8) :
    readRecord maxCapacity entries (writeRecord it ++ rest) = some (recordOf it, rest) := by
  have ⟨named, short⟩ : it.1 ≠ [] ∧ it.1.length ≤ 65535 := by simpa [writableName] using writable
  have nameLength : it.1.length ≠ 0 := fun zero => named (List.length_eq_zero_iff.mp zero)
  have dataLength : it.2.data.length ≠ 0 := fun zero => filled (List.length_eq_zero_iff.mp zero)
  have first := freadU16_append (v := it.1.length) (by omega) (it.1 ++ (u64Bytes
    it.2.sourceHash.toNat ++ (u32Bytes it.2.data.length ++ (it.2.data ++
      (u64Bytes (fnv1a64 it.2.data).toNat ++ rest)))))
  have fourth := freadU32_append (v := it.2.data.length) (by omega) (it.2.data ++
    (u64Bytes (fnv1a64 it.2.data).toNat ++ rest))
  have layout : writeRecord it ++ rest = u16Bytes it.1.length ++ (it.1 ++ (u64Bytes
      it.2.sourceHash.toNat ++ (u32Bytes it.2.data.length ++ (it.2.data ++
        (u64Bytes (fnv1a64 it.2.data).toNat ++ rest))))) := by
    simp only [writeRecord, List.append_assoc]
  rw [layout, readRecord]
  simp [first, fourth, fread_append, freadU64_append, guard, nameLength, dataLength, fits, fresh,
    recordOf]

def contentOf (items : List (Σ _ : List UInt8, CacheEntry)) (name : List UInt8) :
    Option (UInt64 × List UInt8) := (items.dlookup name).map CacheEntry.content

/-- The loop reads a sequence of written entries, if they fit. -/
theorem readLoop_writeRecords {items : List (Σ _ : List UInt8, CacheEntry)} (int : maxCapacity < 2 ^ 31)
    (keys : items.NodupKeys)
    (writable : ∀ it ∈ items, writableName it.1 = true ∧ it.2.data ≠ [])
    (fresh : ∀ it ∈ items, it.1 ∉ L.entries) (size : L.totalSize = entriesSize L.entries)
    (fits : entriesSize L.entries + (items.map fun it => it.2.data.length).sum ≤ maxCapacity)
    (fuel : Nat) (enough : items.length ≤ fuel) :
    (readLoop maxCapacity fuel (items.flatMap writeRecord) L).1 = true ∧
      ∀ name, ((readLoop maxCapacity fuel (items.flatMap writeRecord) L).2.entries.lookup name).map
          CacheEntry.content =
        (contentOf items name).or ((L.entries.lookup name).map CacheEntry.content) := by
  induction items generalizing L fuel with
  | nil =>
      have done : readLoop maxCapacity fuel [] L = (true, L) := by cases fuel <;> rfl
      rw [List.flatMap_nil, done]
      exact ⟨rfl, fun name => rfl⟩
  | cons it items ih =>
      cases fuel with
      | zero => simp at enough
      | succ fuel =>
          obtain ⟨head, tail⟩ := List.nodupKeys_cons.mp keys
          obtain ⟨named, filled⟩ := writable it List.mem_cons_self
          have new := fresh it List.mem_cons_self
          rw [List.map_cons, List.sum_cons] at fits
          have room : entriesSize L.entries + (recordOf it).data.length ≤ maxCapacity := by
            dsimp only [recordOf]
            omega
          obtain ⟨kept, total⟩ := accept_kept new room size (by omega)
          have record := readRecord_writeRecord named filled (by omega) int new
            (items.flatMap writeRecord)
          have nonempty : writeRecord it ++ items.flatMap writeRecord ≠ [] := by
            simp [writeRecord, u16Bytes]
          have step : readLoop maxCapacity (fuel + 1) (writeRecord it ++ items.flatMap writeRecord) L =
              readLoop maxCapacity fuel (items.flatMap writeRecord) (L.accept maxCapacity (recordOf it)) := by
            rw [readLoop, record]
            exact fun empty => nonempty empty
          have later : ∀ it' ∈ items, it'.1 ∉ (L.accept maxCapacity (recordOf it)).entries := by
            intro it' member present
            rw [kept] at present
            rcases (AList.mem_insert L.entries).mp present with same | old
            · have different := List.ne_key.mp head it' member
              exact different same.symm
            · exact fresh it' (List.mem_cons_of_mem _ member) old
          have size' : (L.accept maxCapacity (recordOf it)).totalSize =
              entriesSize (L.accept maxCapacity (recordOf it)).entries := by
            rw [kept]
            dsimp only
            rw [total]
          have fits' : entriesSize (L.accept maxCapacity (recordOf it)).entries +
              (items.map fun it => it.2.data.length).sum ≤ maxCapacity := by
            rw [kept]
            dsimp only
            rw [total]
            dsimp only [recordOf]
            omega
          have enough' : items.length ≤ fuel := by
            rw [List.length_cons] at enough
            omega
          obtain ⟨read, contents⟩ := ih tail
            (fun it' member => writable it' (List.mem_cons_of_mem _ member)) later size' fits' fuel
            enough'
          rw [List.flatMap_cons, step]
          refine ⟨read, fun name => ?_⟩
          rw [contents, kept]
          dsimp only
          rw [lookup_insert_eq]
          by_cases here : name = it.1
          · have absent : items.dlookup name = none := by
              rw [here]
              exact List.dlookup_eq_none.mpr head
            have found : (it :: items).dlookup name = some it.2 := by
              rw [here]
              exact List.dlookup_cons_eq items it.1 it.2
            rw [if_pos (by exact here), contentOf, contentOf, absent, found]
            rfl
          · have skipped : (it :: items).dlookup name = items.dlookup name :=
              List.dlookup_cons_ne items it here
            rw [if_neg (by exact here), contentOf, contentOf, skipped]

section Filter

variable {items : List (Σ _ : List UInt8, CacheEntry)}

theorem dlookup_filter (keep : List UInt8 → Bool) (name : List UInt8) :
    (items.filter fun it => keep it.1).dlookup name =
      if keep name = true then items.dlookup name else none := by
  induction items with
  | nil => simp
  | cons it items ih =>
      by_cases here : name = it.1
      · subst here
        cases kept : keep it.1 with
        | true =>
            rw [List.filter_cons_of_pos (by exact kept), List.dlookup_cons_eq, if_pos rfl,
              List.dlookup_cons_eq]
        | false =>
            rw [List.filter_cons_of_neg (by simp [kept]), ih, kept]
            rfl
      · rw [List.dlookup_cons_ne items it here, ← ih]
        cases kept : keep it.1 with
        | true => rw [List.filter_cons_of_pos (by exact kept), List.dlookup_cons_ne _ it here]
        | false => rw [List.filter_cons_of_neg (by simp [kept])]

theorem sum_filter_le (items : List (Σ _ : List UInt8, CacheEntry)) (keep : (Σ _ : List UInt8, CacheEntry) → Bool) :
    ((items.filter keep).map fun it => it.2.data.length).sum ≤
      (items.map fun it => it.2.data.length).sum := by
  induction items with
  | nil => simp
  | cons it items ih =>
      by_cases kept : keep it = true
      · simp only [List.filter_cons_of_pos kept, List.map_cons, List.sum_cons]
        omega
      · simp only [List.filter_cons_of_neg kept, List.map_cons, List.sum_cons]
        omega

end Filter

/-- `file` decodes to the entries with a writable name. -/
def Encodes (maxCapacity : Nat) (file : List UInt8) (entries : EntryMap) : Prop :=
  (readEntries maxCapacity file).1 = true ∧
    ∀ name, ((readEntries maxCapacity file).2.entries.lookup name).map CacheEntry.content =
      if writableName name = true then (entries.lookup name).map CacheEntry.content else none

theorem readHeader_append (rest : List UInt8) :
    readHeader (u32Bytes kMagic ++ u32Bytes kFormatVersion ++ rest) = some rest := by
  have first := freadU32_append (v := kMagic) (by decide) (u32Bytes kFormatVersion ++ rest)
  have second := freadU32_append (v := kFormatVersion) (by decide) rest
  rw [List.append_assoc]
  simp [readHeader, first, second, guard]

theorem writeRecord_length (it : Σ _ : List UInt8, CacheEntry) : 1 ≤ (writeRecord it).length := by
  simp [writeRecord]
  omega

theorem length_le_flatMap (items : List (Σ _ : List UInt8, CacheEntry)) :
    items.length ≤ (items.flatMap writeRecord).length := by
  induction items with
  | nil => simp
  | cons it items ih =>
      have some_ := writeRecord_length it
      simp only [List.flatMap_cons, List.length_append, List.length_cons]
      omega

/-- The image of a blob within its capacity decodes to its entries. -/
theorem serialize_encodes {B : CacheBlob} (budget : entriesSize B.entries ≤ B.maxCapacity)
    (filled : ∀ name e, B.entries.lookup name = some e → e.data ≠ []) :
    Encodes B.maxCapacity B.serialize B.entries := by
  have keys : (B.entries.entries.filter fun it => writableName it.1).NodupKeys :=
    List.NodupKeys.sublist List.filter_sublist B.entries.nodupKeys
  have writable : ∀ it ∈ B.entries.entries.filter fun it => writableName it.1,
      writableName it.1 = true ∧ it.2.data ≠ [] := by
    intro it member
    have ⟨present, named⟩ := List.mem_filter.mp member
    exact ⟨named, filled it.1 it.2 (AList.mem_lookup_iff.mpr present)⟩
  have fits : entriesSize ∅ + ((B.entries.entries.filter fun it => writableName it.1).map
      fun it => it.2.data.length).sum ≤ B.maxCapacity := by
    have part := sum_filter_le B.entries.entries fun it => writableName it.1
    have whole : (B.entries.entries.map fun it => it.2.data.length).sum ≤ B.maxCapacity := budget
    have zero : entriesSize ∅ = 0 := rfl
    omega
  have ⟨read, contents⟩ := readLoop_writeRecords (L := ⟨∅, 0, false⟩) B.capacityInt keys writable
    (fun it _ => AList.notMem_empty it.1) rfl fits _ (length_le_flatMap _)
  have parsed : readEntries B.maxCapacity B.serialize =
      readLoop B.maxCapacity ((B.entries.entries.filter fun it => writableName it.1).flatMap
        writeRecord).length ((B.entries.entries.filter fun it => writableName it.1).flatMap
          writeRecord) ⟨∅, 0, false⟩ := by
    rw [readEntries, CacheBlob.serialize, readHeader_append]
  rw [Encodes, parsed]
  refine ⟨read, fun name => ?_⟩
  rw [contents, contentOf, dlookup_filter]
  by_cases named : writableName name = true
  · rw [if_pos named, if_pos named]
    exact Option.or_none
  · rw [if_neg named, if_neg named]
    rfl

end PrimJs
