import PrimJs.Napi.CodeCacheFile

/-! Which files `read_entries` takes, and which of their entries it keeps. -/

namespace PrimJs

variable {maxCapacity : Nat} {entries : EntryMap} {file rest : List UInt8} {r : CacheRecord}
  {records : List CacheRecord} {L : Loading}

section Bytes

theorem u16Bytes_mod (v : Nat) : u16Bytes (v % 2 ^ 16) = u16Bytes v := by
  have low : UInt8.ofNat (v % 2 ^ 16) = UInt8.ofNat v := by
    apply UInt8.toNat_inj.mp
    rw [UInt8.toNat_ofNat', UInt8.toNat_ofNat']
    omega
  have high : UInt8.ofNat (v % 2 ^ 16 / 256) = UInt8.ofNat (v / 256) := by
    apply UInt8.toNat_inj.mp
    rw [UInt8.toNat_ofNat', UInt8.toNat_ofNat']
    omega
  rw [u16Bytes, low, high, u16Bytes]

theorem u16Bytes_getU16 {bytes : List UInt8} (length : bytes.length = 2) :
    u16Bytes (getU16 bytes 0) = bytes := by
  obtain ⟨a, b, rfl⟩ := List.length_eq_two.mp length
  have small := a.toNat_lt
  have low : UInt8.ofNat (a.toNat + 256 * b.toNat) = a := by
    apply UInt8.toNat_inj.mp
    rw [UInt8.toNat_ofNat']
    omega
  have high : (a.toNat + 256 * b.toNat) / 256 = b.toNat := by omega
  change [UInt8.ofNat (a.toNat + 256 * b.toNat),
    UInt8.ofNat ((a.toNat + 256 * b.toNat) / 256)] = _
  rw [low, high, UInt8.ofNat_toNat]

theorem u32Bytes_add {low high : Nat} (small : low < 2 ^ 16) :
    u32Bytes (low + 65536 * high) = u16Bytes low ++ u16Bytes high := by
  have quotient : (low + 65536 * high) / 65536 = high := by omega
  have remainder : (low + 65536 * high) % 2 ^ 16 = low := by omega
  rw [u32Bytes, quotient, ← u16Bytes_mod (low + 65536 * high), remainder]

theorem u32Bytes_mod (v : Nat) : u32Bytes (v % 2 ^ 32) = u32Bytes v := by
  have low : u16Bytes (v % 2 ^ 32) = u16Bytes v := by
    rw [← u16Bytes_mod, ← u16Bytes_mod v]
    congr 1
    omega
  have high : u16Bytes (v % 2 ^ 32 / 65536) = u16Bytes (v / 65536) := by
    rw [← u16Bytes_mod (v / 65536)]
    congr 1
    omega
  rw [u32Bytes, low, high, u32Bytes]

theorem u32Bytes_getU32 {bytes : List UInt8} (length : bytes.length = 4) :
    u32Bytes (getU32 bytes 0) = bytes := by
  obtain ⟨a, b, c, d, rfl⟩ : ∃ a b c d, bytes = [a, b, c, d] :=
    List.length_eq_four.mp length
  calc u32Bytes (getU32 [a, b, c, d] 0)
      = u32Bytes (getU16 [a, b] 0 + 65536 * getU16 [c, d] 0) := rfl
    _ = u16Bytes (getU16 [a, b] 0) ++ u16Bytes (getU16 [c, d] 0) := u32Bytes_add (getU16_lt _ _)
    _ = [a, b, c, d] := by
        rw [u16Bytes_getU16 rfl, u16Bytes_getU16 rfl]
        rfl

theorem u64Bytes_add {low high : Nat} (small : low < 2 ^ 32) :
    u64Bytes (low + 2 ^ 32 * high) = u32Bytes low ++ u32Bytes high := by
  have quotient : (low + 2 ^ 32 * high) / 2 ^ 32 = high := by omega
  have remainder : (low + 2 ^ 32 * high) % 2 ^ 32 = low := by omega
  rw [u64Bytes, quotient, ← u32Bytes_mod (low + 2 ^ 32 * high), remainder]

theorem getU64_lt (bytes : List UInt8) (pos : Nat) : getU64 bytes pos < 2 ^ 64 := by
  have low := getU32_lt bytes pos
  have high := getU32_lt bytes (pos + 4)
  unfold getU64
  omega

theorem u64Bytes_getU64 {bytes : List UInt8} (length : bytes.length = 8) :
    u64Bytes (getU64 bytes 0) = bytes := by
  obtain ⟨a, b, c, d, later, rfl⟩ : ∃ a b c d later, bytes = a :: b :: c :: d :: later := by
    match bytes, length with
    | a :: b :: c :: d :: later, _ => exact ⟨a, b, c, d, later, rfl⟩
  obtain ⟨e, f, g, h, rfl⟩ : ∃ e f g h, later = [e, f, g, h] :=
    List.length_eq_four.mp (by simpa using length)
  calc u64Bytes (getU64 [a, b, c, d, e, f, g, h] 0)
      = u64Bytes (getU32 [a, b, c, d] 0 + 2 ^ 32 * getU32 [e, f, g, h] 0) := rfl
    _ = u32Bytes (getU32 [a, b, c, d] 0) ++ u32Bytes (getU32 [e, f, g, h] 0) :=
        u64Bytes_add (getU32_lt _ _)
    _ = [a, b, c, d, e, f, g, h] := by
        rw [u32Bytes_getU32 rfl, u32Bytes_getU32 rfl]
        rfl

end Bytes

section Fields

theorem fread_iff {count : Nat} {bytes : List UInt8} :
    fread count file = some (bytes, rest) ↔ bytes.length = count ∧ file = bytes ++ rest := by
  refine ⟨fread_some, ?_⟩
  rintro ⟨rfl, rfl⟩
  exact fread_append bytes rest

theorem freadU16_iff {v : Nat} :
    freadU16 file = some (v, rest) ↔ v < 2 ^ 16 ∧ file = u16Bytes v ++ rest := by
  constructor
  · intro read
    obtain ⟨⟨bytes, after⟩, raw, same⟩ := Option.map_eq_some_iff.mp read
    obtain ⟨rfl, rfl⟩ := Prod.mk.inj same
    have ⟨length, split⟩ := fread_some raw
    exact ⟨getU16_lt bytes 0, by rw [u16Bytes_getU16 length]; exact split⟩
  · rintro ⟨small, rfl⟩
    exact freadU16_append small rest

theorem freadU32_iff {v : Nat} :
    freadU32 file = some (v, rest) ↔ v < 2 ^ 32 ∧ file = u32Bytes v ++ rest := by
  constructor
  · intro read
    obtain ⟨⟨bytes, after⟩, raw, same⟩ := Option.map_eq_some_iff.mp read
    obtain ⟨rfl, rfl⟩ := Prod.mk.inj same
    have ⟨length, split⟩ := fread_some raw
    exact ⟨getU32_lt bytes 0, by rw [u32Bytes_getU32 length]; exact split⟩
  · rintro ⟨small, rfl⟩
    exact freadU32_append small rest

theorem freadU64_iff {v : UInt64} :
    freadU64 file = some (v, rest) ↔ file = u64Bytes v.toNat ++ rest := by
  constructor
  · intro read
    obtain ⟨⟨bytes, after⟩, raw, same⟩ := Option.map_eq_some_iff.mp read
    obtain ⟨rfl, rfl⟩ := Prod.mk.inj same
    have ⟨length, split⟩ := fread_some raw
    have value : (UInt64.ofNat (getU64 bytes 0)).toNat = getU64 bytes 0 := by
      rw [UInt64.toNat_ofNat']
      exact Nat.mod_eq_of_lt (getU64_lt bytes 0)
    rw [value, u64Bytes_getU64 length]
    exact split
  · rintro rfl
    exact freadU64_append v rest

end Fields

/-- What an entry of a cache file must be. -/
structure CacheRecord.WellFormed (maxCapacity : Nat) (r : CacheRecord) : Prop where
  named : r.name ≠ []
  short : r.name.length ≤ 65535
  filled : r.data ≠ []
  fits : r.data.length ≤ maxCapacity

def CacheRecord.entry (r : CacheRecord) : CacheEntry := ⟨r.sourceHash, r.data, 0⟩

def CacheRecord.bytes (r : CacheRecord) : List UInt8 := writeRecord ⟨r.name, r.entry⟩

def cacheFile (records : List CacheRecord) : List UInt8 :=
  u32Bytes kMagic ++ u32Bytes kFormatVersion ++ records.flatMap CacheRecord.bytes

/-- A record is read exactly where a new well-formed one stands, with its checksum. -/
theorem readRecord_iff (int : maxCapacity < 2 ^ 31) :
    readRecord maxCapacity entries file = some (r, rest) ↔
      r.WellFormed maxCapacity ∧ r.name ∉ entries ∧ file = r.bytes ++ rest := by
  constructor
  · intro read
    have ⟨readable, _⟩ := readRecord_some read
    refine ⟨⟨readable.named, readable.short, readable.filled, readable.fits⟩, readable.fresh, ?_⟩
    simp only [readRecord, Option.bind_eq_bind, Option.bind_eq_some_iff, Prod.exists, freadU16_iff,
      freadU32_iff, freadU64_iff, fread_iff] at read
    obtain ⟨nameLength, _, ⟨_, rfl⟩, _, _, name, _, ⟨rfl, rfl⟩, _, _, sourceHash, _, rfl,
      dataLength, _, ⟨_, rfl⟩, _, _, data, _, ⟨rfl, rfl⟩, checksum, _, rfl, _, sum, result⟩ := read
    obtain ⟨rfl, rfl⟩ := Prod.mk.inj (Option.some.inj result)
    rw [guard_some sum]
    simp only [CacheRecord.bytes, CacheRecord.entry, writeRecord, List.append_assoc]
  · rintro ⟨formed, fresh, rfl⟩
    have writable : writableName r.name = true := by
      simp [writableName, formed.named, formed.short]
    exact @readRecord_writeRecord _ _ ⟨r.name, r.entry⟩ writable formed.filled formed.fits int
      fresh rest

/-- What a pass over the records keeps, and whether it has skipped one. -/
structure Kept where
  records : List CacheRecord
  skipped : Bool

namespace Kept

variable {K : Kept}

def size (K : Kept) : Nat := (K.records.map fun r => r.data.length).sum

def offer (maxCapacity : Nat) (K : Kept) (r : CacheRecord) : Kept :=
  if K.size + r.data.length ≤ maxCapacity then { K with records := K.records ++ [r] }
  else { K with skipped := true }

/-- Every record is well formed, and named like none kept before it. -/
def Admits (maxCapacity : Nat) : Kept → List CacheRecord → Prop
  | _, [] => True
  | K, r :: later => (r.WellFormed maxCapacity ∧ ∀ old ∈ K.records, old.name ≠ r.name) ∧
      (K.offer maxCapacity r).Admits maxCapacity later

/-- The length of every record, added to what is kept before it, is an `int`. -/
def SumsFit (maxCapacity : Nat) : Kept → List CacheRecord → Prop
  | _, [] => True
  | K, r :: later => K.size + r.data.length < 2 ^ 31 ∧
      (K.offer maxCapacity r).SumsFit maxCapacity later

end Kept

/-- The left-to-right pass that skips what exceeds the remaining capacity. -/
def keepFitting (maxCapacity : Nat) (records : List CacheRecord) : Kept :=
  records.foldl (Kept.offer maxCapacity) ⟨[], false⟩

/-- The same entries, the same size and the same news of a skipped one. -/
structure Loading.Holds (L : Loading) (K : Kept) : Prop where
  entries : ∀ name, L.entries.lookup name =
    (K.records.find? fun r => r.name = name).map CacheRecord.entry
  total : L.totalSize = K.size
  dirty : L.dirty = K.skipped

section Pass

variable {K : Kept}

theorem Kept.size_offer (fits : K.size + r.data.length ≤ maxCapacity) :
    (K.offer maxCapacity r).size = K.size + r.data.length := by
  rw [Kept.offer, if_pos fits]
  simp [Kept.size]

theorem Loading.Holds.fresh_iff (holds : L.Holds K) :
    r.name ∉ L.entries ↔ ∀ old ∈ K.records, old.name ≠ r.name := by
  rw [← AList.lookup_eq_none, holds.entries, Option.map_eq_none_iff, List.find?_eq_none]
  simp

theorem Loading.Holds.accept (holds : L.Holds K) (sum : K.size + r.data.length < 2 ^ 31)
    (fresh : ∀ old ∈ K.records, old.name ≠ r.name) :
    (L.accept maxCapacity r).Holds (K.offer maxCapacity r) := by
  have exact_ : wrapInt (L.totalSize + r.data.length) = (K.size + r.data.length : Nat) := by
    rw [holds.total, wrapInt_of_small] <;> omega
  by_cases fits : K.size + r.data.length ≤ maxCapacity
  · rw [Loading.accept, exact_, if_neg (by omega)]
    constructor
    · intro name
      have absent : K.records.find? (fun r' => r'.name = r.name) = none := by
        rw [List.find?_eq_none]
        simpa using fresh
      rw [Kept.offer, if_pos fits]
      dsimp only
      rw [lookup_insert_eq, List.find?_append]
      by_cases here : name = r.name
      · rw [if_pos here, here, absent]
        simp [CacheRecord.entry]
      · rw [if_neg here, holds.entries]
        simp [Ne.symm here]
    · exact congrArg Nat.cast (Kept.size_offer fits).symm
    · rw [Kept.offer, if_pos fits]
      exact holds.dirty
  · rw [Loading.accept, exact_, if_pos (by omega), Kept.offer, if_neg fits]
    exact ⟨holds.entries, holds.total, rfl⟩

theorem readLoop_step (fuel : Nat) (some_ : file ≠ []) :
    readLoop maxCapacity (fuel + 1) file L = match readRecord maxCapacity L.entries file with
      | none => (false, L)
      | some (r, rest) => readLoop maxCapacity fuel rest (L.accept maxCapacity r) := by
  cases file with
  | nil => exact absurd rfl some_
  | cons byte file => rfl

theorem sumsFit_step (fuel : Nat) (some_ : file ≠ []) :
    sumsFit maxCapacity (fuel + 1) file L = match readRecord maxCapacity L.entries file with
      | none => true
      | some (r, rest) => decide (L.totalSize + r.data.length < 2147483648) &&
          sumsFit maxCapacity fuel rest (L.accept maxCapacity r) := by
  cases file with
  | nil => exact absurd rfl some_
  | cons byte file => rfl

theorem CacheRecord.bytes_append_ne_nil (r : CacheRecord) (rest : List UInt8) :
    r.bytes ++ rest ≠ [] := by
  simp [CacheRecord.bytes, writeRecord, u16Bytes]

theorem readLoop_taken (int : maxCapacity < 2 ^ 31) (formed : r.WellFormed maxCapacity)
    (fresh : r.name ∉ L.entries) (fuel : Nat) (rest : List UInt8) :
    readLoop maxCapacity (fuel + 1) (r.bytes ++ rest) L =
      readLoop maxCapacity fuel rest (L.accept maxCapacity r) := by
  have found : readRecord maxCapacity L.entries (r.bytes ++ rest) = some (r, rest) :=
    (readRecord_iff int).mpr ⟨formed, fresh, rfl⟩
  rw [readLoop_step fuel (r.bytes_append_ne_nil rest), found]

/-- The sums fit for every sequence of records the bytes start with. -/
def Kept.FitsAlong (maxCapacity : Nat) (K : Kept) (file : List UInt8) : Prop :=
  ∀ records rest, file = records.flatMap CacheRecord.bytes ++ rest →
    K.Admits maxCapacity records → K.SumsFit maxCapacity records

theorem Kept.FitsAlong.step (along : K.FitsAlong maxCapacity (r.bytes ++ rest))
    (formed : r.WellFormed maxCapacity) (fresh : ∀ old ∈ K.records, old.name ≠ r.name) :
    K.size + r.data.length < 2 ^ 31 ∧ (K.offer maxCapacity r).FitsAlong maxCapacity rest := by
  constructor
  · exact (along [r] rest (by simp) ⟨⟨formed, fresh⟩, trivial⟩).1
  · rintro records rest' rfl admits
    exact (along (r :: records) rest' (by simp) ⟨⟨formed, fresh⟩, admits⟩).2

section

variable (int : maxCapacity < 2 ^ 31)

include int

/-- What the loop takes is made of admitted records. -/
theorem readLoop_records {L' : Loading} (fuel : Nat) (holds : L.Holds K)
    (along : K.FitsAlong maxCapacity file) (read : readLoop maxCapacity fuel file L = (true, L')) :
    ∃ records, file = records.flatMap CacheRecord.bytes ∧ K.Admits maxCapacity records ∧
      L'.Holds (records.foldl (Kept.offer maxCapacity) K) := by
  induction fuel generalizing file L K with
  | zero =>
      cases file with
      | nil =>
          obtain ⟨-, rfl⟩ := Prod.mk.inj read
          exact ⟨[], rfl, trivial, holds⟩
      | cons byte file => cases read
  | succ fuel ih =>
      by_cases empty : file = []
      · subst empty
        obtain ⟨-, rfl⟩ := Prod.mk.inj read
        exact ⟨[], rfl, trivial, holds⟩
      · rw [readLoop_step fuel empty] at read
        cases found : readRecord maxCapacity L.entries file with
        | none =>
            rw [found] at read
            cases read
        | some result =>
            have ⟨r, rest⟩ := result
            rw [found] at read
            have ⟨formed, new, split⟩ := (readRecord_iff int).mp found
            have fresh := holds.fresh_iff.mp new
            rw [split] at along
            have ⟨sum, along'⟩ := along.step formed fresh
            have ⟨records, split', admits, holds'⟩ := ih (holds.accept sum fresh) along' read
            refine ⟨r :: records, ?_, ⟨⟨formed, fresh⟩, admits⟩, holds'⟩
            rw [split, split', List.flatMap_cons]

/-- Admitted records are taken. -/
theorem readLoop_admitted (holds : L.Holds K) (admits : K.Admits maxCapacity records)
    (sums : K.SumsFit maxCapacity records) (fuel : Nat) (enough : records.length ≤ fuel) :
    ∃ L', readLoop maxCapacity fuel (records.flatMap CacheRecord.bytes) L = (true, L') ∧
      L'.Holds (records.foldl (Kept.offer maxCapacity) K) := by
  induction records generalizing fuel L K with
  | nil => exact ⟨L, by cases fuel <;> rfl, holds⟩
  | cons r records ih =>
      cases fuel with
      | zero => cases enough
      | succ fuel =>
          have ⟨⟨formed, fresh⟩, admits'⟩ := admits
          have ⟨sum, sums'⟩ := sums
          rw [List.flatMap_cons, readLoop_taken int formed (holds.fresh_iff.mpr fresh)]
          exact ih (holds.accept sum fresh) admits' sums' fuel (Nat.le_of_succ_le_succ enough)

theorem sumsFit_of_along (fuel : Nat) (holds : L.Holds K) (along : K.FitsAlong maxCapacity file) :
    sumsFit maxCapacity fuel file L = true := by
  induction fuel generalizing file L K with
  | zero => cases file <;> rfl
  | succ fuel ih =>
      by_cases empty : file = []
      · subst empty
        rfl
      · rw [sumsFit_step fuel empty]
        cases found : readRecord maxCapacity L.entries file with
        | none => rfl
        | some result =>
            have ⟨r, rest⟩ := result
            have ⟨formed, new, split⟩ := (readRecord_iff int).mp found
            have fresh := holds.fresh_iff.mp new
            rw [split] at along
            have ⟨sum, along'⟩ := along.step formed fresh
            apply Bool.and_eq_true_iff.mpr
            constructor
            · apply decide_eq_true
              rw [holds.total]
              omega
            · exact ih (holds.accept sum fresh) along'

theorem along_of_sumsFit (holds : L.Holds K) (fuel : Nat) (enough : records.length ≤ fuel)
    (fits : sumsFit maxCapacity fuel (records.flatMap CacheRecord.bytes ++ rest) L = true)
    (admits : K.Admits maxCapacity records) : K.SumsFit maxCapacity records := by
  induction records generalizing fuel L K with
  | nil => trivial
  | cons r records ih =>
      cases fuel with
      | zero => cases enough
      | succ fuel =>
          have ⟨⟨formed, fresh⟩, admits'⟩ := admits
          have found : readRecord maxCapacity L.entries
              (r.bytes ++ (records.flatMap CacheRecord.bytes ++ rest)) = some (r, _) :=
            (readRecord_iff int).mpr ⟨formed, holds.fresh_iff.mpr fresh, rfl⟩
          rw [List.flatMap_cons, List.append_assoc,
            sumsFit_step fuel (r.bytes_append_ne_nil _), found] at fits
          have ⟨sum, later⟩ := Bool.and_eq_true_iff.mp fits
          have small : K.size + r.data.length < 2 ^ 31 := by
            have := of_decide_eq_true sum
            rw [holds.total] at this
            omega
          exact ⟨small, ih (holds.accept small fresh) fuel (Nat.le_of_succ_le_succ enough) later admits'⟩

end

end Pass

section Image

variable {items : List (Σ _ : List UInt8, CacheEntry)} {K : Kept}

/-- Records that fit together are all kept. -/
theorem Kept.admits_of_fits (int : maxCapacity < 2 ^ 31)
    (formed : ∀ r ∈ records, r.WellFormed maxCapacity)
    (distinct : (K.records ++ records).Pairwise fun a b => a.name ≠ b.name)
    (room : K.size + (records.map fun r => r.data.length).sum ≤ maxCapacity) :
    K.Admits maxCapacity records ∧ K.SumsFit maxCapacity records ∧
      records.foldl (Kept.offer maxCapacity) K = { K with records := K.records ++ records } := by
  induction records generalizing K with
  | nil => exact ⟨trivial, trivial, by rw [List.append_nil]; rfl⟩
  | cons r records ih =>
      rw [List.map_cons, List.sum_cons] at room
      have fits : K.size + r.data.length ≤ maxCapacity := by omega
      have size := Kept.size_offer fits
      have kept : K.offer maxCapacity r = { K with records := K.records ++ [r] } := by
        rw [Kept.offer, if_pos fits]
      have fresh : ∀ old ∈ K.records, old.name ≠ r.name := fun old held =>
        (List.pairwise_append.mp distinct).2.2 old held r List.mem_cons_self
      have ⟨admits, sums, all⟩ := @ih (K.offer maxCapacity r)
        (fun r' member => formed r' (List.mem_cons_of_mem _ member))
        (by rw [kept]; simpa using distinct) (by rw [size]; omega)
      refine ⟨⟨⟨formed r List.mem_cons_self, fresh⟩, admits⟩, ⟨by omega, sums⟩, ?_⟩
      rw [List.foldl_cons, all, kept]
      simp

theorem recordOf_names (keys : items.NodupKeys) :
    (items.map recordOf).Pairwise fun a b => a.name ≠ b.name := by
  rw [List.pairwise_map]
  exact List.pairwise_map.mp keys

theorem find_recordOf (items : List (Σ _ : List UInt8, CacheEntry)) (name : List UInt8) :
    (((items.map recordOf).find? fun r => r.name = name).map CacheRecord.entry).map
      CacheEntry.content = (items.dlookup name).map CacheEntry.content := by
  induction items with
  | nil => rfl
  | cons it items ih =>
      by_cases here : name = it.1
      · subst here
        rw [List.dlookup_cons_eq, List.map_cons, List.find?_cons_of_pos (by simp [recordOf])]
        rfl
      · rw [List.dlookup_cons_ne items it here, List.map_cons,
          List.find?_cons_of_neg (by simp [recordOf, Ne.symm here])]
        exact ih

theorem serialize_eq_cacheFile {B : CacheBlob}
    (writable : ∀ name e, B.entries.lookup name = some e → writableName name = true) :
    B.serialize = cacheFile (B.entries.entries.map recordOf) := by
  have all : (B.entries.entries.filter fun it => writableName it.1) = B.entries.entries := by
    apply List.filter_eq_self.mpr
    intro it member
    exact writable it.1 it.2 (AList.mem_lookup_iff.mpr member)
  rw [CacheBlob.serialize, all, cacheFile, List.flatMap_map]
  rfl

end Image

section Files

theorem readHeader_iff : readHeader file = some rest ↔
    file = u32Bytes kMagic ++ u32Bytes kFormatVersion ++ rest := by
  constructor
  · intro read
    simp only [readHeader, Option.bind_eq_bind, Option.bind_eq_some_iff, Prod.exists,
      freadU32_iff] at read
    obtain ⟨magic, _, ⟨_, rfl⟩, version, after, ⟨_, rfl⟩, _, known, result⟩ := read
    obtain ⟨rfl, rfl⟩ := guard_some known
    obtain rfl := Option.some.inj result
    rw [List.append_assoc]
  · rintro rfl
    exact readHeader_append rest

theorem readHeader_cacheFile (records : List CacheRecord) (rest : List UInt8) :
    readHeader (cacheFile records ++ rest) =
      some (records.flatMap CacheRecord.bytes ++ rest) :=
  readHeader_iff.mpr (List.append_assoc _ _ _)

/-- A file is taken exactly if it is a header and admitted records, and of these the entries are
kept that the pass keeps. No sum of sizes wraps. -/
structure ReadsExactly (maxCapacity : Nat) (file : List UInt8) : Prop where
  noWrap : readSumsFit maxCapacity file = true
  sound : ∀ L, readEntries maxCapacity file = (true, L) → ∃ records, file = cacheFile records ∧
    Kept.Admits maxCapacity ⟨[], false⟩ records ∧ L.Holds (keepFitting maxCapacity records)
  complete : ∀ records, file = cacheFile records → Kept.Admits maxCapacity ⟨[], false⟩ records →
    (readEntries maxCapacity file).1 = true

/-- Wherever the file starts with a header and admitted records, the length of each is an `int`
together with what is kept before it. -/
def FileSumsFit (maxCapacity : Nat) (file : List UInt8) : Prop :=
  ∀ records rest, file = cacheFile records ++ rest → Kept.Admits maxCapacity ⟨[], false⟩ records →
    Kept.SumsFit maxCapacity ⟨[], false⟩ records

theorem holds_empty : Loading.Holds ⟨∅, 0, false⟩ ⟨[], false⟩ where
  entries name := AList.lookup_empty name
  total := rfl
  dirty := rfl

theorem bytes_length (records : List CacheRecord) :
    records.length ≤ (records.flatMap CacheRecord.bytes).length := by
  induction records with
  | nil => exact le_rfl
  | cons r records ih =>
      have some_ : 1 ≤ r.bytes.length := writeRecord_length _
      rw [List.flatMap_cons, List.length_append, List.length_cons]
      omega

theorem readEntries_admitted (int : maxCapacity < 2 ^ 31)
    (admits : Kept.Admits maxCapacity ⟨[], false⟩ records)
    (sums : Kept.SumsFit maxCapacity ⟨[], false⟩ records) :
    ∃ L, readEntries maxCapacity (cacheFile records) = (true, L) ∧
      L.Holds (keepFitting maxCapacity records) := by
  rw [readEntries, cacheFile, readHeader_append]
  exact readLoop_admitted int holds_empty admits sums _ (bytes_length records)

theorem readsExactly_iff (int : maxCapacity < 2 ^ 31) (file : List UInt8) :
    ReadsExactly maxCapacity file ↔ FileSumsFit maxCapacity file := by
  constructor
  · rintro ⟨noWrap, -, -⟩ records rest rfl admits
    rw [readSumsFit, readHeader_cacheFile] at noWrap
    refine along_of_sumsFit int holds_empty _ ?_ noWrap admits
    rw [List.length_append]
    exact Nat.le_add_right_of_le (bytes_length records)
  · intro sums
    cases header : readHeader file with
    | none =>
        refine ⟨by rw [readSumsFit, header], fun L read => ?_, ?_⟩
        · rw [readEntries, header] at read
          cases read
        · rintro records rfl -
          rw [cacheFile, readHeader_append] at header
          cases header
    | some rest =>
        obtain rfl := readHeader_iff.mp header
        have along : Kept.FitsAlong maxCapacity ⟨[], false⟩ rest := by
          rintro records rest' rfl
          exact sums records rest' (List.append_assoc _ _ _).symm
        refine ⟨?_, fun L read => ?_, fun records same admits => ?_⟩
        · rw [readSumsFit, header]
          exact sumsFit_of_along int _ holds_empty along
        · rw [readEntries, header] at read
          obtain ⟨records, split, admits, holds⟩ := readLoop_records int _ holds_empty along read
          exact ⟨records, by rw [cacheFile, split], admits, holds⟩
        · have fits := sums records [] (by rw [List.append_nil]; exact same) admits
          obtain ⟨L, read, _⟩ := readEntries_admitted int admits fits
          rw [same, read]

theorem readEntries_serialize {B : CacheBlob}
    (formed : ∀ name e, B.entries.lookup name = some e → writableName name = true ∧ e.data ≠ [])
    (budget : entriesSize B.entries ≤ B.maxCapacity) :
    ∃ L, readEntries B.maxCapacity B.serialize = (true, L) ∧
      (∀ name, (L.entries.lookup name).map CacheEntry.content =
        (B.entries.lookup name).map CacheEntry.content) ∧
      L.totalSize = entriesSize B.entries ∧ L.dirty = false := by
  have total : ((B.entries.entries.map recordOf).map fun r => r.data.length).sum =
      entriesSize B.entries := by
    rw [List.map_map]
    rfl
  have wellFormed : ∀ r ∈ B.entries.entries.map recordOf, r.WellFormed B.maxCapacity := by
    intro r member
    obtain ⟨it, present, rfl⟩ := List.mem_map.mp member
    have found : B.entries.lookup it.1 = some it.2 := AList.mem_lookup_iff.mpr present
    obtain ⟨writable, filled⟩ := formed it.1 it.2 found
    obtain ⟨named, short⟩ : it.1 ≠ [] ∧ it.1.length ≤ 65535 := by simpa [writableName] using writable
    have part : it.2.data.length ≤ entriesSize B.entries :=
      size_le_mapSize (w := fun e => e.data.length) found
    exact ⟨named, short, filled, part.trans budget⟩
  obtain ⟨admits, sums, all⟩ := @Kept.admits_of_fits B.maxCapacity _ ⟨[], false⟩ B.capacityInt
    wellFormed (recordOf_names B.entries.nodupKeys) (by rw [total]; simpa [Kept.size] using budget)
  obtain ⟨L, read, holds⟩ := readEntries_admitted B.capacityInt admits sums
  rw [keepFitting, all] at holds
  refine ⟨L, ?_, fun name => ?_, ?_, holds.dirty⟩
  · rw [serialize_eq_cacheFile fun name e found => (formed name e found).1, read]
  · rw [holds.entries]
    exact find_recordOf B.entries.entries name
  · rw [holds.total, Kept.size]
    exact congrArg Nat.cast total

/-- What is written is read back; a file is read exactly as long as no sum of sizes exceeds an
`int`. -/
theorem readEntries_exact (B : CacheBlob) :
    ((∀ name e, B.entries.lookup name = some e → writableName name = true ∧ e.data ≠ []) →
      entriesSize B.entries ≤ B.maxCapacity →
      ∃ L, readEntries B.maxCapacity B.serialize = (true, L) ∧
        (∀ name, (L.entries.lookup name).map CacheEntry.content =
          (B.entries.lookup name).map CacheEntry.content) ∧
        L.totalSize = entriesSize B.entries ∧ L.dirty = false) ∧
    ∀ file, ReadsExactly B.maxCapacity file ↔ FileSumsFit B.maxCapacity file :=
  ⟨readEntries_serialize, readsExactly_iff B.capacityInt⟩

/-- Two entries of a gigabyte each are kept within a capacity of one. -/
theorem readEntries_exceeds_capacity : ¬ ∀ (B : CacheBlob) (file : List UInt8),
    ReadsExactly B.maxCapacity file := by
  intro holds
  obtain ⟨data, length⟩ : ∃ data : List UInt8, data.length = 2 ^ 30 :=
    ⟨List.replicate (2 ^ 30) 0, List.length_replicate⟩
  have filled : data ≠ [] := by
    rintro rfl
    cases length
  have formed : ∀ name, name ≠ [] → name.length ≤ 65535 →
      CacheRecord.WellFormed (2 ^ 30) ⟨name, 0, data⟩ := fun name named short =>
    ⟨named, short, filled, length.le⟩
  have kept : Kept.offer (2 ^ 30) ⟨[], false⟩ ⟨[1], 0, data⟩ = ⟨[⟨[1], 0, data⟩], false⟩ := by
    rw [Kept.offer, if_pos (by rw [length]; decide)]
    rfl
  have first := @Loading.Holds.accept (2 ^ 30) ⟨[1], 0, data⟩ _ _ holds_empty
    (by rw [length]; decide) (by simp)
  rw [kept] at first
  obtain ⟨fuel, enough⟩ := Nat.exists_eq_add_of_le'
    (bytes_length [⟨[1], 0, data⟩, ⟨[2], 0, data⟩])
  -- The sum of the second turn is 2^31, which as an `int` is negative.
  have run : readEntries (2 ^ 30) (cacheFile [⟨[1], 0, data⟩, ⟨[2], 0, data⟩]) =
      (true, (Loading.accept (2 ^ 30) ⟨∅, 0, false⟩ ⟨[1], 0, data⟩).accept (2 ^ 30)
        ⟨[2], 0, data⟩) := by
    rw [readEntries, cacheFile, readHeader_append]
    dsimp only
    rw [enough]
    change readLoop _ (fuel + 1 + 1) (_ ++ (_ ++ [])) _ = _
    rw [readLoop_taken (by decide) (formed [1] (by simp) (by simp)) (AList.notMem_empty _),
      readLoop_taken (by decide) (formed [2] (by simp) (by simp)) (first.fresh_iff.mpr (by simp))]
    cases fuel <;> rfl
  have negative : wrapInt ((2 ^ 30 : Nat) + (2 ^ 30 : Nat)) = -2147483648 := by decide
  have total := first.total
  obtain ⟨records, _, _, same⟩ := (holds ⟨2 ^ 30, by decide, ∅, 0, false, false, false⟩ _).sound _ run
  have size := same.total
  rw [Loading.accept, total] at size
  simp only [Kept.size, List.map_cons, List.map_nil, List.sum_cons, List.sum_nil, length] at size
  rw [Nat.add_zero, negative, if_neg (by decide)] at size
  dsimp only at size
  omega

end Files

end PrimJs
