import PrimJs.Numeric.BigIntSpec
import PrimJs.Serialize.Validation

/-! A `BigInt` written to the binary object format and read back. -/

namespace PrimJs.BigInt

open StateReader Limbs

variable {w : Nat}

/-- `JS_LIMB_BITS / 8` -/
def LimbBits.bytes (bits : LimbBits) : Nat := bits.width / 8

section Writing

/-- The bytes that the loop leaves out of the top limb `v`; `shift / 8` is at most `n`. -/
def signBytes (v : BitVec w) : Nat → Nat
  | 0 => 0
  | n + 1 =>
      let shift := 8 * (n + 1)
      let b := v >>> shift &&& 255#w
      if b ≠ 0#w ∧ b ≠ 255#w then 0
      else if b &&& 1#w ≠ v >>> (shift - 1) &&& 1#w then 0
      else signBytes v n + 1

/-- The length of the two's complement representation in bytes, a `uint32_t` -/
def writtenLen (bits : LimbBits) (p : JSBigInt bits.width) : Nat :=
  if p.len = 1 ∧ p.limb 0 = 0 then 0
  else (p.len * bits.bytes - signBytes (p.limb (p.len - 1)) (bits.bytes - 1)) % 2^32

def bcPutLimb (bits : LimbBits) (v : BitVec bits.width) : List UInt8 :=
  match bits with
  | .bits32 => u32Bytes v.toNat
  | .bits64 => u64Bytes v.toNat

/-- The limbs as the machine that reads them has them: `byte_swap` is not set. -/
def writtenLimbs (bits : LimbBits) (p : JSBigInt bits.width) (len : Nat) : List UInt8 :=
  (List.range (len / bits.bytes)).flatMap (fun i => bcPutLimb bits (p.limb i)) ++
    (List.range (len % bits.bytes)).map fun i =>
      UInt8.ofNat (p.limb (p.len - 1) >>> (i * 8) &&& 255#(bits.width)).toNat

def jsWriteBigInt (bits : LimbBits) (p : JSBigInt bits.width) : List UInt8 :=
  let len := writtenLen bits p
  UInt8.ofNat BCTag.bigInt.number :: (dbufPutLeb128 len ++ writtenLimbs bits p len)

end Writing

/-! ### Bytes taken from the front -/

/-- The reader takes `bytes` from the front of the input and returns `a`. -/
def Consumes {α : Type} (read : BCRead α) (bytes : List UInt8) (a : α) : Prop :=
  ∀ (s : BCReaderState) (rest : List UInt8), s.rest = bytes ++ rest →
    Reads read s a { s with rest, pos := s.pos + bytes.length }

section Consumes

variable {α β : Type} {read : BCRead α} {bytes later : List UInt8} {a : α} {b : β}

theorem Consumes.bind {next : α → BCRead β} (first : Consumes read bytes a)
    (second : Consumes (next a) later b) : Consumes (read >>= next) (bytes ++ later) b := by
  intro s rest input
  have firstRun := first s (later ++ rest) (by rw [input, List.append_assoc])
  have secondRun := second { s with rest := later ++ rest, pos := s.pos + bytes.length } rest rfl
  rw [List.length_append, ← Nat.add_assoc]
  exact reads_bind.mpr ⟨a, _, firstRun, secondRun⟩

theorem Consumes.pure (a : α) : Consumes (Pure.pure a) [] a := by
  intro s rest input
  have same : s = { s with rest, pos := s.pos + ([] : List UInt8).length } := by
    cases s
    simpa using input
  rw [← same]
  exact reads_pure.mpr ⟨rfl, rfl⟩

theorem Consumes.map (first : Consumes read bytes a) (f : α → β) :
    Consumes (f <$> read) bytes (f a) := by
  intro s rest input
  exact reads_map.mpr ⟨a, first s rest input, rfl⟩

theorem consumes_bcTake (bytes : List UInt8) : Consumes (bcTake bytes.length) bytes bytes := by
  intro s rest input
  apply reads_bcTake.mpr
  refine ⟨?_, ?_, ?_⟩
  · rw [input, List.length_append]
    exact Nat.le_add_right _ _
  · rw [input, List.take_left]
  · rw [BCReaderState.advance, input, List.drop_left]

/-- Each element takes the bytes that `encode` gives for it. -/
theorem Consumes.readN {γ : Type} {encode : γ → List UInt8} {decode : γ → α} (values : List γ)
    (each : ∀ value ∈ values, Consumes read (encode value) (decode value)) :
    Consumes (StateReader.readN values.length read) (values.flatMap encode)
      (values.map decode) := by
  induction values with
  | nil => exact Consumes.pure []
  | cons value values ih =>
      have first := each value List.mem_cons_self
      have others := ih fun value member => each value (List.mem_cons_of_mem _ member)
      have tail : Consumes (do
          let rest ← StateReader.readN values.length read
          Pure.pure (decode value :: rest)) (values.flatMap encode)
          (decode value :: values.map decode) := by
        rw [← List.append_nil (values.flatMap encode)]
        exact others.bind (Consumes.pure _)
      rw [List.flatMap_cons]
      exact first.bind tail

theorem consumes_bcGetU8 (v : Nat) : Consumes bcGetU8 [UInt8.ofNat v] (v % 256) := by
  have taken := (consumes_bcTake [UInt8.ofNat v]).map (getU8 · 0)
  have value : getU8 [UInt8.ofNat v] 0 = v % 256 := byteAt_cons_zero (UInt8.ofNat v) []
  rw [value] at taken
  exact taken

theorem consumes_bcGetLimb (bits : LimbBits) (v : BitVec bits.width) :
    Consumes (bcGetLimb bits.bytes) (bcPutLimb bits v) v.toNat := by
  cases bits with
  | bits32 =>
      have taken := (consumes_bcTake (u32Bytes v.toNat)).map (getU32 · 0)
      have value := getU32_u32Bytes v.isLt []
      rw [List.append_nil] at value
      rw [value] at taken
      exact taken
  | bits64 =>
      have taken := (consumes_bcTake (u64Bytes v.toNat)).map (getU64 · 0)
      have value := getU64_u64Bytes v.isLt []
      rw [List.append_nil] at value
      rw [value] at taken
      exact taken

theorem consumes_bcGetLeb128 {v : Nat} (small : v < 2^32) :
    Consumes bcGetLeb128 (dbufPutLeb128 v) v := by
  intro s rest input
  have read := getLeb128_put small rest
  rw [← input] at read
  have used : s.rest.length - rest.length = (dbufPutLeb128 v).length := by
    rw [input, List.length_append, Nat.add_sub_cancel]
  unfold bcGetLeb128
  refine reads_bind.mpr ⟨s, s, reads_get.mpr ⟨rfl, rfl⟩, ?_⟩
  rw [read]
  dsimp only
  rw [used]
  exact reads_bind.mpr ⟨(), _, reads_set.mpr rfl, reads_pure.mpr ⟨rfl, rfl⟩⟩

end Consumes

/-! ### The bytes of the top limb -/

/-- The bits of `v` from the highest of the low `m` bits on are its sign. -/
def SignFits (v : BitVec w) (m : Nat) : Prop := ∀ i, m - 1 ≤ i → i < w → v.getLsbD i = v.msb

theorem signFits_width (v : BitVec w) : SignFits v w := by
  intro i low high
  obtain rfl : i = w - 1 := by omega
  rw [BitVec.msb_eq_getLsbD_last]

variable {v : BitVec w}

theorem SignFits.signExtend {m : Nat} (fits : SignFits v m) (positive : 0 < m) (narrow : m ≤ w) :
    (v.setWidth m).signExtend w = v := by
  have sign : (v.setWidth m).msb = v.msb := by
    rw [BitVec.msb_eq_getLsbD_last, BitVec.getLsbD_setWidth, decide_eq_true (by omega : m - 1 < m),
      Bool.true_and]
    exact fits (m - 1) le_rfl (by omega)
  apply BitVec.eq_of_getLsbD_eq
  intro i inside
  rw [BitVec.getLsbD_signExtend, decide_eq_true inside, Bool.true_and]
  by_cases low : i < m
  · rw [if_pos low, BitVec.getLsbD_setWidth, decide_eq_true low, Bool.true_and]
  · rw [if_neg low, sign]
    exact (fits i (by omega) inside).symm

/-- The sign is extended from the top of the low `m` bits. -/
theorem SignFits.toNat_eq {m : Nat} (fits : SignFits v m) (positive : 0 < m) (narrow : m ≤ w) :
    v.toNat = if 2^(m - 1) ≤ v.toNat % 2^m then v.toNat % 2^m + 2^w - 2^m else v.toNat % 2^m := by
  have low : (v.setWidth m).toNat = v.toNat % 2^m := BitVec.toNat_setWidth m v
  have below : v.toNat % 2^m < 2^m := Nat.mod_lt _ (Nat.two_pow_pos m)
  have wider : 2^m ≤ 2^w := Nat.pow_le_pow_right (by decide) narrow
  have sign : (v.setWidth m).msb = decide (2^(m - 1) ≤ v.toNat % 2^m) := by
    rw [BitVec.msb_eq_decide, low]
  have value := congrArg BitVec.toNat (fits.signExtend positive narrow)
  rw [BitVec.toNat_signExtend, BitVec.toNat_setWidth, low, sign,
    Nat.mod_eq_of_lt (below.trans_le wider)] at value
  by_cases high : 2^(m - 1) ≤ v.toNat % 2^m
  · rw [if_pos (decide_eq_true high)] at value
    rw [if_pos high]
    omega
  · rw [if_neg (by simpa using high), Nat.add_zero] at value
    rw [if_neg high]
    exact value.symm

theorem getLsbD_byte (byte : 8 ≤ w) (v : BitVec w) (shift j : Nat) :
    (v >>> shift &&& 255#w).getLsbD j = (decide (j < 8) && v.getLsbD (shift + j)) := by
  have mask : (255#w).getLsbD j = decide (j < 8) := by
    rw [BitVec.getLsbD_ofNat, show (255 : Nat) = 2^8 - 1 from rfl, Nat.testBit_two_pow_sub_one]
    by_cases low : j < 8
    · rw [decide_eq_true low, decide_eq_true (by omega : j < w), Bool.true_and]
    · rw [decide_eq_false low, Bool.and_false]
  rw [BitVec.getLsbD_and, BitVec.getLsbD_ushiftRight, mask, Bool.and_comm]

theorem getLsbD_lowBit (positive : 0 < w) (x : BitVec w) : (x &&& 1#w).getLsbD 0 = x.getLsbD 0 := by
  rw [BitVec.getLsbD_and, BitVec.getLsbD_one, decide_eq_true positive]
  simp

/-- A byte that is left out only repeats the sign of the bytes below. -/
theorem SignFits.dropByte {n : Nat} (fits : SignFits v (8 * (n + 2))) (wide : 8 * (n + 2) ≤ w)
    (uniform : v >>> (8 * (n + 1)) &&& 255#w = 0#w ∨ v >>> (8 * (n + 1)) &&& 255#w = 255#w)
    (repeats : (v >>> (8 * (n + 1)) &&& 255#w) &&& 1#w = v >>> (8 * (n + 1) - 1) &&& 1#w) :
    SignFits v (8 * (n + 1)) := by
  have byte : 8 ≤ w := by omega
  have top : v.getLsbD (8 * (n + 1) + 7) = v.msb := fits _ (by omega) (by omega)
  have same : ∀ j < 8, v.getLsbD (8 * (n + 1) + j) = v.msb := by
    intro j low
    have bit := getLsbD_byte byte v (8 * (n + 1)) j
    have bit' := getLsbD_byte byte v (8 * (n + 1)) 7
    rw [top] at bit'
    rw [decide_eq_true low, Bool.true_and] at bit
    rw [decide_eq_true (by decide : 7 < 8), Bool.true_and] at bit'
    rw [← bit, ← bit']
    obtain zero | ones := uniform
    · rw [zero, BitVec.getLsbD_zero, BitVec.getLsbD_zero]
    · have mask := getLsbD_byte byte (255#w) 0
      simp only [BitVec.ushiftRight_zero, BitVec.and_self, Nat.zero_add] at mask
      rw [ones, BitVec.getLsbD_ofNat, BitVec.getLsbD_ofNat, show (255 : Nat) = 2^8 - 1 from rfl,
        Nat.testBit_two_pow_sub_one, Nat.testBit_two_pow_sub_one, decide_eq_true low,
        decide_eq_true (by omega : j < w), decide_eq_true (by omega : 7 < w)]
      rfl
  have below : v.getLsbD (8 * (n + 1) - 1) = v.msb := by
    have bits := congrArg (fun x : BitVec w => x.getLsbD 0) repeats
    simp only [getLsbD_lowBit (by omega : 0 < w), getLsbD_byte byte, BitVec.getLsbD_ushiftRight,
      Nat.add_zero] at bits
    rw [← bits]
    exact same 0 (by decide)
  intro i low inside
  by_cases edge : i = 8 * (n + 1) - 1
  · rw [edge, below]
  · by_cases within : i < 8 * (n + 1) + 8
    · obtain ⟨j, rfl⟩ : ∃ j, i = 8 * (n + 1) + j := ⟨i - 8 * (n + 1), by omega⟩
      exact same j (by omega)
    · exact fits i (by omega) inside

theorem signBytes_le (v : BitVec w) (n : Nat) : signBytes v n ≤ n := by
  induction n with
  | zero => exact le_rfl
  | succ n ih =>
      rw [signBytes]
      split
      · exact Nat.zero_le _
      · split
        · exact Nat.zero_le _
        · exact Nat.succ_le_succ ih

theorem signFits_signBytes {n : Nat} (fits : SignFits v (8 * (n + 1))) (wide : 8 * (n + 1) ≤ w) :
    SignFits v (8 * (n + 1 - signBytes v n)) := by
  induction n with
  | zero => exact fits
  | succ n ih =>
      rw [signBytes]
      split
      · exact fits
      · next uniform =>
        split
        · exact fits
        · next repeats =>
          have kept := fits.dropByte wide (by tauto) (not_not.mp repeats)
          rw [Nat.succ_sub_succ]
          exact ih kept (by omega)

theorem foldr_bytes (v n : Nat) :
    ((List.range n).map fun i => v / 256^i % 256).foldr (fun v8 v => v8 + 256 * v) 0 =
      v % 256^n := by
  induction n generalizing v with
  | zero => exact (Nat.mod_one v).symm
  | succ n ih =>
      have tail : ((List.range n).map Nat.succ).map (fun i => v / 256^i % 256) =
          (List.range n).map fun i => v / 256 / 256^i % 256 := by
        rw [List.map_map]
        apply List.map_congr_left
        intro i _
        rw [Function.comp_apply, Nat.succ_eq_add_one, Nat.pow_succ', Nat.div_div_eq_div_mul]
      rw [List.range_succ_eq_map, List.map_cons, List.foldr_cons, tail, ih, Nat.pow_succ',
        Nat.mod_mul, Nat.pow_zero, Nat.div_one]

theorem toNat_byte (byte : 8 ≤ w) (v : BitVec w) (i : Nat) :
    (v >>> (i * 8) &&& 255#w).toNat = v.toNat / 256^i % 256 := by
  have mask : (255#w).toNat = 2^8 - 1 := by
    rw [BitVec.toNat_ofNat]
    apply Nat.mod_eq_of_lt
    have wide : 2^8 ≤ 2^w := Nat.pow_le_pow_right (by decide) byte
    omega
  rw [BitVec.toNat_and, mask, Nat.and_two_pow_sub_one_eq_mod, BitVec.toNat_ushiftRight,
    Nat.shiftRight_eq_div_pow, Nat.mul_comm i 8, Nat.pow_mul]

/-- The incomplete limb is read with its sign. -/
theorem consumes_readPartialLimb {limbBytes n : Nat} (width : w = 8 * limbBytes)
    (positive : 0 < n) (narrow : n ≤ limbBytes) (fits : SignFits v (8 * n)) :
    Consumes (readPartialLimb limbBytes n)
      ((List.range n).map fun i => UInt8.ofNat (v >>> (i * 8) &&& 255#w).toNat) v.toNat := by
  have byte : 8 ≤ w := by omega
  have each : ∀ i ∈ List.range n, Consumes bcGetU8 [UInt8.ofNat (v >>> (i * 8) &&& 255#w).toNat]
      (v.toNat / 256^i % 256) := by
    intro i _
    have taken := consumes_bcGetU8 (v >>> (i * 8) &&& 255#w).toNat
    rw [toNat_byte byte, Nat.mod_mod] at taken
    rw [toNat_byte byte]
    exact taken
  have bytes := Consumes.readN (List.range n) each
  have value := fits.toNat_eq (by omega) (by omega)
  have powers : (256 : Nat)^n = 2^(8 * n) := by rw [Nat.pow_mul]
  rw [List.length_range, ← List.map_eq_flatMap] at bytes
  have whole : Consumes (readPartialLimb limbBytes n) _ _ := bytes.bind (Consumes.pure _)
  rw [foldr_bytes, powers, ← width, List.append_nil] at whole
  rw [value]
  exact whole

/-! ### The round trip -/

theorem LimbBits.width_eq (bits : LimbBits) : bits.width = 8 * bits.bytes := by
  cases bits <;> rfl

theorem jsBigintMaxSize_bytes (bits : LimbBits) :
    jsBigintMaxSize bits.bytes = maxSize bits.width := by
  rw [jsBigintMaxSize, maxSize, ← bits.width_eq]

variable {bits : LimbBits}

/-- `len` bytes are the limbs of the value, the last one perhaps incomplete. -/
theorem writtenLen_div {n t : Nat} (positive : 0 < n) (fits : n ≤ maxSize bits.width)
    (part : t ≤ bits.bytes - 1) :
    (n * bits.bytes - t) % 2^32 = n * bits.bytes - t ∧
      (n * bits.bytes - t + 2^32 - 1) % 2^32 / bits.bytes + 1 = n ∧
      (n * bits.bytes - t) / bits.bytes = (if t = 0 then n else n - 1) ∧
      (n * bits.bytes - t) % bits.bytes = (if t = 0 then 0 else bits.bytes - t) := by
  cases bits with
  | bits32 =>
      simp only [LimbBits.bytes, LimbBits.width, maxSize] at fits part ⊢
      split <;> omega
  | bits64 =>
      simp only [LimbBits.bytes, LimbBits.width, maxSize] at fits part ⊢
      split <;> omega

theorem map_limb (p : JSBigInt w) : (List.range p.len).map p.limb = p.tab := by
  apply List.ext_getElem
  · rw [List.length_map, List.length_range, JSBigInt.len]
  · intro i inside inside'
    rw [List.getElem_map, List.getElem_range, JSBigInt.limb, List.getD_eq_getElem?_getD,
      List.getElem?_eq_getElem inside', Option.getD_some]

/-- The reader after the length, once there is room for the limbs -/
def readLimbs (bits : LimbBits) (len : Nat) : BCRead BCValue := do
  let limbs ← StateReader.readN (len / bits.bytes) (bcGetLimb bits.bytes)
  if len % bits.bytes ≠ 0 then do
    let last ← readPartialLimb bits.bytes (len % bits.bytes)
    pure (.bigInt (limbs ++ [last]))
  else pure (.bigInt limbs)

theorem reads_jsReadBigInt {s t : BCReaderState} {v : BCValue}
    (layout : s.ctx.layout.limbBytes = bits.bytes) :
    Reads jsReadBigInt s v t ↔ ∃ len u, Reads bcGetLeb128 s len u ∧
      (len + 2^32 - 1) % 2^32 / bits.bytes + 1 ≤ maxSize bits.width ∧
      Reads (readLimbs bits len) u v t := by
  unfold jsReadBigInt readLimbs
  rw [← jsBigintMaxSize_bytes]
  constructor
  · intro run
    obtain ⟨_, _, here, afterState⟩ := reads_bind.mp run
    obtain ⟨rfl, rfl⟩ := reads_get.mp here
    obtain ⟨len, u, lenRun, afterLen⟩ := reads_bind.mp afterState
    obtain ⟨_, _, checked, limbs⟩ := reads_bind.mp afterLen
    obtain ⟨fits, rfl⟩ := reads_require.mp checked
    rw [layout] at fits limbs
    exact ⟨len, _, lenRun, fits, limbs⟩
  · rintro ⟨len, u, lenRun, fits, read⟩
    refine reads_bind.mpr ⟨s, s, reads_get.mpr ⟨rfl, rfl⟩, ?_⟩
    refine reads_bind.mpr ⟨len, u, lenRun, ?_⟩
    rw [layout]
    exact reads_bind.mpr ⟨(), u, reads_require.mpr ⟨fits, rfl⟩, read⟩

theorem consumes_limbs (p : JSBigInt bits.width) (n : Nat) :
    Consumes (StateReader.readN n (bcGetLimb bits.bytes))
      ((List.range n).flatMap fun i => bcPutLimb bits (p.limb i))
      (((List.range n).map p.limb).map BitVec.toNat) := by
  have limbs := Consumes.readN (List.range n) fun i _ => consumes_bcGetLimb bits (p.limb i)
  rw [List.length_range] at limbs
  rw [List.map_map]
  exact limbs

/-- The limbs are read as they were written. -/
theorem consumes_writtenLimbs {p : JSBigInt bits.width} (positive : 0 < p.len)
    (fits : p.len ≤ maxSize bits.width) {len : Nat}
    (length : len = p.len * bits.bytes - signBytes (p.limb (p.len - 1)) (bits.bytes - 1)) :
    Consumes (readLimbs bits len) (writtenLimbs bits p len)
      (.bigInt (p.tab.map BitVec.toNat)) := by
  have part := signBytes_le (p.limb (p.len - 1)) (bits.bytes - 1)
  have bytes : 0 < bits.bytes := by cases bits <;> decide
  have significant : SignFits (p.limb (p.len - 1))
      (8 * (bits.bytes - signBytes (p.limb (p.len - 1)) (bits.bytes - 1))) := by
    have trimmed : SignFits (p.limb (p.len - 1)) (8 * (bits.bytes - 1 + 1 -
        signBytes (p.limb (p.len - 1)) (bits.bytes - 1))) := by
      apply signFits_signBytes
      · rw [Nat.sub_add_cancel bytes, ← bits.width_eq]
        exact signFits_width _
      · rw [Nat.sub_add_cancel bytes, ← bits.width_eq]
    rw [Nat.sub_add_cancel bytes] at trimmed
    exact trimmed
  generalize signBytes (p.limb (p.len - 1)) (bits.bytes - 1) = t at length part significant
  obtain ⟨-, -, quotient, remainder⟩ := writtenLen_div positive fits part
  rw [← length] at quotient remainder
  unfold writtenLimbs readLimbs
  apply (consumes_limbs p (len / bits.bytes)).bind
  by_cases whole : t = 0
  · rw [if_pos whole] at quotient remainder
    rw [remainder, quotient, map_limb, if_neg (by simp), List.range_zero, List.map_nil]
    exact Consumes.pure _
  · rw [if_neg whole] at quotient remainder
    have tab : ((List.range (p.len - 1)).map p.limb).map BitVec.toNat ++
        [(p.limb (p.len - 1)).toNat] = p.tab.map BitVec.toNat := by
      calc _ = ((List.range (p.len - 1 + 1)).map p.limb).map BitVec.toNat := by
            rw [List.range_succ, List.map_append, List.map_append]
            rfl
        _ = p.tab.map BitVec.toNat := by rw [Nat.sub_add_cancel positive, map_limb]
    have last := consumes_readPartialLimb bits.width_eq (by omega) (Nat.sub_le _ t) significant
    rw [remainder, quotient, if_pos (by omega), ← tab]
    rw [← List.append_nil (List.map (fun i => UInt8.ofNat _) _)]
    exact last.bind (Consumes.pure (BCValue.bigInt _))

theorem value_eq_zero_iff (p : NormalBigInt bits.width) :
    p.value = 0 ↔ p.len = 1 ∧ p.limb 0 = 0 := by
  have positive : 0 < bits.width := by cases bits <;> decide
  constructor
  · intro zero
    have same : p.toJSBigInt = ⟨[0#(bits.width)]⟩ := by
      apply Denotes.unique positive ⟨p.normal, zero⟩
      exact ⟨normalized_singleton _, signed_singleton _ |>.trans BitVec.toInt_zero⟩
    rw [same]
    exact ⟨rfl, rfl⟩
  · rintro ⟨single, zero⟩
    obtain ⟨x, tab⟩ := List.length_eq_one_iff.mp single
    have limb : x = 0 := by simpa [JSBigInt.limb, tab] using zero
    rw [JSBigInt.value, tab, limb, signed_singleton]
    exact BitVec.toInt_zero

/-- The number of limbs that are made for `len` bytes; for no byte `len - 1` wraps around. -/
def madeLimbs (bits : LimbBits) (len : Nat) : Nat := (len + 2^32 - 1) % 2^32 / bits.bytes + 1

theorem madeLimbs_zero : maxSize bits.width < madeLimbs bits 0 := by
  cases bits <;> decide

theorem limbs_division (bits : LimbBits) {len : Nat} (nonzero : len ≠ 0) :
    (len - 1) / bits.bytes + 1 = len / bits.bytes + if len % bits.bytes = 0 then 0 else 1 := by
  have bytes : bits.bytes = 4 ∨ bits.bytes = 8 := by cases bits <;> decide
  obtain four | eight := bytes
  · rw [four]
    split <;> omega
  · rw [eight]
    split <;> omega

/-- A value that is read has no more limbs than `js_bigint_new` makes. -/
theorem jsReadBigInt_length {s t : BCReaderState} {len : Nat} {leb rest : List UInt8}
    {tab : List Nat} (layout : s.ctx.layout.limbBytes = bits.bytes)
    (input : s.rest = leb ++ rest) (length : Consumes bcGetLeb128 leb len) (small : len < 2^32)
    (read : Reads jsReadBigInt s (.bigInt tab) t) :
    tab.length = madeLimbs bits len ∧ tab.length ≤ maxSize bits.width := by
  obtain ⟨len', u, lenRun, fits, read⟩ := (reads_jsReadBigInt layout).mp read
  obtain ⟨rfl, rfl⟩ := lenRun.functional (length s rest input)
  unfold readLimbs at read
  obtain ⟨limbs, _, limbsRun, read⟩ := reads_bind.mp read
  have count := readN_length limbsRun
  have bytes : 0 < bits.bytes := by cases bits <;> decide
  have nonzero : len' ≠ 0 := by
    rintro rfl
    exact absurd fits (Nat.not_le_of_lt madeLimbs_zero)
  have made : (len' + 2^32 - 1) % 2^32 = len' - 1 := by omega
  have total : tab.length = (len' - 1) / bits.bytes + 1 := by
    split at read
    · next incomplete =>
      obtain ⟨last, _, -, stop⟩ := reads_bind.mp read
      obtain ⟨same, -⟩ := reads_pure.mp stop
      rw [BCValue.bigInt.inj same, List.length_append, count, List.length_singleton]
      rw [limbs_division bits nonzero, if_neg incomplete]
    · next whole =>
      obtain ⟨same, -⟩ := reads_pure.mp read
      rw [BCValue.bigInt.inj same, count, limbs_division bits nonzero, if_pos (not_not.mp whole),
        Nat.add_zero]
  rw [madeLimbs, made]
  rw [made] at fits
  exact ⟨total, total.trans_le fits⟩

/-- The state of a reader on a machine with such limbs, with `input` ahead -/
def readerAt (bits : LimbBits) (s : BCReaderState) (input : List UInt8) : BCReaderState :=
  { s with
    rest := input
    ctx := { s.ctx with layout := { s.ctx.layout with limbBytes := bits.bytes } } }

/-- A written value is read back from exactly the bytes written for it, unless it is zero or
longer than the limbs that `js_bigint_new` makes. -/
theorem jsReadBigInt_jsWriteBigInt (bits : LimbBits) (p : NormalBigInt bits.width)
    (s : BCReaderState) (rest : List UInt8) :
    ∃ payload, jsWriteBigInt bits p.toJSBigInt = UInt8.ofNat BCTag.bigInt.number :: payload ∧
      (Reads jsReadBigInt (readerAt bits s (payload ++ rest)) (.bigInt (p.tab.map BitVec.toNat))
          { readerAt bits s rest with pos := s.pos + payload.length } ↔
        p.value ≠ 0 ∧ p.len ≤ maxSize bits.width) := by
  refine ⟨_, rfl, ?_⟩
  have small : writtenLen bits p.toJSBigInt < 2^32 := by
    rw [writtenLen]
    split
    · decide
    · exact Nat.mod_lt _ (by decide)
  have leb := consumes_bcGetLeb128 small
  constructor
  · intro read
    rw [List.append_assoc] at read
    obtain ⟨made, fits⟩ := jsReadBigInt_length rfl rfl leb small read
    refine ⟨fun zero => ?_, ?_⟩
    · rw [writtenLen, if_pos ((value_eq_zero_iff p).mp zero)] at made
      have large : maxSize bits.width < madeLimbs bits 0 := madeLimbs_zero
      omega
    · rw [List.length_map] at fits
      exact fits
  · rintro ⟨nonzero, fits⟩
    have positive : 0 < p.len := List.length_pos_of_ne_nil p.normal.nonempty
    have part := signBytes_le (p.limb (p.len - 1)) (bits.bytes - 1)
    obtain ⟨inside, made, -, -⟩ := writtenLen_div positive fits part
    have length : writtenLen bits p.toJSBigInt =
        p.len * bits.bytes - signBytes (p.limb (p.len - 1)) (bits.bytes - 1) := by
      rw [writtenLen, if_neg fun zero => nonzero ((value_eq_zero_iff p).mpr zero), inside]
    have limbs := consumes_writtenLimbs positive fits length
    rw [reads_jsReadBigInt rfl]
    refine ⟨_, _, leb _ (writtenLimbs bits p.toJSBigInt _ ++ rest) (List.append_assoc _ _ _), ?_, ?_⟩
    · rw [length, made]
      exact fits
    · rw [List.length_append, ← Nat.add_assoc]
      exact limbs _ rest rfl

/-- `0n` is written as a length of zero, for which too many limbs are asked. -/
theorem writtenZero_unread :
    jsWriteBigInt .bits64 ⟨[0#64]⟩ = [10, 0] ∧
      ¬∃ tab t, Reads jsReadBigInt
        (readerAt .bits64 (initReader freshContext [] ⟨false, false⟩) [0]) (.bigInt tab) t := by
  refine ⟨by decide, ?_⟩
  rintro ⟨tab, t, read⟩
  have leb : Consumes bcGetLeb128 (dbufPutLeb128 0) 0 := consumes_bcGetLeb128 (by decide)
  obtain ⟨made, fits⟩ := jsReadBigInt_length rfl (List.append_nil [0]).symm leb (by decide) read
  have large : maxSize LimbBits.bits64.width < madeLimbs .bits64 0 := madeLimbs_zero
  omega

end PrimJs.BigInt
