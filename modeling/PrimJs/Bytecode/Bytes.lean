import Mathlib.Data.List.Basic
import PrimJs.Foundation.Leb128

namespace PrimJs

def byteAt (buf : List UInt8) (pos : Nat) : Nat := (buf[pos]?.map UInt8.toNat).getD 0

def getU8 (buf : List UInt8) (pos : Nat) : Nat := byteAt buf pos

def getU16 (buf : List UInt8) (pos : Nat) : Nat := byteAt buf pos + 256 * byteAt buf (pos + 1)

def getU32 (buf : List UInt8) (pos : Nat) : Nat := getU16 buf pos + 65536 * getU16 buf (pos + 2)

def getU64 (buf : List UInt8) (pos : Nat) : Nat := getU32 buf pos + 2^32 * getU32 buf (pos + 4)

def toInt8 (v : Nat) : Int := if v % 2^8 < 2^7 then (v % 2^8 : Nat) else (v % 2^8 : Nat) - 2^8

def toInt16 (v : Nat) : Int := if v % 2^16 < 2^15 then (v % 2^16 : Nat) else (v % 2^16 : Nat) - 2^16

def toInt32 (v : Nat) : Int := if v % 2^32 < 2^31 then (v % 2^32 : Nat) else (v % 2^32 : Nat) - 2^32

def ofInt32 (v : Int) : Nat := (v % 2^32).toNat

def putU8 (buf : List UInt8) (pos v : Nat) : List UInt8 := buf.set pos (UInt8.ofNat v)

def putU16 (buf : List UInt8) (pos v : Nat) : List UInt8 :=
  putU8 (putU8 buf pos v) (pos + 1) (v / 256)

def putU32 (buf : List UInt8) (pos v : Nat) : List UInt8 :=
  putU16 (putU16 buf pos v) (pos + 2) (v / 65536)

def u16Bytes (v : Nat) : List UInt8 := [UInt8.ofNat v, UInt8.ofNat (v / 256)]

def u32Bytes (v : Nat) : List UInt8 := u16Bytes v ++ u16Bytes (v / 65536)

def u64Bytes (v : Nat) : List UInt8 := u32Bytes v ++ u32Bytes (v / 2^32)

section

variable (buf : List UInt8) (pos : Nat)

theorem byteAt_lt : byteAt buf pos < 256 := by
  unfold byteAt
  cases buf[pos]? with
  | none => simp
  | some b => simpa using b.toNat_lt

theorem getU16_lt : getU16 buf pos < 2^16 := by
  have low := byteAt_lt buf pos
  have high := byteAt_lt buf (pos + 1)
  unfold getU16
  omega

theorem getU32_lt : getU32 buf pos < 2^32 := by
  have low := getU16_lt buf pos
  have high := getU16_lt buf (pos + 2)
  unfold getU32
  omega

end

variable {pos : Nat} {buf : List UInt8}

section

variable (buf : List UInt8) (pos v : Nat)

@[simp] theorem putU8_length : (putU8 buf pos v).length = buf.length := List.length_set

@[simp] theorem putU16_length : (putU16 buf pos v).length = buf.length := by
  simp [putU16]

@[simp] theorem putU32_length : (putU32 buf pos v).length = buf.length := by
  simp [putU32]

end

theorem byteAt_putU8_same (bound : pos < buf.length) (v : Nat) :
    byteAt (putU8 buf pos v) pos = v % 256 := by
  simp [byteAt, putU8, bound]

theorem byteAt_putU8_ne {at_ : Nat} (distinct : at_ ≠ pos) (v : Nat) :
    byteAt (putU8 buf pos v) at_ = byteAt buf at_ := by
  simp [byteAt, putU8, List.getElem?_set_ne distinct.symm]

theorem byteAt_putU16_outside {at_ : Nat} (outside : at_ < pos ∨ pos + 2 ≤ at_) (v : Nat) :
    byteAt (putU16 buf pos v) at_ = byteAt buf at_ := by
  rw [putU16, byteAt_putU8_ne (by omega), byteAt_putU8_ne (by omega)]

theorem byteAt_putU32_outside {at_ : Nat} (outside : at_ < pos ∨ pos + 4 ≤ at_) (v : Nat) :
    byteAt (putU32 buf pos v) at_ = byteAt buf at_ := by
  rw [putU32, byteAt_putU16_outside (by omega), byteAt_putU16_outside (by omega)]

theorem getU16_congr {a b : List UInt8}
    (same : ∀ i, pos ≤ i → i < pos + 2 → byteAt a i = byteAt b i) :
    getU16 a pos = getU16 b pos := by
  rw [getU16, getU16, same pos (by omega) (by omega), same (pos + 1) (by omega) (by omega)]

theorem getU32_congr {a b : List UInt8}
    (same : ∀ i, pos ≤ i → i < pos + 4 → byteAt a i = byteAt b i) :
    getU32 a pos = getU32 b pos := by
  rw [getU32, getU32, getU16_congr fun i low high => same i low (by omega),
    getU16_congr fun i low high => same i (by omega) (by omega)]

theorem getU16_putU16_mod (bound : pos + 2 ≤ buf.length) (v : Nat) :
    getU16 (putU16 buf pos v) pos = v % 2^16 := by
  have low : byteAt (putU16 buf pos v) pos = v % 256 := by
    rw [putU16, byteAt_putU8_ne (by omega), byteAt_putU8_same (by omega)]
  have high : byteAt (putU16 buf pos v) (pos + 1) = v / 256 % 256 := by
    rw [putU16, byteAt_putU8_same (by rw [putU8_length]; omega)]
  rw [getU16, low, high]
  omega

variable {v : Nat}

theorem getU16_putU16 (bound : pos + 2 ≤ buf.length) (small : v < 2^16) :
    getU16 (putU16 buf pos v) pos = v := by
  rw [getU16_putU16_mod bound, Nat.mod_eq_of_lt small]

theorem getU32_putU32 (bound : pos + 4 ≤ buf.length) (small : v < 2^32) :
    getU32 (putU32 buf pos v) pos = v := by
  have low : getU16 (putU32 buf pos v) pos = v % 2^16 := by
    rw [← getU16_putU16_mod (by omega : pos + 2 ≤ buf.length) v]
    exact getU16_congr fun i _ below => byteAt_putU16_outside (by omega) (v / 65536)
  have high : getU16 (putU32 buf pos v) (pos + 2) = v / 65536 :=
    getU16_putU16 (by rw [putU16_length]; omega) (by omega)
  rw [getU32, low, high]
  omega

@[simp] theorem u16Bytes_length (v : Nat) : (u16Bytes v).length = 2 := rfl

@[simp] theorem u32Bytes_length (v : Nat) : (u32Bytes v).length = 4 := rfl

@[simp] theorem u64Bytes_length (v : Nat) : (u64Bytes v).length = 8 := rfl

theorem byteAt_cons_zero (b : UInt8) (buf : List UInt8) : byteAt (b :: buf) 0 = b.toNat := rfl

theorem byteAt_cons_succ (b : UInt8) (buf : List UInt8) (pos : Nat) :
    byteAt (b :: buf) (pos + 1) = byteAt buf pos := by
  simp [byteAt]

theorem byteAt_append_right {a b : List UInt8} (bound : a.length ≤ pos) :
    byteAt (a ++ b) pos = byteAt b (pos - a.length) := by
  simp [byteAt, List.getElem?_append_right bound]

theorem getU16_u16Bytes (small : v < 2^16) (rest : List UInt8) :
    getU16 (u16Bytes v ++ rest) 0 = v := by
  simp only [getU16, u16Bytes, List.cons_append, List.nil_append, byteAt_cons_zero,
    byteAt_cons_succ, UInt8.toNat_ofNat']
  omega

theorem getU32_u32Bytes (small : v < 2^32) (rest : List UInt8) :
    getU32 (u32Bytes v ++ rest) 0 = v := by
  simp only [getU32, getU16, u32Bytes, u16Bytes, List.cons_append, List.nil_append,
    byteAt_cons_zero, byteAt_cons_succ, UInt8.toNat_ofNat']
  omega

theorem getU64_u64Bytes (small : v < 2^64) (rest : List UInt8) :
    getU64 (u64Bytes v ++ rest) 0 = v := by
  have low : getU32 (u64Bytes v ++ rest) 0 = v % 2^32 := by
    simp only [getU32, getU16, u64Bytes, u32Bytes, u16Bytes, List.cons_append, List.nil_append,
      byteAt_cons_zero, byteAt_cons_succ, UInt8.toNat_ofNat']
    omega
  have high : getU32 (u64Bytes v ++ rest) 4 = v / 2^32 := by
    simp only [getU32, getU16, u64Bytes, u32Bytes, u16Bytes, List.cons_append, List.nil_append,
      byteAt_cons_zero, byteAt_cons_succ, UInt8.toNat_ofNat']
    omega
  rw [getU64, low, high]
  omega

/-- `dbuf_put_leb128`; the loop ends after five bytes for a 32-bit value. -/
def putLeb128Loop : Nat → Nat → List UInt8
  | 0, _ => []
  | fuel + 1, v =>
      if v / 128 ≠ 0 then UInt8.ofNat (v % 128 + 128) :: putLeb128Loop fuel (v / 128)
      else [UInt8.ofNat (v % 128)]

def dbufPutLeb128 (v : Nat) : List UInt8 := putLeb128Loop 5 (v % 2^32)

def dbufPutSleb128 (v : Int) : List UInt8 :=
  dbufPutLeb128 ((2 * ofInt32 v) % 2^32 ^^^ (if ofInt32 v ≥ 2^31 then 2^32 - 1 else 0))

/-- The groups of seven bits do not overlap, so `|=` adds them. -/
def getLeb128Loop : Nat → Nat → Nat → List UInt8 → Option (Nat × List UInt8)
  | 0, _, _, _ => none
  | _ + 1, _, _, [] => none
  | fuel + 1, i, v, a :: rest =>
      if a.toNat < 128 then some ((v + a.toNat * 2^(i * 7)) % 2^32, rest)
      else getLeb128Loop fuel (i + 1) ((v + (a.toNat - 128) * 2^(i * 7)) % 2^32) rest

def getLeb128 (buf : List UInt8) : Option (Nat × List UInt8) := getLeb128Loop 5 0 0 buf

def sleb128Value (v : Nat) : Int := toInt32 (v / 2 ^^^ (if v % 2 = 1 then 2^32 - 1 else 0))

theorem putLeb128Loop_eq_put (fuel v : Nat) : putLeb128Loop fuel v = Leb128.put fuel v := by
  induction fuel generalizing v with
  | zero => rfl
  | succ fuel ih => rw [putLeb128Loop, Leb128.put, ih]

theorem getLeb128Loop_eq_get (fuel i v : Nat) (buf : List UInt8) :
    getLeb128Loop fuel i v buf = Leb128.get 32 fuel i v buf := by
  induction fuel generalizing i v buf with
  | zero => rfl
  | succ fuel ih =>
      cases buf with
      | nil => rfl
      | cons a rest => rw [getLeb128Loop, Leb128.get, ih]

theorem getLeb128_put (small : v < 2^32) (rest : List UInt8) :
    getLeb128 (dbufPutLeb128 v ++ rest) = some (v, rest) := by
  have run := Leb128.get_put 32 5 0 0 v rest (by decide) (by omega) (by omega)
  rw [getLeb128, dbufPutLeb128, Nat.mod_eq_of_lt small, putLeb128Loop_eq_put,
    getLeb128Loop_eq_get, run]
  simp

end PrimJs
