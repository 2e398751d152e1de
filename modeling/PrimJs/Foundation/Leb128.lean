import Mathlib.Tactic
import Mathlib.Algebra.Order.Ring.Nat
import Mathlib.Tactic.Ring

/-! Numbers as groups of seven bits, the lowest first, in bytes whose high bit says that more
follow. -/

namespace PrimJs.Leb128

/-- At most `n` bytes -/
def put : Nat → Nat → List UInt8
  | 0, _ => []
  | n + 1, v =>
      if v / 128 ≠ 0 then UInt8.ofNat (v % 128 + 128) :: put n (v / 128)
      else [UInt8.ofNat (v % 128)]

/-- At most `n` bytes, read into `bits` bits above the `i` groups of `v` -/
def get (bits : Nat) : Nat → Nat → Nat → List UInt8 → Option (Nat × List UInt8)
  | 0, _, _, _ => none
  | _ + 1, _, _, [] => none
  | n + 1, i, v, a :: rest =>
      if a.toNat < 128 then some ((v + a.toNat * 2^(i * 7)) % 2^bits, rest)
      else get bits n (i + 1) ((v + (a.toNat - 128) * 2^(i * 7)) % 2^bits) rest

theorem split_group (v i : Nat) :
    v * 2^(i * 7) = v % 128 * 2^(i * 7) + v / 128 * 2^((i + 1) * 7) := by
  calc v * 2^(i * 7) = (v % 128 + 128 * (v / 128)) * 2^(i * 7) := by rw [Nat.mod_add_div]
    _ = v % 128 * 2^(i * 7) + v / 128 * 2^((i + 1) * 7) := by ring

theorem get_put (bits n i v value : Nat) (rest : List UInt8) (positive : 0 < n)
    (enough : value < 2^(7 * n)) (fits : v + value * 2^(i * 7) < 2^bits) :
    get bits n i v (put n value ++ rest) = some (v + value * 2^(i * 7), rest) := by
  induction n generalizing i v value with
  | zero => exact absurd positive (lt_irrefl 0)
  | succ n ih =>
      by_cases more : value / 128 ≠ 0
      · have byte : (UInt8.ofNat (value % 128 + 128)).toNat = value % 128 + 128 := by
          rw [UInt8.toNat_ofNat']
          omega
        have split := split_group value i
        have power : 2^(7 * (n + 1)) = 128 * 2^(7 * n) := by ring
        have small : value / 128 < 2^(7 * n) := by
          apply Nat.div_lt_of_lt_mul
          rw [← power]
          exact enough
        have groups : 0 < n := by
          apply Nat.pos_of_ne_zero
          intro none_
          rw [none_, Nat.mul_zero, pow_zero] at small
          omega
        have low : v + value % 128 * 2^(i * 7) < 2^bits := by omega
        have next := ih (i + 1) (v + value % 128 * 2^(i * 7)) (value / 128) groups small (by omega)
        rw [put, if_pos more, List.cons_append, get, byte, if_neg (by omega), Nat.add_sub_cancel,
          Nat.mod_eq_of_lt low, next, Nat.add_assoc, ← split]
      · have byte : (UInt8.ofNat (value % 128)).toNat = value := by
          rw [UInt8.toNat_ofNat']
          omega
        rw [put, if_neg more, List.singleton_append, get, byte, if_pos (by omega),
          Nat.mod_eq_of_lt fits]

theorem xor_ones {w x : Nat} (small : x < 2^w) : x ^^^ (2^w - 1) = 2^w - 1 - x := by
  have value : (BitVec.ofNat w x).toNat = x := by
    rw [BitVec.toNat_ofNat, Nat.mod_eq_of_lt small]
  calc x ^^^ (2^w - 1) = (BitVec.ofNat w x ^^^ BitVec.allOnes w).toNat := by
        rw [BitVec.toNat_xor, BitVec.toNat_allOnes, value]
    _ = 2^w - 1 - x := by rw [BitVec.xor_allOnes, BitVec.toNat_not, value]

def zigzag (w : Nat) (v : Nat) : Nat := (2 * v) % 2^w ^^^ (if v / 2^(w - 1) = 1 then 2^w - 1 else 0)

def unzigzag (w : Nat) (v : Nat) : Nat := v / 2 ^^^ (if v % 2 = 1 then 2^w - 1 else 0)

theorem zigzag_lt {w v : Nat} : zigzag w v < 2^w := by
  apply Nat.xor_lt_two_pow (Nat.mod_lt _ (Nat.two_pow_pos w))
  have positive := Nat.two_pow_pos w
  split <;> omega

theorem unzigzag_zigzag {w v : Nat} (positive : 0 < w) (small : v < 2^w) :
    unzigzag w (zigzag w v) = v := by
  obtain ⟨n, rfl⟩ : ∃ n, w = n + 1 := ⟨w - 1, by omega⟩
  have double : 2^(n + 1) = 2 * 2^n := by ring
  by_cases negative : v / 2^n = 1
  · have high : 2^n ≤ v := by
      apply Nat.le_of_not_lt
      intro low
      rw [Nat.div_eq_of_lt low] at negative
      exact absurd negative (by decide)
    have shifted : (2 * v) % 2^(n + 1) = 2 * v - 2^(n + 1) := by
      rw [Nat.mod_eq_sub_mod (by omega), Nat.mod_eq_of_lt (by omega)]
    have encoded : zigzag (n + 1) v = 2^(n + 1) - 1 - (2 * v - 2^(n + 1)) := by
      rw [zigzag, Nat.add_sub_cancel, if_pos negative, shifted, xor_ones (by omega)]
    rw [unzigzag, encoded, if_pos (by omega), xor_ones (by omega)]
    omega
  · have low : v < 2^n := by
      apply Nat.lt_of_not_le
      intro high
      have one : v / 2^n = 1 := Nat.div_eq_of_lt_le (by omega) (by omega)
      exact negative one
    have encoded : zigzag (n + 1) v = 2 * v := by
      rw [zigzag, Nat.add_sub_cancel, if_neg negative, Nat.xor_zero, Nat.mod_eq_of_lt (by omega)]
    rw [unzigzag, encoded, if_neg (by omega), Nat.xor_zero]
    omega

end PrimJs.Leb128
