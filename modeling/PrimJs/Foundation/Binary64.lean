import Mathlib.Tactic
import Mathlib.Algebra.Order.Field.Rat
import Mathlib.Algebra.Order.Ring.Abs
import Mathlib.Data.Nat.Log
import Mathlib.Order.Monotone.Basic
import Mathlib.Order.WithBot
import Mathlib.Tactic.Linarith
import Mathlib.Tactic.Ring

/-! Floating-point numbers of 64 bits as bit patterns.

Magnitudes are counted in units of `2^-1074`, the smallest positive number, so every finite
pattern stands for an integer number of units. -/

namespace PrimJs.Binary64

section Rounding

variable {n d q q' m : Nat}

/-- `q` is the nearest quotient, ties to even. -/
structure Rounds (n d q : Nat) : Prop where
  near : 2 * |(n : Int) - q * d| ≤ d
  tie : 2 * |(n : Int) - q * d| = d → Even q

def divEven (n d : Nat) : Nat :=
  if 2 * (n % d) < d then n / d
  else if d < 2 * (n % d) then n / d + 1
  else n / d + n / d % 2

theorem rounds_iff : Rounds n d q ↔ 2 * q * d ≤ 2 * n + d ∧ 2 * n ≤ 2 * q * d + d
    ∧ (2 * q * d = 2 * n + d ∨ 2 * n = 2 * q * d + d → Even q) := by
  have product : ((q * d : Nat) : Int) = (q : Int) * d := by push_cast; rfl
  rw [mul_assoc]
  generalize q * d = p at product
  constructor
  · intro rounds
    have near := rounds.near
    rw [← product] at near
    refine ⟨?_, ?_, fun tie => rounds.tie ?_⟩
    · have := neg_abs_le ((n : Int) - p); omega
    · have := le_abs_self ((n : Int) - p); omega
    · rw [← product]
      rcases tie with tie | tie
      · rw [abs_of_nonpos (by omega)]; omega
      · rw [abs_of_nonneg (by omega)]; omega
  · rintro ⟨low, high, tie⟩
    refine ⟨?_, fun same => tie ?_⟩
    · rw [← product]
      rcases abs_cases ((n : Int) - p) with ⟨same, -⟩ | ⟨same, -⟩ <;> omega
    · rw [← product] at same
      rcases abs_cases ((n : Int) - p) with ⟨same', -⟩ | ⟨same', -⟩ <;> omega

theorem divEven_rounds (n : Nat) (positive : 0 < d) : Rounds n d (divEven n d) := by
  have split_ : n / d * d + n % d = n := Nat.div_add_mod' n d
  have bound := Nat.mod_lt n positive
  have next (q : Nat) : 2 * (q + 1) * d = 2 * (q * d) + 2 * d := by ring
  rw [rounds_iff, divEven]
  by_cases low : 2 * (n % d) < d
  · rw [if_pos low, mul_assoc]
    omega
  · rw [if_neg low]
    by_cases high : d < 2 * (n % d)
    · rw [if_pos high, next]
      omega
    · rw [if_neg high]
      rcases Nat.mod_two_eq_zero_or_one (n / d) with even | odd
      · rw [even, Nat.add_zero, mul_assoc]
        exact ⟨by omega, by omega, fun _ => Nat.even_iff.mpr even⟩
      · rw [odd, next]
        exact ⟨by omega, by omega, fun _ => Nat.even_iff.mpr (by omega)⟩

theorem gap_eq (n d q q' : Nat) :
    |(q' : Int) - q| * d = |((n : Int) - q * d) - (n - q' * d)| := by
  rw [show ((n : Int) - q * d) - (n - q' * d) = (q' - q) * d by ring, abs_mul,
    abs_of_nonneg (show (0 : Int) ≤ d by positivity)]

/-- Two multiples of `d` are at least `d` apart. -/
theorem apart (n d : Nat) (different : q ≠ q') :
    (d : Int) ≤ |(n : Int) - q * d| + |(n : Int) - q' * d| := by
  have gap : (1 : Int) ≤ |(q' : Int) - q| := Int.one_le_abs (by omega)
  calc
    (d : Int) = 1 * d := (one_mul _).symm
    _ ≤ |(q' : Int) - q| * d := mul_le_mul_of_nonneg_right gap (by positivity)
    _ = |((n : Int) - q * d) - (n - q' * d)| := gap_eq n d q q'
    _ ≤ _ := abs_sub _ _

theorem Rounds.nearest (rounds : Rounds n d q) (q' : Nat) :
    |(n : Int) - q * d| ≤ |(n : Int) - q' * d| := by
  by_cases same : q = q'
  · rw [same]
  · have gap := apart n d same
    have near := rounds.near
    omega

theorem Rounds.even (rounds : Rounds n d q) (different : q ≠ q')
    (same : |(n : Int) - q * d| = |(n : Int) - q' * d|) : Even q := by
  have gap := apart n d different
  have near := rounds.near
  exact rounds.tie (by omega)

theorem Rounds.scale {c : Nat} (positive : 0 < c) :
    Rounds (n * c) (d * c) q ↔ Rounds n d q := by
  have le (a b : Nat) : a * c ≤ b * c ↔ a ≤ b := Nat.mul_le_mul_right_iff positive
  have eq (a b : Nat) : a * c = b * c ↔ a = b := Nat.mul_left_inj (by omega)
  have left : 2 * q * (d * c) = (2 * q * d) * c := by ring
  have right : 2 * (n * c) + d * c = (2 * n + d) * c := by ring
  have high : 2 * (n * c) = (2 * n) * c := by ring
  have sum : 2 * q * d * c + d * c = (2 * q * d + d) * c := by ring
  rw [rounds_iff, rounds_iff, left, right, high, sum, le, le, eq, eq]

/-- `m` is the quotient, its last bit set whenever the division is not exact. -/
def Jammed (n d m : Nat) : Prop :=
  m * d = n ∨ ∃ k, m = 2 * k + 1 ∧ 2 * k * d < n ∧ n < (2 * k + 2) * d

theorem or_one (q : Nat) : q ||| 1 = 2 * (q / 2) + 1 := by
  have last : (q ||| 1) % 2 = 1 := Nat.or_mod_two_eq_one.mpr (.inr rfl)
  have rest : (q ||| 1) / 2 = q / 2 := by
    rw [Nat.or_div_two]
    exact Nat.or_zero _
  omega

theorem jammed_div (n : Nat) (positive : 0 < d) :
    Jammed n d (n / d ||| (decide (n % d ≠ 0)).toNat) := by
  have split_ : n / d * d + n % d = n := Nat.div_add_mod' n d
  have bound := Nat.mod_lt n positive
  by_cases exact_ : n % d = 0
  · left
    simp only [exact_, ne_eq, not_true_eq_false, decide_false, Bool.toNat_false, Nat.or_zero]
    omega
  · right
    refine ⟨n / d / 2, ?_, ?_, ?_⟩
    · simp only [exact_, ne_eq, not_false_eq_true, decide_true, Bool.toNat_true]
      exact or_one (n / d)
    · have := Nat.mul_le_mul_right d (show 2 * (n / d / 2) ≤ n / d by omega)
      omega
    · have := Nat.mul_le_mul_right d (show n / d + 1 ≤ 2 * (n / d / 2) + 2 by omega)
      rw [Nat.add_mul, Nat.one_mul] at this
      omega

section

variable (positive : 0 < d) (jam : Jammed n d m) {e : Nat} (even : Even e)

include positive jam even

/-- Even numbers are on the same side of the jammed quotient as of the exact one. -/
theorem Jammed.lt_iff : m < e ↔ n < e * d := by
  obtain ⟨k, rfl⟩ := even
  rcases jam with exact_ | ⟨j, rfl, low, high⟩
  · rw [← exact_]
    exact (Nat.mul_lt_mul_right positive).symm
  · constructor
    · intro less
      exact lt_of_lt_of_le high (Nat.mul_le_mul_right _ (by omega))
    · intro less
      have := Nat.lt_of_mul_lt_mul_right (low.trans less)
      omega

theorem Jammed.gt_iff : e < m ↔ e * d < n := by
  obtain ⟨k, rfl⟩ := even
  rcases jam with exact_ | ⟨j, rfl, low, high⟩
  · rw [← exact_]
    exact (Nat.mul_lt_mul_right positive).symm
  · constructor
    · intro more
      exact lt_of_le_of_lt (Nat.mul_le_mul_right _ (by omega)) low
    · intro more
      have := Nat.lt_of_mul_lt_mul_right (more.trans high)
      omega

theorem Jammed.eq_iff : m = e ↔ n = e * d := by
  have below := jam.lt_iff positive even
  have above := jam.gt_iff positive even
  omega

end

theorem Jammed.trans {c : Nat} (positive : 0 < d) (even : Even c) (first : Jammed n d m)
    (second : Jammed m c q) : Jammed n (c * d) q := by
  rw [Jammed]
  simp only [← mul_assoc]
  rcases second with exact_ | ⟨k, rfl, low, high⟩
  · exact .inl ((first.eq_iff positive (even.mul_left q)).mp exact_.symm).symm
  · exact .inr ⟨k, rfl, (first.gt_iff positive (even.mul_left _)).mp low,
      (first.lt_iff positive (even.mul_left _)).mp high⟩

theorem Jammed.scale {c : Nat} (positive : 0 < c) : Jammed (n * c) (d * c) m ↔ Jammed n d m := by
  have below (a : Nat) : a * d * c < n * c ↔ a * d < n := Nat.mul_lt_mul_right positive
  have above (a : Nat) : n * c < a * d * c ↔ n < a * d := Nat.mul_lt_mul_right positive
  have same : m * d * c = n * c ↔ m * d = n := Nat.mul_left_inj (by omega)
  simp only [Jammed, ← mul_assoc, below, above, same]

/-- The jammed quotient can be rounded in place of the exact one, at a multiple of four. -/
theorem Rounds.of_jammed {c : Nat} (positive : 0 < d) (jam : Jammed n d m)
    (rounds : Rounds m (4 * c) q) : Rounds n (4 * c * d) q := by
  obtain ⟨low, high, tie⟩ := rounds_iff.mp rounds
  -- `m` and `n` are on the same side of each place halfway between two quotients
  have side (p : Nat) : (m < 4 * (p * c) + 2 * c ↔ n < 4 * (p * c * d) + 2 * (c * d))
      ∧ (m = 4 * (p * c) + 2 * c ↔ n = 4 * (p * c * d) + 2 * (c * d)) := by
    have even : Even (4 * (p * c) + 2 * c) := ⟨2 * (p * c) + c, by ring⟩
    have place : (4 * (p * c) + 2 * c) * d = 4 * (p * c * d) + 2 * (c * d) := by ring
    exact ⟨by rw [jam.lt_iff positive even, place], by rw [jam.eq_iff positive even, place]⟩
  have product (p : Nat) : 2 * p * (4 * c) = 8 * (p * c) := by ring
  have product' (p : Nat) : 2 * p * (4 * c * d) = 8 * (p * c * d) := by ring
  have above := side q
  rw [product] at low high tie
  rw [rounds_iff, product', show 4 * c * d = 4 * (c * d) by ring]
  cases q with
  | zero =>
      refine ⟨by omega, by omega, fun _ => Even.zero⟩
  | succ q =>
      have below := side q
      have next : (q + 1) * c = q * c + c := Nat.succ_mul q c
      have next' : (q * c + c) * d = q * c * d + c * d := Nat.add_mul _ _ d
      rw [next] at low high tie above
      rw [next'] at above
      rw [next, next']
      exact ⟨by omega, by omega, fun tied => tie (by omega)⟩

end Rounding
section Magnitude

variable {m m' n q t : Nat}

def infinity : Nat := 2047 * 2^52

/-- The units of a pattern without its sign. Infinity counts as `2^1024`, the next number after
the largest finite one. -/
def magnitude (m : Nat) : Nat :=
  if m < 2^52 then m else (2^52 + m % 2^52) * 2^(m / 2^52 - 1)

/-- The patterns of one exponent, and the first of the next -/
theorem magnitude_binade (t : Nat) (low : 2^52 ≤ q) (high : q ≤ 2^53) :
    magnitude (t * 2^52 + q) = q * 2^t := by
  rw [magnitude, if_neg (by omega)]
  rcases Nat.lt_or_eq_of_le high with inside | rfl
  · have quotient : (t * 2^52 + q) / 2^52 = t + 1 := by omega
    have remainder : (t * 2^52 + q) % 2^52 = q - 2^52 := by omega
    rw [quotient, remainder, Nat.add_sub_cancel, Nat.add_sub_cancel' low]
  · have quotient : (t * 2^52 + 2^53) / 2^52 = t + 2 := by omega
    have remainder : (t * 2^52 + 2^53) % 2^52 = 0 := by omega
    rw [quotient, remainder, Nat.add_zero, show t + 2 - 1 = t + 1 from rfl, Nat.pow_succ 2 t]
    ring

theorem magnitude_strictMono : StrictMono magnitude := by
  apply strictMono_nat_of_lt_succ
  intro m
  rcases Nat.lt_or_ge m (2^52) with subnormal | normal
  · rcases Nat.lt_or_ge (m + 1) (2^52) with next | next
    · rw [magnitude, magnitude, if_pos subnormal, if_pos next]
      exact Nat.lt_succ_self m
    · obtain rfl : m = 2^52 - 1 := by omega
      decide
  · have split_ : m = (m / 2^52 - 1) * 2^52 + (2^52 + m % 2^52) := by omega
    have bound := Nat.mod_lt m (show 0 < 2^52 by decide)
    rw [split_, Nat.add_assoc, magnitude_binade _ (by omega) (by omega),
      magnitude_binade _ (by omega) (by omega)]
    exact Nat.mul_lt_mul_of_pos_right (Nat.lt_succ_self _) (Nat.two_pow_pos _)

/-- `m` is the pattern nearest to `n` units, ties to even. -/
structure NearestEven (n m : Nat) : Prop where
  bounded : m ≤ infinity
  nearest : ∀ m' ≤ infinity, |(n : Int) - magnitude m| ≤ |(n : Int) - magnitude m'|
  tie : ∀ m' ≤ infinity, m' ≠ m → |(n : Int) - magnitude m| = |(n : Int) - magnitude m'| → Even m

theorem nearestEven_magnitude (bounded : m ≤ infinity) : NearestEven (magnitude m) m where
  bounded := bounded
  nearest m' _ := by
    rw [sub_self, abs_zero]
    exact abs_nonneg _
  tie m' _ different same := by
    rw [sub_self, abs_zero, eq_comm, abs_eq_zero, sub_eq_zero] at same
    exact absurd (magnitude_strictMono.injective (by exact_mod_cast same.symm)) different

theorem nearestEven_infinity (large : magnitude infinity ≤ n) : NearestEven n infinity where
  bounded := le_refl infinity
  nearest m' bounded := by
    have below := magnitude_strictMono.monotone bounded
    rw [abs_of_nonneg (by omega), abs_of_nonneg (by omega)]
    omega
  tie m' bounded different same := by
    have below := magnitude_strictMono (Nat.lt_of_le_of_ne bounded different)
    rw [abs_of_nonneg (by omega), abs_of_nonneg (by omega)] at same
    omega

/-- No pattern is nearer than those of the exponent of `n`. -/
theorem clamp (low : 2^52 * 2^t ≤ n) (high : n < 2^53 * 2^t) (m' : Nat) :
    ∃ q', 2^52 ≤ q' ∧ q' ≤ 2^53 ∧ (m' = t * 2^52 + q' ∨
      |(n : Int) - (q' * 2^t : Nat)| < |(n : Int) - magnitude m'|) := by
  have first := magnitude_binade t (le_refl (2^52)) (by decide)
  have last := magnitude_binade t (show 2^52 ≤ 2^53 by decide) (le_refl _)
  rcases Nat.lt_or_ge m' (t * 2^52 + 2^52) with below | inside
  · have less := magnitude_strictMono below
    rw [first] at less
    refine ⟨2^52, le_refl _, by decide, .inr ?_⟩
    rw [abs_of_nonneg (by omega), abs_of_nonneg (by omega)]
    omega
  · rcases Nat.lt_or_ge (t * 2^52 + 2^53) m' with above | inside'
    · have more := magnitude_strictMono above
      rw [last] at more
      refine ⟨2^53, by decide, le_refl _, .inr ?_⟩
      rw [abs_of_nonpos (by omega), abs_of_nonpos (by omega)]
      omega
    · exact ⟨m' - t * 2^52, by omega, by omega, .inl (by omega)⟩

/-- Rounding within one exponent finds the nearest pattern of all. -/
theorem nearestEven_binade (low : 2^52 * 2^t ≤ n) (high : n < 2^53 * 2^t) (small : t ≤ 2045)
    (rounds : Rounds n (2^t) q) : 2^52 ≤ q ∧ q ≤ 2^53 ∧ NearestEven n (t * 2^52 + q) := by
  obtain ⟨near, near', -⟩ := rounds_iff.mp rounds
  have positive := Nat.two_pow_pos t
  have atLeast : 2^52 ≤ q := by
    have : (2 * 2^52) * 2^t < (2 * q + 2) * 2^t := by rw [Nat.add_mul, Nat.mul_assoc]; omega
    have := Nat.lt_of_mul_lt_mul_right this
    omega
  have atMost : q ≤ 2^53 := by
    have : (2 * q) * 2^t < (2 * 2^53 + 1) * 2^t := by
      rw [Nat.add_mul, Nat.mul_assoc 2 (2^53)]
      omega
    have := Nat.lt_of_mul_lt_mul_right this
    omega
  have own := magnitude_binade t atLeast atMost
  refine ⟨atLeast, atMost, ?_, ?_, ?_⟩
  · rw [infinity]
    omega
  · intro m' _
    obtain ⟨q', some_, fits, same | nearer⟩ := clamp low high m'
    · rw [same, own, magnitude_binade t some_ fits]
      exact_mod_cast rounds.nearest q'
    · rw [own]
      have nearest := rounds.nearest q'
      push_cast at nearest nearer ⊢
      exact nearest.trans nearer.le
  · intro m' _ different tied
    obtain ⟨q', some_, fits, same | nearer⟩ := clamp low high m'
    · rw [same, own, magnitude_binade t some_ fits] at tied
      have other : q ≠ q' := by omega
      have even := rounds.even other (by exact_mod_cast tied)
      exact (show Even (t * 2^52) from ⟨t * 2^51, by ring⟩).add even
    · rw [own] at tied
      have nearest := rounds.nearest q'
      push_cast at nearest nearer tied
      omega

theorem NearestEven.unique (left : NearestEven n m) (right : NearestEven n m') : m = m' := by
  -- of two different ones both would be even, with a nearer one between them
  have ordered {m m' : Nat} (left : NearestEven n m) (right : NearestEven n m') : ¬ m < m' := by
    intro less
    have same := le_antisymm (left.nearest m' right.bounded) (right.nearest m left.bounded)
    obtain ⟨k, even⟩ := left.tie m' right.bounded (by omega) same
    obtain ⟨k', even'⟩ := right.tie m left.bounded (by omega) same.symm
    have within := right.bounded
    have between := left.nearest (m + 1) (by omega)
    have above := magnitude_strictMono (show m < m + 1 by omega)
    have below := magnitude_strictMono (show m + 1 < m' by omega)
    rcases abs_cases ((n : Int) - magnitude m) with ⟨value, sign⟩ | ⟨value, sign⟩ <;>
      rcases abs_cases ((n : Int) - magnitude (m + 1)) with ⟨value', sign'⟩ | ⟨value', sign'⟩ <;>
      rcases abs_cases ((n : Int) - magnitude m') with ⟨value'', sign''⟩ | ⟨value'', sign''⟩ <;>
      omega
  have := ordered left right
  have := ordered right left
  omega

end Magnitude

section Pattern

/-- The number one in units of `2^-1074` -/
@[irreducible] def one : Nat := 2^1074

theorem pow_split {a b c : Nat} (sum : c = a + b) : 2^c = 2^a * 2^b := by
  rw [sum, Nat.pow_add]

theorem one_split {a b : Nat} (sum : 1074 = a + b) : one = 2^a * 2^b := by
  unfold one
  exact pow_split sum

theorem one_pos : 0 < one := by
  unfold one
  positivity

def exponent (b : BitVec 64) : Nat := b.toNat / 2^52 % 2^11

def fraction (b : BitVec 64) : Nat := b.toNat % 2^52

def isNaN (b : BitVec 64) : Bool := exponent b = 2047 ∧ fraction b ≠ 0

def isInfinite (b : BitVec 64) : Bool := exponent b = 2047 ∧ fraction b = 0

def isFinite (b : BitVec 64) : Bool := exponent b ≠ 2047

/-- The value of a finite pattern in units of `2^-1074` -/
def units (b : BitVec 64) : Int :=
  if b.msb then -(magnitude (b.toNat % 2^63) : Int) else magnitude (b.toNat % 2^63)

def toRat (b : BitVec 64) : ℚ := units b / one

section

variable (b : BitVec 64)

theorem pattern_eq : b.toNat % 2^63 = exponent b * 2^52 + fraction b := by
  rw [exponent, fraction]
  omega

theorem exponent_lt : exponent b < 2^11 := Nat.mod_lt _ (by decide)

theorem fraction_lt : fraction b < 2^52 := Nat.mod_lt _ (by decide)

theorem magnitude_normal (normal : exponent b ≠ 0) :
    magnitude (b.toNat % 2^63) = (2^52 + fraction b) * 2^(exponent b - 1) := by
  have fraction := fraction_lt b
  have split_ : b.toNat % 2^63 = (exponent b - 1) * 2^52 + (2^52 + Binary64.fraction b) := by
    rw [pattern_eq]
    omega
  rw [split_, magnitude_binade _ (by omega) (by omega)]

theorem magnitude_subnormal (subnormal : exponent b = 0) :
    magnitude (b.toNat % 2^63) = fraction b := by
  rw [pattern_eq, subnormal, Nat.zero_mul, Nat.zero_add, magnitude, if_pos (fraction_lt b)]

end

theorem toRat_eq (x : Int) (b : BitVec 64) : toRat b = x ↔ units b = x * one := by
  have positive : (0 : ℚ) < one := by exact_mod_cast one_pos
  rw [toRat, div_eq_iff positive.ne']
  exact_mod_cast Iff.rfl

/-- `b` is the double nearest to `x`, ties to even, infinity beyond the largest finite one. -/
structure NearestTo (x : Int) (b : BitVec 64) : Prop where
  sign : b.msb = decide (x < 0)
  nearest : NearestEven (x.natAbs * one) (b.toNat % 2^63)

/-- The pattern of `n` without the sign, for the exponent `2^e ≤ n < 2^(e + 1)` -/
def ofNatAt (n e : Nat) : Nat :=
  if e ≤ 1023 then (e + 1022) * 2^52 + divEven (n * one) (2^(e + 1022)) else infinity

def ofInt (x : Int) : BitVec 64 :=
  let m := if x = 0 then 0 else ofNatAt x.natAbs x.natAbs.log2
  BitVec.ofNat 64 ((if x < 0 then 2^63 else 0) + m)

/-- The bounds of the numbers of exponent `e`, in units -/
theorem binade_low (e : Nat) : 2^52 * 2^(e + 1022) = 2^e * one := by
  rw [one_split (show 1074 = 52 + 1022 from rfl), pow_split (rfl : e + 1022 = e + 1022)]
  generalize 2^1022 = unit
  ring

theorem binade_high (e : Nat) : 2^53 * 2^(e + 1022) = 2^(e + 1) * one := by
  rw [Nat.pow_succ 2 52, Nat.mul_right_comm, binade_low, Nat.pow_succ 2 e, Nat.mul_right_comm]

theorem nearestEven_at {n e q : Nat} (low : 2^e ≤ n) (high : n < 2^(e + 1)) (small : e ≤ 1023)
    (rounds : Rounds (n * one) (2^(e + 1022)) q) :
    2^52 ≤ q ∧ q ≤ 2^53 ∧ NearestEven (n * one) ((e + 1022) * 2^52 + q) := by
  apply nearestEven_binade _ _ (by omega) rounds
  · rw [binade_low]
    exact Nat.mul_le_mul_right _ low
  · rw [binade_high]
    exact Nat.mul_lt_mul_of_pos_right high one_pos

theorem magnitude_infinity : magnitude infinity = 2^(1023 + 1) * one := by
  rw [show infinity = (1023 + 1022) * 2^52 + 2^53 from rfl,
    magnitude_binade _ (by decide) (le_refl _), binade_high]

theorem nearestEven_large {n e : Nat} (low : 2^e ≤ n) (large : 1023 < e) :
    NearestEven (n * one) infinity := by
  apply nearestEven_infinity
  have wide : 2^(1023 + 1) ≤ 2^e := by gcongr <;> omega
  rw [magnitude_infinity]
  exact Nat.mul_le_mul_right _ (wide.trans low)

/-- Rounding with 11 bits to spare, in units -/
theorem rounds_units {n e q : Nat} (rounds : Rounds (n * 2^63) (2^11 * 2^e) q) :
    Rounds (n * one) (2^(e + 1022)) q := by
  have unit : one = 2^63 * 2^1011 := one_split rfl
  have bits : 2^(e + 1022) = 2^11 * 2^e * 2^1011 := by
    rw [pow_split (show e + 1022 = 11 + e + 1011 by omega), pow_split (show 11 + e = 11 + e from rfl)]
  have pos : 0 < 2^1011 := by positivity
  generalize 2^1011 = c at unit bits pos
  rw [unit, bits, ← Nat.mul_assoc]
  exact (Rounds.scale pos).mpr rounds

/-- A pattern with its sign -/
theorem nearestTo_of_pattern {x : Int} {m : Nat}
    (nearest : NearestEven (x.natAbs * one) m) :
    NearestTo x (BitVec.ofNat 64 ((if x < 0 then 2^63 else 0) + m)) := by
  have bounded : m < 2^63 := lt_of_le_of_lt nearest.bounded (by decide)
  by_cases below : x < 0
  · rw [if_pos below]
    constructor
    · simp only [BitVec.msb_eq_decide, BitVec.toNat_ofNat, below, decide_true, decide_eq_true_eq]
      omega
    · rw [BitVec.toNat_ofNat, show (2^63 + m) % 2^64 % 2^63 = m by omega]
      exact nearest
  · rw [if_neg below]
    constructor
    · simp only [BitVec.msb_eq_decide, BitVec.toNat_ofNat, below, decide_false,
        decide_eq_false_iff_not]
      omega
    · rw [BitVec.toNat_ofNat, show (0 + m) % 2^64 % 2^63 = m by omega]
      exact nearest

theorem ofInt_nearest (x : Int) : NearestTo x (ofInt x) := by
  apply nearestTo_of_pattern
  by_cases zero : x = 0
  · rw [if_pos zero, zero, Int.natAbs_zero, Nat.zero_mul]
    exact nearestEven_magnitude (m := 0) (Nat.zero_le _)
  · rw [if_neg zero, ofNatAt]
    have nonzero : x.natAbs ≠ 0 := Int.natAbs_ne_zero.mpr zero
    have low := Nat.log2_self_le nonzero
    have high := Nat.lt_log2_self (n := x.natAbs)
    by_cases small : x.natAbs.log2 ≤ 1023
    · rw [if_pos small]
      exact (nearestEven_at low high small (divEven_rounds _ (Nat.two_pow_pos _))).2.2
    · rw [if_neg small]
      exact nearestEven_large low (by omega)

/-- Integers of at most 53 bits have a pattern. -/
theorem exists_pattern {n : Nat} (small : n ≤ 2^53) : ∃ m < infinity, magnitude m = n * one := by
  rcases Nat.eq_zero_or_pos n with rfl | positive
  · exact ⟨0, by decide, by rw [Nat.zero_mul]; rfl⟩
  · obtain ⟨e, le, low, high⟩ : ∃ e, e ≤ 52 ∧ 2^e ≤ n ∧ n ≤ 2^(e + 1) := by
      rcases Nat.lt_or_eq_of_le small with less | rfl
      · have bits : n.log2 < 53 := (Nat.log2_lt (by omega)).mpr less
        exact ⟨n.log2, by omega, Nat.log2_self_le (by omega), Nat.lt_log2_self.le⟩
      · exact ⟨52, le_refl _, by decide, by decide⟩
    have first : 2^52 = 2^e * 2^(52 - e) := pow_split (by omega)
    have last : 2^53 = 2^(e + 1) * 2^(52 - e) := pow_split (by omega)
    have some_ : 2^52 ≤ n * 2^(52 - e) := first ▸ Nat.mul_le_mul_right _ low
    have fits : n * 2^(52 - e) ≤ 2^53 := last ▸ Nat.mul_le_mul_right _ high
    refine ⟨(e + 1022) * 2^52 + n * 2^(52 - e), ?_, ?_⟩
    · rw [infinity]
      omega
    · rw [magnitude_binade _ some_ fits, Nat.mul_assoc,
        one_split (show 1074 = 52 - e + (e + 1022) by omega)]

variable {b : BitVec 64}

/-- The double nearest to an integer of at most 53 bits is that integer. -/
theorem NearestTo.exact_ {x : Int} (nearest : NearestTo x b) (small : x.natAbs ≤ 2^53) :
    isFinite b = true ∧ units b = x * one := by
  obtain ⟨m, finite, value⟩ := exists_pattern small
  have same : b.toNat % 2^63 = m := by
    apply nearest.nearest.unique
    rw [← value]
    exact nearestEven_magnitude finite.le
  have sign := nearest.sign
  have pattern := pattern_eq b
  constructor
  · rw [isFinite, decide_eq_true_eq]
    rw [infinity] at finite
    omega
  · rw [units, same, value, sign]
    by_cases below : x < 0
    · simp only [below, decide_true, if_true]
      push_cast
      rw [abs_of_neg below]
      ring
    · simp only [below, decide_false, Bool.false_eq_true, if_false]
      push_cast
      rw [abs_of_nonneg (not_lt.mp below)]

theorem natAbs_units (b : BitVec 64) : (units b).natAbs = magnitude (b.toNat % 2^63) := by
  rw [units]
  split_ifs <;> simp

/-- A finite number of exponent `e` and above is a multiple of `2^(e - 52)`. -/
theorem magnitude_scaled (b : BitVec 64) {e : Nat} (exponent_eq : exponent b = e + 1023) :
    magnitude (b.toNat % 2^63) * 2^52 = (2^52 + fraction b) * (2^e * one) := by
  rw [magnitude_normal b (by omega), exponent_eq, show e + 1023 - 1 = e + 1022 by omega,
    ← binade_low]
  ring

theorem magnitude_one : magnitude (1023 * 2^52) = one := by
  rw [show 1023 * 2^52 = (0 + 1022) * 2^52 + 2^52 from rfl,
    magnitude_binade _ (le_refl _) (by decide)]
  exact (binade_low 0).trans (Nat.one_mul one)

section Order

variable {n : Nat} {b : BitVec 64}

/-- A number of lower exponent is smaller. -/
theorem lt_magnitude (below : (n.log2 : Int) < (exponent b : Int) - 1023) :
    n * one < magnitude (b.toNat % 2^63) := by
  obtain ⟨e, exponent_eq⟩ : ∃ e, exponent b = e + 1023 := ⟨exponent b - 1023, by omega⟩
  have scaled := magnitude_scaled b exponent_eq
  have bits : n.log2 + 1 ≤ e := by omega
  have less : n < 2^e := Nat.lt_log2_self.trans_le (Nat.pow_le_pow_right (by decide) bits)
  apply (Nat.mul_lt_mul_of_pos_right less one_pos).trans_le
  apply Nat.le_of_mul_le_mul_right _ (Nat.two_pow_pos 52)
  rw [scaled, Nat.mul_comm]
  exact Nat.mul_le_mul_right _ (Nat.le_add_right _ _)

theorem magnitude_lt (nonzero : n ≠ 0) (above : (exponent b : Int) - 1023 < (n.log2 : Int)) :
    magnitude (b.toNat % 2^63) < n * one := by
  have fractionBound := fraction_lt b
  have pattern := pattern_eq b
  by_cases small : exponent b < 1023
  · have below := magnitude_strictMono (show b.toNat % 2^63 < 1023 * 2^52 by omega)
    rw [magnitude_one] at below
    exact below.trans_le (Nat.le_mul_of_pos_left _ (Nat.pos_of_ne_zero nonzero))
  · obtain ⟨e, exponent_eq⟩ : ∃ e, exponent b = e + 1023 := ⟨exponent b - 1023, by omega⟩
    have scaled := magnitude_scaled b exponent_eq
    have bits : e + 1 ≤ n.log2 := by omega
    have more : 2^(e + 1) ≤ n :=
      (Nat.pow_le_pow_right (by decide) bits).trans (Nat.log2_self_le nonzero)
    refine lt_of_lt_of_le ?_ (Nat.mul_le_mul_right one more)
    apply Nat.lt_of_mul_lt_mul_right (a := 2^52)
    have pos : 0 < 2^e * one := Nat.mul_pos (Nat.two_pow_pos e) one_pos
    calc
      magnitude (b.toNat % 2^63) * 2^52 = (2^52 + fraction b) * (2^e * one) := scaled
      _ < (2^52 + 2^52) * (2^e * one) := Nat.mul_lt_mul_of_pos_right (by omega) pos
      _ = 2^(e + 1) * one * 2^52 := by rw [Nat.pow_succ]; ring

/-- At the same exponent the mantissas decide. -/
theorem compare_magnitude {e : Nat} (exponent_eq : exponent b = e + 1023) :
    (n * one < magnitude (b.toNat % 2^63) ↔ n * 2^63 < (2^52 + fraction b) * 2^11 * 2^e)
      ∧ (magnitude (b.toNat % 2^63) < n * one ↔ (2^52 + fraction b) * 2^11 * 2^e < n * 2^63) := by
  have scaled := magnitude_scaled b exponent_eq
  have left : n * one * 2^52 * 2^11 = n * 2^63 * one := by ring
  have right : (2^52 + fraction b) * (2^e * one) * 2^11
      = (2^52 + fraction b) * 2^11 * 2^e * one := by ring
  constructor
  · rw [← Nat.mul_lt_mul_right (Nat.two_pow_pos 52), scaled,
      ← Nat.mul_lt_mul_right (Nat.two_pow_pos 11), left, right, Nat.mul_lt_mul_right one_pos]
  · rw [← Nat.mul_lt_mul_right (Nat.two_pow_pos 52), scaled,
      ← Nat.mul_lt_mul_right (Nat.two_pow_pos 11), left, right, Nat.mul_lt_mul_right one_pos]

end Order

/-- Below one there is no integer but 0. -/
theorem fractional_of_small (b : BitVec 64) (small : exponent b < 1023)
    (nonzero : ¬ (exponent b = 0 ∧ fraction b = 0)) (x : Int) : toRat b ≠ x := by
  rw [ne_eq, toRat_eq]
  intro same
  have pattern := pattern_eq b
  have bound := fraction_lt b
  have below := magnitude_strictMono (show b.toNat % 2^63 < 1023 * 2^52 by omega)
  rw [magnitude_one] at below
  have above := magnitude_strictMono (show 0 < b.toNat % 2^63 by omega)
  have value := natAbs_units b
  rw [same, Int.natAbs_mul, Int.natAbs_natCast] at value
  rw [show magnitude 0 = 0 from rfl, ← value] at above
  rw [← value] at below
  have none_ := Nat.lt_of_mul_lt_mul_right (below.trans_eq (Nat.one_mul one).symm)
  have some_ := Nat.pos_of_mul_pos_right above
  omega

abbrev Extended := WithBot (WithTop ℚ)

/-- The number of a pattern, unless it is NaN -/
def toExtended (b : BitVec 64) : Option Extended :=
  if isNaN b then none
  else if isInfinite b then some (if b.msb then ⊥ else ((⊤ : WithTop ℚ) : Extended))
  else some ((toRat b : WithTop ℚ) : Extended)

/-- The order of an integer and a pattern: -1, 0, 1 or, for NaN, 2 -/
def exactCmp (x : Int) (b : BitVec 64) : Int :=
  match toExtended b with
  | none => 2
  | some y =>
      if (((x : ℚ) : WithTop ℚ) : Extended) < y then -1
      else if y < (((x : ℚ) : WithTop ℚ) : Extended) then 1
      else 0

section

variable (x : Int)

theorem lt_toRat (b : BitVec 64) : (x : ℚ) < toRat b ↔ x * one < units b := by
  have positive : (0 : ℚ) < one := by exact_mod_cast one_pos
  rw [toRat, lt_div_iff₀ positive]
  exact_mod_cast Iff.rfl

theorem toRat_lt (b : BitVec 64) : toRat b < x ↔ units b < x * one := by
  have positive : (0 : ℚ) < one := by exact_mod_cast one_pos
  rw [toRat, div_lt_iff₀ positive]
  exact_mod_cast Iff.rfl

theorem exactCmp_finite (finite : isFinite b = true) :
    exactCmp x b = if x * one < units b then -1 else if units b < x * one then 1 else 0 := by
  have normal : exponent b ≠ 2047 := by simpa [isFinite] using finite
  have value : toExtended b = some ((toRat b : WithTop ℚ) : Extended) := by
    simp [toExtended, isNaN, isInfinite, normal]
  rw [exactCmp, value]
  simp only [WithBot.coe_lt_coe, WithTop.coe_lt_coe, lt_toRat, toRat_lt]

theorem exactCmp_nan (nan : isNaN b = true) : exactCmp x b = 2 := by
  rw [exactCmp, toExtended, if_pos nan]

theorem exactCmp_infinite (infinite : isInfinite b = true) :
    exactCmp x b = if b.msb then 1 else -1 := by
  have number : isNaN b = false := by
    simp only [isInfinite, decide_eq_true_eq] at infinite
    simp [isNaN, infinite]
  rw [exactCmp, toExtended, if_neg (by simp [number]), if_pos infinite]
  by_cases sign : b.msb = true
  · simp [sign]
  · have below : ((x : ℚ) : WithTop ℚ) < ⊤ := WithTop.coe_lt_top _
    simp [sign]

theorem exactCmp_some {y : Extended} (number : toExtended b = some y) :
    (exactCmp x b ≠ 2 ∧ exactCmp x b ≠ -2) ∧ (exactCmp x b < 0 ↔ (((x : ℚ) : WithTop ℚ) : Extended) < y)
      ∧ (0 < exactCmp x b ↔ y < (((x : ℚ) : WithTop ℚ) : Extended)) := by
  simp only [exactCmp, number]
  rcases lt_trichotomy (((x : ℚ) : WithTop ℚ) : Extended) y with less | same | more
  · simp [less, less.not_gt]
  · simp [same]
  · simp [more, more.not_gt]

theorem exactCmp_none (number : toExtended b = none) : exactCmp x b = 2 := by
  simp only [exactCmp, number]

end

end Pattern

end PrimJs.Binary64
