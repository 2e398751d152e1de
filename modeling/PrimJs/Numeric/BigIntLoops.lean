import PrimJs.Foundation.Limbs
import PrimJs.Numeric.BigInt

/-! What the limb loops compute, read as equations between unsigned numbers. -/

namespace PrimJs.BigInt

open Limbs

variable {w : Nat}

section Carry

theorem limbOf_or (p q : Bool) : (limbOf p ||| limbOf q : BitVec w) = limbOf (p || q) := by
  cases p <;> cases q <;> simp [limbOf]

variable (positive : 0 < w)
include positive

theorem toNat_limbOf (flag : Bool) : (limbOf flag : BitVec w).toNat = flag.toNat := by
  have one : (1#w).toNat = 1 := BitVec.toNat_one positive
  cases flag <;> simp [limbOf, one]

theorem addc_spec (op1 op2 : BitVec w) {carry : BitVec w} (small : carry.toNat ≤ 1) :
    (addc op1 op2 carry).1.toNat + 2^w * (addc op1 op2 carry).2.toNat
        = op1.toNat + op2.toNat + carry.toNat
      ∧ (addc op1 op2 carry).2.toNat ≤ 1 := by
  have x := op1.isLt
  have y := op2.isLt
  have two : 2 ≤ 2^w := Nat.pow_le_pow_right (by norm_num : 0 < 2) positive
  simp only [addc, limbOf_or, toNat_limbOf positive, BitVec.lt_def, BitVec.toNat_add]
  generalize 2^w = base at *
  by_cases excess : op1.toNat + op2.toNat < base
  · rw [Nat.mod_eq_of_lt excess]
    by_cases excess' : op1.toNat + op2.toNat + carry.toNat < base
    · rw [Nat.mod_eq_of_lt excess']
      simp
    · have wraps : (op1.toNat + op2.toNat + carry.toNat) % base = 0 := by
        have exact_ : op1.toNat + op2.toNat + carry.toNat = base := by omega
        rw [exact_, Nat.mod_self]
      have one : carry.toNat = 1 := by omega
      rw [wraps, one]
      simp
      omega
  · have wraps : (op1.toNat + op2.toNat) % base = op1.toNat + op2.toNat - base := by
      rw [Nat.mod_eq_sub_mod (Nat.le_of_not_lt excess), Nat.mod_eq_of_lt (by omega)]
    have below : op1.toNat + op2.toNat - base + carry.toNat < base := by omega
    rw [wraps, Nat.mod_eq_of_lt below]
    have flag : decide (op1.toNat + op2.toNat - base < op1.toNat) = true := by
      simp
      omega
    simp [flag]
    omega

/-- The limb and borrow of a column of `mp_sub` -/
def subColumn (v y k : BitVec w) : BitVec w × BitVec w :=
  let a := v - y
  let v' := a - k
  (v', limbOf (a < v') ||| limbOf (v < a))

omit positive in
theorem mpSub_cons (v : BitVec w) (op1 : List (BitVec w)) (y : BitVec w) (op2 : List (BitVec w))
    (k : BitVec w) :
    mpSub (v :: op1) (y :: op2) k
      = ((subColumn v y k).1 :: (mpSub op1 op2 (subColumn v y k).2).1,
          (mpSub op1 op2 (subColumn v y k).2).2) := rfl

theorem subColumn_spec (v y : BitVec w) {k : BitVec w} (small : k.toNat ≤ 1) :
    v.toNat + 2^w * (subColumn v y k).2.toNat = (subColumn v y k).1.toNat + y.toNat + k.toNat
      ∧ (subColumn v y k).2.toNat ≤ 1 := by
  have vBound := v.isLt
  have yBound := y.isLt
  have two : 2 ≤ 2^w := Nat.pow_le_pow_right (by norm_num : 0 < 2) positive
  simp only [subColumn, limbOf_or, toNat_limbOf positive, BitVec.lt_def,
    BitVec.toNat_sub]
  generalize 2^w = base at *
  have wrap (m n : Nat) (mBound : m < base) (nBound : n < base) :
      (base - n + m) % base = if m < n then base - n + m else m - n := by
    by_cases less : m < n
    · rw [if_pos less, Nat.mod_eq_of_lt (by omega)]
    · rw [if_neg less, Nat.mod_eq_sub_mod (by omega), Nat.mod_eq_of_lt (by omega)]
      omega
  have firstBound : (base - y.toNat + v.toNat) % base < base := Nat.mod_lt _ (by omega)
  rw [wrap _ _ firstBound (by omega), wrap _ _ vBound yBound]
  by_cases borrow : v.toNat < y.toNat
  · have first : decide (v.toNat < base - y.toNat + v.toNat) = true := by
      simp
      omega
    simp only [if_pos borrow, first, Bool.or_true, Bool.toNat_true]
    by_cases borrow' : base - y.toNat + v.toNat < k.toNat
    · omega
    · rw [if_neg borrow']
      omega
  · have first : decide (v.toNat < v.toNat - y.toNat) = false := by
      simp
    simp only [if_neg borrow, first, Bool.or_false]
    by_cases borrow' : v.toNat - y.toNat < k.toNat
    · have second : decide (v.toNat - y.toNat < base - k.toNat + (v.toNat - y.toNat)) = true := by
        simp
        omega
      simp only [if_pos borrow', second, Bool.toNat_true]
      omega
    · have second : decide (v.toNat - y.toNat < v.toNat - y.toNat - k.toNat) = false := by
        simp
      simp only [if_neg borrow', second, Bool.toNat_false]
      omega

theorem addcLoop_spec (pairs : List (BitVec w × BitVec w)) {carry : BitVec w}
    (small : carry.toNat ≤ 1) :
    unsigned (addcLoop carry pairs).1 + 2^(w * pairs.length) * (addcLoop carry pairs).2.toNat
        = unsigned (pairs.map Prod.fst) + unsigned (pairs.map Prod.snd) + carry.toNat
      ∧ (addcLoop carry pairs).2.toNat ≤ 1 ∧ (addcLoop carry pairs).1.length = pairs.length := by
  induction pairs generalizing carry with
  | nil => simp [addcLoop, small]
  | cons pair rest ih =>
      obtain ⟨op1, op2⟩ := pair
      obtain ⟨column, small'⟩ := addc_spec positive op1 op2 small
      obtain ⟨loop, small'', length⟩ := ih small'
      refine ⟨?_, small'', by simp [addcLoop, length]⟩
      simp only [addcLoop, List.map_cons, unsigned_cons]
      have split_ : 2^(w * ((op1, op2) :: rest).length) = 2^w * 2^(w * rest.length) := by
        rw [List.length_cons, Nat.mul_succ, Nat.add_comm, Nat.pow_add]
      rw [split_]
      calc
        (addc op1 op2 carry).1.toNat + 2^w * unsigned (addcLoop (addc op1 op2 carry).2 rest).1
            + 2^w * 2^(w * rest.length) * (addcLoop (addc op1 op2 carry).2 rest).2.toNat
          = (addc op1 op2 carry).1.toNat + 2^w * (unsigned (addcLoop (addc op1 op2 carry).2 rest).1
            + 2^(w * rest.length) * (addcLoop (addc op1 op2 carry).2 rest).2.toNat) := by ring
        _ = ((addc op1 op2 carry).1.toNat + 2^w * (addc op1 op2 carry).2.toNat)
            + 2^w * (unsigned (rest.map Prod.fst) + unsigned (rest.map Prod.snd)) := by
              rw [loop]
              ring
        _ = _ := by
              rw [column]
              ring

theorem mpSub_spec {op1 op2 : List (BitVec w)} (lengths : op1.length = op2.length)
    {k : BitVec w} (small : k.toNat ≤ 1) :
    unsigned op1 + 2^(w * op1.length) * (mpSub op1 op2 k).2.toNat
        = unsigned (mpSub op1 op2 k).1 + unsigned op2 + k.toNat
      ∧ (mpSub op1 op2 k).1.length = op1.length := by
  induction op1 generalizing op2 k with
  | nil =>
      cases op2 with
      | nil => simp [mpSub]
      | cons y op2 => simp at lengths
  | cons v op1 ih =>
      cases op2 with
      | nil => simp at lengths
      | cons y op2 =>
          have lengths' : op1.length = op2.length := by simpa using lengths
          obtain ⟨column, small'⟩ := subColumn_spec positive v y small
          obtain ⟨loop, length⟩ := ih lengths' small'
          rw [mpSub_cons]
          refine ⟨?_, by simp [length]⟩
          rw [pow_succ_length, unsigned_cons, unsigned_cons, unsigned_cons]
          calc
            v.toNat + 2^w * unsigned op1
                + 2^w * 2^(w * op1.length) * (mpSub op1 op2 (subColumn v y k).2).2.toNat
              = v.toNat + 2^w * (unsigned op1
                  + 2^(w * op1.length) * (mpSub op1 op2 (subColumn v y k).2).2.toNat) := by ring
            _ = (v.toNat + 2^w * (subColumn v y k).2.toNat)
                  + 2^w * (unsigned (mpSub op1 op2 (subColumn v y k).2).1 + unsigned op2) := by
                  rw [loop]
                  ring
            _ = _ := by
                  rw [column]
                  ring

end Carry

section Product

theorem toNat_double (x : BitVec w) : (double x).toNat = x.toNat := by
  have wide : 2^w ≤ 2^(2 * w) := Nat.pow_le_pow_right (by norm_num) (by omega)
  rw [double, BitVec.toNat_setWidth]
  exact Nat.mod_eq_of_lt (lt_of_lt_of_le x.isLt wide)

theorem splitDouble_spec (t : BitVec (2 * w)) :
    (splitDouble t).1.toNat + 2^w * (splitDouble t).2.toNat = t.toNat := by
  have bound := t.isLt
  have square : 2^(2 * w) = 2^w * 2^w := by rw [Nat.two_mul, Nat.pow_add]
  have high : t.toNat / 2^w < 2^w := Nat.div_lt_of_lt_mul (square ▸ bound)
  rw [splitDouble, BitVec.toNat_setWidth, BitVec.toNat_setWidth, BitVec.toNat_ushiftRight,
    Nat.shiftRight_eq_div_pow, Nat.mod_eq_of_lt high]
  exact Nat.mod_add_div t.toNat (2^w)

theorem product_bound (x b : BitVec w) : x.toNat * b.toNat + 2 * (2^w - 1) < 2^w * 2^w := by
  have xBound := x.isLt
  have bBound := b.isLt
  have product : x.toNat * b.toNat ≤ (2^w - 1) * (2^w - 1) :=
    Nat.mul_le_mul (by omega) (by omega)
  have pos := Nat.two_pow_pos w
  generalize 2^w = base at *
  obtain ⟨top, rfl⟩ : ∃ top, base = top + 1 := ⟨base - 1, by omega⟩
  have expand : (top + 1) * (top + 1) = top * top + 2 * top + 1 := by ring
  rw [Nat.add_sub_cancel] at product ⊢
  omega

theorem toNat_mulAdd (x b l y : BitVec w) :
    (double x * double b + double l + double y).toNat
      = x.toNat * b.toNat + l.toNat + y.toNat := by
  have bound := product_bound x b
  have lBound := l.isLt
  have yBound := y.isLt
  have square : 2^(2 * w) = 2^w * 2^w := by rw [Nat.two_mul, Nat.pow_add]
  rw [BitVec.toNat_add, BitVec.toNat_add, BitVec.toNat_mul, toNat_double, toNat_double,
    toNat_double, toNat_double, square]
  have first : x.toNat * b.toNat < 2^w * 2^w := by omega
  have second : x.toNat * b.toNat + l.toNat < 2^w * 2^w := by omega
  have third : x.toNat * b.toNat + l.toNat + y.toNat < 2^w * 2^w := by omega
  rw [Nat.mod_eq_of_lt first, Nat.mod_eq_of_lt second, Nat.mod_eq_of_lt third]

theorem mpMul1_spec (b : BitVec w) (taba : List (BitVec w)) (l : BitVec w) :
    unsigned (mpMul1 b taba l).1 + 2^(w * taba.length) * (mpMul1 b taba l).2.toNat
        = unsigned taba * b.toNat + l.toNat
      ∧ (mpMul1 b taba l).1.length = taba.length := by
  induction taba generalizing l with
  | nil => simp [mpMul1]
  | cons x taba ih =>
      have zero : double (0#w) = 0#(2 * w) := by simp [double]
      have total := toNat_mulAdd x b l 0#w
      rw [zero, BitVec.add_zero, BitVec.toNat_zero, Nat.add_zero] at total
      have column := splitDouble_spec (double x * double b + double l)
      rw [total] at column
      obtain ⟨loop, length⟩ := ih (splitDouble (double x * double b + double l)).2
      refine ⟨?_, by simp [mpMul1, length]⟩
      simp only [mpMul1, unsigned_cons, pow_succ_length]
      generalize splitDouble (double x * double b + double l) = limbs at *
      calc
        limbs.1.toNat + 2^w * unsigned (mpMul1 b taba limbs.2).1
            + 2^w * 2^(w * taba.length) * (mpMul1 b taba limbs.2).2.toNat
          = limbs.1.toNat + 2^w * (unsigned (mpMul1 b taba limbs.2).1
            + 2^(w * taba.length) * (mpMul1 b taba limbs.2).2.toNat) := by ring
        _ = (limbs.1.toNat + 2^w * limbs.2.toNat) + 2^w * (unsigned taba * b.toNat) := by
              rw [loop]
              ring
        _ = (x.toNat + 2^w * unsigned taba) * b.toNat + l.toNat := by
              rw [column]
              ring

theorem mpAddMul1_spec (b : BitVec w) {tabr taba : List (BitVec w)}
    (lengths : tabr.length = taba.length) (l : BitVec w) :
    unsigned (mpAddMul1 b tabr taba l).1 + 2^(w * taba.length) * (mpAddMul1 b tabr taba l).2.toNat
        = unsigned tabr + unsigned taba * b.toNat + l.toNat
      ∧ (mpAddMul1 b tabr taba l).1.length = taba.length := by
  induction taba generalizing tabr l with
  | nil =>
      cases tabr with
      | nil => simp [mpAddMul1]
      | cons y tabr => simp at lengths
  | cons x taba ih =>
      cases tabr with
      | nil => simp at lengths
      | cons y tabr =>
          have lengths' : tabr.length = taba.length := by simpa using lengths
          have column := splitDouble_spec (double x * double b + double l + double y)
          rw [toNat_mulAdd] at column
          obtain ⟨loop, length⟩ :=
            ih lengths' (splitDouble (double x * double b + double l + double y)).2
          refine ⟨?_, by simp [mpAddMul1, length]⟩
          simp only [mpAddMul1, unsigned_cons, pow_succ_length]
          generalize splitDouble (double x * double b + double l + double y) = limbs at *
          calc
            limbs.1.toNat + 2^w * unsigned (mpAddMul1 b tabr taba limbs.2).1
                + 2^w * 2^(w * taba.length) * (mpAddMul1 b tabr taba limbs.2).2.toNat
              = limbs.1.toNat + 2^w * (unsigned (mpAddMul1 b tabr taba limbs.2).1
                + 2^(w * taba.length) * (mpAddMul1 b tabr taba limbs.2).2.toNat) := by ring
            _ = (limbs.1.toNat + 2^w * limbs.2.toNat)
                + 2^w * (unsigned tabr + unsigned taba * b.toNat) := by
                  rw [loop]
                  ring
            _ = _ := by
                  rw [column]
                  ring

theorem mulRows_spec (op1 : List (BitVec w)) {result : List (BitVec w)} (op2 : List (BitVec w))
    (length : result.length = op1.length + 1) :
    unsigned (mulRows op1 result op2) = unsigned result + 2^w * (unsigned op1 * unsigned op2)
      ∧ (mulRows op1 result op2).length = result.length + op2.length := by
  induction op2 generalizing result with
  | nil => cases result <;> simp [mulRows]
  | cons y op2 ih =>
      cases result with
      | nil => simp at length
      | cons low result =>
          have window : result.length = op1.length := by simpa using length
          obtain ⟨row, rowLength⟩ := mpAddMul1_spec y window 0#w
          have next : ((mpAddMul1 y result op1 0#w).1 ++ [(mpAddMul1 y result op1 0#w).2]).length
              = op1.length + 1 := by
            simp [rowLength]
          obtain ⟨rows, lengths⟩ := ih next
          refine ⟨?_, ?_⟩
          · simp only [mulRows, unsigned_cons]
            rw [rows, unsigned_append, rowLength, unsigned_cons, unsigned_nil]
            rw [BitVec.toNat_zero] at row
            calc
              _ = low.toNat + 2^w * ((unsigned (mpAddMul1 y result op1 0#w).1
                    + 2^(w * op1.length) * (mpAddMul1 y result op1 0#w).2.toNat)
                    + 2^w * (unsigned op1 * unsigned op2)) := by ring
              _ = _ := by
                    rw [row]
                    ring
          · simp only [mulRows, List.length_cons]
            rw [lengths, next, window]
            omega

theorem mpMulBasecase_spec (op1 : List (BitVec w)) {op2 : List (BitVec w)} (nonempty : op2 ≠ []) :
    unsigned (mpMulBasecase op1 op2) = unsigned op1 * unsigned op2
      ∧ (mpMulBasecase op1 op2).length = op1.length + op2.length := by
  cases op2 with
  | nil => exact absurd rfl nonempty
  | cons y op2 =>
      obtain ⟨row, rowLength⟩ := mpMul1_spec y op1 0#w
      have first : ((mpMul1 y op1 0#w).1 ++ [(mpMul1 y op1 0#w).2]).length = op1.length + 1 := by
        simp [rowLength]
      obtain ⟨rows, lengths⟩ := mulRows_spec op1 op2 first
      refine ⟨?_, ?_⟩
      · rw [BitVec.toNat_zero] at row
        simp only [mpMulBasecase]
        rw [rows, unsigned_append, rowLength, unsigned_cons, unsigned_cons, unsigned_nil]
        calc
          _ = (unsigned (mpMul1 y op1 0#w).1 + 2^(w * op1.length) * (mpMul1 y op1 0#w).2.toNat)
              + 2^w * (unsigned op1 * unsigned op2) := by ring
          _ = _ := by
                rw [row]
                ring
      · simp only [mpMulBasecase]
        rw [lengths, first, List.length_cons]
        omega

end Product

section Shift

variable {shift : Nat} (inside : shift < w)
include inside

theorem shlColumn_spec (v : BitVec w) {l : BitVec w} (small : l.toNat < 2^shift) :
    (v <<< shift ||| l).toNat + 2^w * (v >>> (w - shift)).toNat = v.toNat * 2^shift + l.toNat
      ∧ (v >>> (w - shift)).toNat < 2^shift := by
  have pieces : 2^w = 2^shift * 2^(w - shift) := by
    rw [← Nat.pow_add]
    congr 1
    omega
  have bound := v.isLt
  have high : (v >>> (w - shift)).toNat = v.toNat / 2^(w - shift) := by
    rw [BitVec.toNat_ushiftRight, Nat.shiftRight_eq_div_pow]
  have highBound : v.toNat / 2^(w - shift) < 2^shift := by
    apply Nat.div_lt_of_lt_mul
    rw [Nat.mul_comm, ← pieces]
    exact bound
  have low : (v <<< shift).toNat = 2^shift * (v.toNat % 2^(w - shift)) := by
    rw [BitVec.toNat_shiftLeft, Nat.shiftLeft_eq, pieces, Nat.mul_comm v.toNat,
      Nat.mul_mod_mul_left]
  have joined : (v <<< shift ||| l).toNat = 2^shift * (v.toNat % 2^(w - shift)) + l.toNat := by
    rw [BitVec.toNat_or, low]
    exact (Nat.two_pow_add_eq_or_of_lt small _).symm
  rw [joined, high]
  refine ⟨?_, highBound⟩
  have division := Nat.mod_add_div v.toNat (2^(w - shift))
  calc
    2^shift * (v.toNat % 2^(w - shift)) + l.toNat + 2^w * (v.toNat / 2^(w - shift))
      = 2^shift * (v.toNat % 2^(w - shift) + 2^(w - shift) * (v.toNat / 2^(w - shift)))
          + l.toNat := by
        rw [pieces]
        ring
    _ = v.toNat * 2^shift + l.toNat := by
        rw [division]
        ring

theorem mpShl_spec (taba : List (BitVec w)) {l : BitVec w} (small : l.toNat < 2^shift) :
    unsigned (mpShl shift taba l).1 + 2^(w * taba.length) * (mpShl shift taba l).2.toNat
        = unsigned taba * 2^shift + l.toNat
      ∧ (mpShl shift taba l).2.toNat < 2^shift
      ∧ (mpShl shift taba l).1.length = taba.length := by
  induction taba generalizing l with
  | nil => simp [mpShl, small]
  | cons v taba ih =>
      obtain ⟨column, small'⟩ := shlColumn_spec inside v small
      obtain ⟨loop, small'', length⟩ := ih small'
      refine ⟨?_, small'', by simp [mpShl, length]⟩
      simp only [mpShl, unsigned_cons, pow_succ_length]
      generalize mpShl shift taba (v >>> (w - shift)) = rest at *
      calc
        _ = (v <<< shift ||| l).toNat + 2^w * (unsigned rest.1
              + 2^(w * taba.length) * rest.2.toNat) := by ring
        _ = ((v <<< shift ||| l).toNat + 2^w * (v >>> (w - shift)).toNat)
              + 2^w * (unsigned taba * 2^shift) := by
              rw [loop]
              ring
        _ = _ := by
              rw [column]
              ring

theorem shrColumn_spec (a l : BitVec w) :
    (a >>> shift ||| l <<< (w - shift)).toNat * 2^shift + a.toNat % 2^shift
      = a.toNat + 2^w * (l.toNat % 2^shift) := by
  have pieces : 2^w = 2^(w - shift) * 2^shift := by
    rw [← Nat.pow_add]
    congr 1
    omega
  have bound := a.isLt
  have low : (a >>> shift).toNat = a.toNat / 2^shift := by
    rw [BitVec.toNat_ushiftRight, Nat.shiftRight_eq_div_pow]
  have lowBound : a.toNat / 2^shift < 2^(w - shift) := by
    apply Nat.div_lt_of_lt_mul
    rw [Nat.mul_comm, ← pieces]
    exact bound
  have high : (l <<< (w - shift)).toNat = 2^(w - shift) * (l.toNat % 2^shift) := by
    rw [BitVec.toNat_shiftLeft, Nat.shiftLeft_eq, pieces, Nat.mul_comm l.toNat,
      Nat.mul_mod_mul_left]
  have joined : (a >>> shift ||| l <<< (w - shift)).toNat
      = 2^(w - shift) * (l.toNat % 2^shift) + a.toNat / 2^shift := by
    rw [BitVec.toNat_or, low, high, Nat.or_comm]
    exact (Nat.two_pow_add_eq_or_of_lt lowBound _).symm
  rw [joined]
  have division := Nat.mod_add_div a.toNat (2^shift)
  calc
    _ = 2^w * (l.toNat % 2^shift)
          + (a.toNat % 2^shift + 2^shift * (a.toNat / 2^shift)) := by
        rw [pieces]
        ring
    _ = a.toNat + 2^w * (l.toNat % 2^shift) := by
        rw [division]
        ring

theorem mpShrLoop_spec (high : BitVec w) (tab : List (BitVec w)) :
    unsigned (mpShrLoop shift high tab).1 * 2^shift + (mpShrLoop shift high tab).2.toNat % 2^shift
        = unsigned tab + 2^(w * tab.length) * (high.toNat % 2^shift)
      ∧ (mpShrLoop shift high tab).1.length = tab.length := by
  induction tab with
  | nil => simp [mpShrLoop]
  | cons a tab ih =>
      obtain ⟨loop, length⟩ := ih
      refine ⟨?_, by simp [mpShrLoop, length]⟩
      have column := shrColumn_spec inside a (mpShrLoop shift high tab).2
      simp only [mpShrLoop, unsigned_cons, pow_succ_length]
      generalize mpShrLoop shift high tab = rest at *
      calc
        _ = ((a >>> shift ||| rest.2 <<< (w - shift)).toNat * 2^shift + a.toNat % 2^shift)
              + 2^w * (unsigned rest.1 * 2^shift) := by ring
        _ = a.toNat + 2^w * (unsigned rest.1 * 2^shift + rest.2.toNat % 2^shift) := by
              rw [column]
              ring
        _ = _ := by
              rw [loop]
              ring

end Shift

end PrimJs.BigInt
