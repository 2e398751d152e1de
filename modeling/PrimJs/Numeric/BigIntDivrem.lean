import PrimJs.Numeric.BigIntDivnorm

/-! `js_bigint_divrem` truncates the quotient, and its remainder has the sign of the dividend. -/

namespace PrimJs.BigInt

open Limbs Allocating

variable {w : Nat}

section Magnitude

theorem usedLen_spec (tab : List (BitVec w)) {l : Nat} (some_ : 0 < l) (inside : l ≤ tab.length) :
    0 < usedLen tab l ∧ usedLen tab l ≤ l
      ∧ unsigned (tab.take (usedLen tab l)) = unsigned (tab.take l)
      ∧ (1 < usedLen tab l → tab.getD (usedLen tab l - 1) 0#w ≠ 0#w) := by
  induction l with
  | zero => omega
  | succ l ih =>
      cases l with
      | zero => exact ⟨some_, le_refl _, rfl, fun more => absurd more (lt_irrefl 1)⟩
      | succ l =>
          rw [usedLen]
          by_cases zero : tab.getD (l + 1) 0#w = 0#w
          · obtain ⟨pos, le, value, top⟩ := ih (by omega) (by omega)
            rw [if_pos zero]
            refine ⟨pos, by omega, value.trans ?_, top⟩
            have within : l + 1 < tab.length := by omega
            rw [← List.take_append_getElem within, unsigned_append]
            rw [List.getD_eq_getElem _ _ within] at zero
            simp [zero]
          · rw [if_neg zero]
            exact ⟨some_, le_refl _, rfl, fun _ => zero⟩

variable (positive : 0 < w)
include positive

theorem unsigned_mpNeg {tab : List (BitVec w)} (some_ : 0 < unsigned tab) :
    unsigned (mpNeg tab 1#w).1 = 2^(w * tab.length) - unsigned tab := by
  have one : (1#w).toNat = 1 := BitVec.toNat_one positive
  obtain ⟨value, length⟩ := mpNeg_spec positive tab (le_of_eq one)
  have bound := unsigned_lt tab
  have none : (mpNeg tab 1#w).2.toNat = 0 := by
    by_contra carry
    have scaled := Nat.mul_le_mul_left (2^(w * tab.length)) (Nat.pos_of_ne_zero carry)
    omega
  rw [one, none, Nat.mul_zero] at value
  omega

theorem signed_mpNeg {tab : List (BitVec w)} (nonempty : tab ≠ [])
    (above : -(2^(w * tab.length - 1) : Int) < signed tab) :
    signed (mpNeg tab 1#w).1 = -signed tab := by
  have one : (1#w).toNat = 1 := BitVec.toNat_one positive
  obtain ⟨value, length⟩ := mpNeg_spec positive tab (le_of_eq one)
  have below := (signed_range positive nonempty).2
  have nonempty' : (mpNeg tab 1#w).1 ≠ [] := by
    rw [← List.length_pos_iff, length]
    exact List.length_pos_iff.mpr nonempty
  apply signed_eq positive nonempty'
  · rw [length]
    omega
  · rw [length]
    omega
  · rw [length]
    have residue := (signed_modEq tab).neg
    refine Int.ModEq.trans ?_ residue.symm
    apply Int.modEq_iff_dvd.mpr
    refine ⟨(mpNeg tab 1#w).2.toNat - 1, ?_⟩
    rw [one] at value
    have cast : ((unsigned (mpNeg tab 1#w).1 + unsigned tab + 1
        + 2^(w * tab.length) * (mpNeg tab 1#w).2.toNat : Nat) : Int)
        = ((2^(w * tab.length) + 1 : Nat) : Int) := congrArg _ value
    push_cast at cast
    rw [mul_sub, mul_one]
    linarith

/-- The limbs of the absolute value -/
theorem unsigned_abs {a : JSBigInt w} (nonempty : a.tab ≠ []) :
    unsigned (if jsBigintSign a ≠ 0#w then (mpNeg a.tab 1#w).1 else a.tab) = a.value.natAbs
      ∧ (if jsBigintSign a ≠ 0#w then (mpNeg a.tab 1#w).1 else a.tab).length = a.len := by
  have some_ := List.length_pos_iff.mpr nonempty
  have bound := unsigned_lt a.tab
  rw [JSBigInt.value, signed, signWeight]
  by_cases sign : negative a.tab = true
  · have one : (1#w).toNat = 1 := BitVec.toNat_one positive
    have pos : 0 < unsigned a.tab := by
      have low := (signed_range positive nonempty).1
      have half : (2 : Int)^(w * a.tab.length) = 2 * 2^(w * a.tab.length - 1) := by
        rw [← pow_succ', Nat.sub_add_cancel (Nat.mul_pos positive some_)]
      have width : (0 : Int) < 2^(w * a.tab.length - 1) := by positivity
      rw [signed, signWeight, if_pos sign] at low
      push_cast at low
      omega
    rw [if_pos ((jsBigintSign_ne_zero positive a).mpr sign), if_pos sign,
      unsigned_mpNeg positive pos]
    refine ⟨?_, (mpNeg_spec positive a.tab (le_of_eq one)).2⟩
    omega
  · rw [if_neg (mt (jsBigintSign_ne_zero positive a).mp sign), if_neg sign]
    exact ⟨by simp, rfl⟩

/-- The limbs of the absolute value in use: no limb at the top is 0. -/
theorem absLimbs_spec {a : JSBigInt w} (nonempty : a.tab ≠ []) :
    unsigned (absLimbs a) = a.value.natAbs ∧ absLimbs a ≠ [] ∧ (absLimbs a).length ≤ a.len
      ∧ (1 < (absLimbs a).length → (absLimbs a).getD ((absLimbs a).length - 1) 0#w ≠ 0#w) := by
  have some_ := List.length_pos_iff.mpr nonempty
  obtain ⟨tab, same, value, length⟩ : ∃ tab,
      (if jsBigintSign a ≠ 0#w then (mpNeg a.tab 1#w).1 else a.tab) = tab
        ∧ unsigned tab = a.value.natAbs ∧ tab.length = a.len :=
    ⟨_, rfl, unsigned_abs positive nonempty⟩
  have unfolded : absLimbs a = tab.take (usedLen tab tab.length) := by rw [absLimbs, same]
  have some' : 0 < tab.length := by
    rw [length]
    exact some_
  obtain ⟨pos, le, used, top⟩ := usedLen_spec tab some' (le_refl _)
  have taken : (tab.take (usedLen tab tab.length)).length = usedLen tab tab.length := by
    rw [List.length_take]
    omega
  rw [List.take_length] at used
  rw [unfolded, taken]
  refine ⟨used.trans value, ?_, by omega, fun more => ?_⟩
  · rw [← List.length_pos_iff, taken]
    exact pos
  · have here : usedLen tab tab.length - 1 < usedLen tab tab.length := by omega
    have limb := top more
    rw [List.getD_eq_getElem?_getD] at limb ⊢
    rwa [List.getElem?_take_of_lt here]

omit positive in
/-- A number whose limbs end with a nonzero one is at least the weight of this limb. -/
theorem weight_le {tab : List (BitVec w)} (nonempty : tab ≠ [])
    (top : tab.getD (tab.length - 1) 0#w ≠ 0#w) : 2^(w * (tab.length - 1)) ≤ unsigned tab := by
  obtain ⟨low, parts⟩ := limbs_split (a := ⟨tab⟩) nonempty
  rw [JSBigInt.limb, JSBigInt.len] at parts
  dsimp only at parts
  have length : tab.length - 1 = low.length := by
    have lengths := congrArg List.length parts
    rw [List.length_append, List.length_singleton] at lengths
    omega
  have value := congrArg unsigned parts
  rw [unsigned_append, unsigned_cons, unsigned_nil, Nat.mul_zero, Nat.add_zero, ← length] at value
  have some_ : 0 < (tab.getD (tab.length - 1) 0#w).toNat := by
    apply Nat.pos_of_ne_zero
    intro zero
    exact top (BitVec.eq_of_toNat_eq zero)
  have scaled := Nat.mul_le_mul_left (2^(w * (tab.length - 1))) some_
  omega

end Magnitude

section Shift

variable (positive : 0 < w)
include positive

/-- The high bit is set when the number takes all bits of its limbs. -/
theorem NormalDivisor.of_half {tabb : List (BitVec w)} (nonempty : tabb ≠ [])
    (half : 2^(w * tabb.length) ≤ 2 * unsigned tabb) : NormalDivisor tabb := by
  refine ⟨nonempty, ?_⟩
  have sign : negative tabb = (tabb.getD (tabb.length - 1) 0#w).msb := (limb_getLast ⟨tabb⟩).symm
  have bits : 0 < w * tabb.length := Nat.mul_pos positive (List.length_pos_iff.mpr nonempty)
  have double_ : (2 : Int)^(w * tabb.length) = 2 * 2^(w * tabb.length - 1) := by
    rw [← pow_succ', Nat.sub_add_cancel bits]
  have half' : (2 : Int)^(w * tabb.length) ≤ 2 * unsigned tabb := by exact_mod_cast half
  have below := (signed_range positive nonempty).2
  rw [signed, signWeight] at below
  rw [← sign]
  by_contra plain
  rw [if_neg plain] at below
  push_cast at below
  linarith

/-- The shift makes the divisor normal and multiplies both operands. -/
theorem shiftDivisor_spec {taba tabb : List (BitVec w)} (nonempty : tabb ≠ [])
    (top : tabb.getD (tabb.length - 1) 0#w ≠ 0#w) :
    ∃ taba' tabb', shiftDivisor taba tabb (tabb.getD (tabb.length - 1) 0#w).clz.toNat = (taba', tabb')
      ∧ NormalDivisor tabb' ∧ tabb'.length = tabb.length ∧ taba.length ≤ taba'.length
      ∧ taba'.length ≤ taba.length + 1
      ∧ unsigned taba' = unsigned taba * 2^(tabb.getD (tabb.length - 1) 0#w).clz.toNat
      ∧ unsigned tabb' = unsigned tabb * 2^(tabb.getD (tabb.length - 1) 0#w).clz.toNat
      ∧ (tabb.getD (tabb.length - 1) 0#w).clz.toNat < w := by
  obtain ⟨low, parts⟩ := limbs_split (a := ⟨tabb⟩) nonempty
  rw [JSBigInt.limb, JSBigInt.len] at parts
  dsimp only at parts
  have small := BitVec.clz_lt_iff_ne_zero.mpr top
  have least := BitVec.two_pow_sub_clz_le_toNat_of_ne_zero positive top
  have most := BitVec.toNat_lt_two_pow_sub_clz (x := tabb.getD (tabb.length - 1) 0#w)
  generalize tabb.getD (tabb.length - 1) 0#w = high at *
  have inside : high.clz.toNat < w := by
    have bound := BitVec.lt_def.mp small
    rwa [BitVec.natCast_eq_ofNat, BitVec.toNat_ofNat, Nat.mod_eq_of_lt Nat.lt_two_pow_self] at bound
  generalize high.clz.toNat = shift at *
  have length : tabb.length = low.length + 1 := by
    have lengths := congrArg List.length parts
    rwa [List.length_append, List.length_singleton] at lengths
  have value := congrArg unsigned parts
  rw [unsigned_append, unsigned_cons, unsigned_nil, Nat.mul_zero, Nat.add_zero] at value
  have lowBound := unsigned_lt low
  have weight : 2^(w * tabb.length) = 2^(w * low.length) * 2^w := by
    rw [length, Nat.mul_succ, Nat.pow_add]
  have pieces : 2^w = 2^(w - shift) * 2^shift := by
    rw [← Nat.pow_add]
    congr 1
    omega
  have atLeast : 2^(w * tabb.length) ≤ 2 * (unsigned tabb * 2^shift) := by
    have power : 2^(w - shift) = 2 * 2^(w - 1 - shift) := by
      rw [← Nat.pow_succ']
      congr 1
      omega
    have doubled : 2^(w - shift) ≤ 2 * high.toNat := by omega
    calc
      2^(w * tabb.length) = 2^(w * low.length) * 2^(w - shift) * 2^shift := by
        rw [weight, pieces, Nat.mul_assoc]
      _ ≤ 2^(w * low.length) * (2 * high.toNat) * 2^shift :=
        Nat.mul_le_mul_right _ (Nat.mul_le_mul_left _ doubled)
      _ ≤ 2 * (unsigned tabb * 2^shift) := by
        rw [value]
        ring_nf
        omega
  have fits : unsigned tabb * 2^shift < 2^(w * tabb.length) := by
    have below : unsigned tabb < 2^(w * low.length) * 2^(w - shift) := by
      have scaled := Nat.mul_le_mul_left (2^(w * low.length)) most
      rw [Nat.mul_succ] at scaled
      omega
    rw [weight, pieces, ← Nat.mul_assoc]
    exact Nat.mul_lt_mul_of_pos_right below (Nat.two_pow_pos shift)
  rw [shiftDivisor]
  by_cases none : shift = 0
  · rw [if_neg (not_not.mpr none)]
    rw [none, Nat.pow_zero, Nat.mul_one] at atLeast
    exact ⟨taba, tabb, rfl, .of_half positive nonempty atLeast, rfl, le_refl _, by omega,
      by simp [none], by simp [none], inside⟩
  · have zero : (0#w).toNat < 2^shift := by
      rw [BitVec.toNat_zero]
      exact Nat.two_pow_pos shift
    obtain ⟨dividend, -, dividendLength⟩ := mpShl_spec inside taba zero
    obtain ⟨divisor, -, divisorLength⟩ := mpShl_spec inside tabb zero
    rw [BitVec.toNat_zero, Nat.add_zero] at dividend divisor
    have carry : (mpShl shift tabb 0#w).2.toNat = 0 := by
      by_contra some_
      have scaled := Nat.mul_le_mul_left (2^(w * tabb.length)) (Nat.pos_of_ne_zero some_)
      omega
    rw [carry, Nat.mul_zero, Nat.add_zero] at divisor
    have nonempty' : (mpShl shift tabb 0#w).1 ≠ [] := by
      rw [← List.length_pos_iff, divisorLength]
      exact List.length_pos_iff.mpr nonempty
    rw [if_pos none]
    refine ⟨_, _, rfl, .of_half positive nonempty' ?_, divisorLength, ?_, ?_, ?_, divisor, inside⟩
    · rw [divisorLength, divisor]
      exact atLeast
    · split <;> simp [dividendLength]
    · split <;> simp [dividendLength]
    · by_cases h : (mpShl shift taba 0#w).2 ≠ 0#w
      · rw [if_pos h, unsigned_append, dividendLength, unsigned_cons, unsigned_nil, Nat.mul_zero,
          Nat.add_zero]
        exact dividend
      · rw [if_neg h]
        rw [Decidable.not_not.mp h, BitVec.toNat_zero, Nat.mul_zero, Nat.add_zero] at dividend
        exact dividend

end Shift

section Results

variable (positive : 0 < w)
include positive

theorem jsBigintNormalize1_denotes {a : JSBigInt w} {l : Nat} (some_ : 0 < l) (inside : l ≤ a.len)
    {fails : RangeError → Prop} :
    Outcome (jsBigintNormalize1 a l) (Denotes (signed (a.tab.take l))) fails := by
  obtain ⟨-, le, normal, value⟩ := trimmedLen_spec positive a.tab some_ inside
  rw [jsBigintNormalize1]
  by_cases shorter : trimmedLen a.tab l ≠ a.len
  · rw [if_pos shorter]
    apply Outcome.bind Outcome.tryAllocate
    intro _ _
    exact Outcome.pure ⟨normal, value⟩
  · rw [if_neg shorter]
    have whole : a.tab.take (trimmedLen a.tab l) = a.tab := by
      rw [Decidable.not_not.mp shorter]
      exact List.take_length
    rw [whole] at normal value
    exact Outcome.pure ⟨normal, value⟩

omit positive in
theorem signed_append_zero (tab : List (BitVec w)) : signed (tab ++ [0#w]) = unsigned tab := by
  rw [signed_append tab (List.cons_ne_nil _ _), signed_singleton, BitVec.toInt_zero]
  ring

theorem signed_negated (negate : Bool) (tab : List (BitVec w)) :
    signed (if negate then (mpNeg (tab ++ [0#w]) 1#w).1 else tab ++ [0#w])
      = if negate then -(unsigned tab : Int) else unsigned tab := by
  have value := signed_append_zero tab
  cases negate with
  | false => exact value
  | true =>
      have nonempty : tab ++ [0#w] ≠ [] := by simp
      have width : (0 : Int) < 2^(w * (tab ++ [0#w]).length - 1) := by positivity
      have above : -(2^(w * (tab ++ [0#w]).length - 1) : Int) < signed (tab ++ [0#w]) := by
        rw [value]
        omega
      have negated := signed_mpNeg positive nonempty above
      rw [value] at negated
      exact negated

theorem negated_length (negate : Bool) (tab : List (BitVec w)) :
    (if negate then (mpNeg tab 1#w).1 else tab).length = tab.length := by
  have one : (1#w).toNat = 1 := BitVec.toNat_one positive
  cases negate with
  | false => rfl
  | true => exact (mpNeg_spec positive tab (le_of_eq one)).2

/-- The size limit on the dividend's block, the only error of a division by a nonzero number -/
def DivisionRefused (w len : Nat) (error : DivisionError) : Prop :=
  ∃ refused, error = .size refused ∧ SizeRefused w len refused

theorem quotientOf_denotes (negate : Bool) (q : List (BitVec w)) {len : Nat} :
    Outcome (quotientOf negate q)
      (Denotes (if negate then -(unsigned q : Int) else unsigned q)) (DivisionRefused w len) := by
  have nonempty : (if negate then (mpNeg (q ++ [0#w]) 1#w).1 else q ++ [0#w]) ≠ [] := by
    rw [← List.length_pos_iff, negated_length positive]
    simp
  have outcome := @jsBigintNormalize_denotes w positive
    ⟨if negate then (mpNeg (q ++ [0#w]) 1#w).1 else q ++ [0#w]⟩ nonempty (SizeRefused w len)
  rw [← signed_negated positive]
  exact outcome.mapError fun error refused => ⟨error, rfl, refused⟩

theorem remainderOf_denotes {len shift : Nat} (inside : shift < w) (negate : Bool)
    {r : List (BitVec w)} {value : Nat}
    (shifted : unsigned r = value * 2^shift) :
    Outcome (remainderOf len shift negate r)
      (Denotes (if negate then -(value : Int) else value)) (DivisionRefused w len) := by
  have back : ∃ low, (if shift ≠ 0 then (mpShr r shift 0#w).1 else r) = low
      ∧ unsigned low = value ∧ low.length = r.length := by
    refine ⟨_, rfl, ?_⟩
    by_cases none : shift = 0
    · rw [if_neg (not_not.mpr none)]
      rw [none, Nat.pow_zero, Nat.mul_one] at shifted
      exact ⟨shifted, rfl⟩
    · obtain ⟨loop, length⟩ := mpShrLoop_spec inside 0#w r
      rw [if_pos none]
      refine ⟨?_, length⟩
      rw [BitVec.toNat_zero, Nat.zero_mod, Nat.mul_zero, Nat.add_zero, shifted] at loop
      have pos := Nat.two_pow_pos shift
      have small := Nat.mod_lt (mpShrLoop shift 0#w r).2.toNat pos
      have quotient := congrArg (· / 2^shift) loop
      simp only [Nat.mul_div_cancel _ pos] at quotient
      rwa [Nat.mul_comm, Nat.mul_add_div pos, Nat.div_eq_of_lt small, Nat.add_zero] at quotient
  obtain ⟨low, same, lowValue, lowLength⟩ := back
  rw [remainderOf]
  rw [same]
  have length := negated_length positive negate (low ++ [0#w])
  have limbs := signed_negated positive negate low
  rw [lowValue] at limbs
  rw [List.length_append, List.length_singleton, lowLength] at length
  generalize (if negate then (mpNeg (low ++ [0#w]) 1#w).1 else low ++ [0#w]) = tab at *
  have some_ : 0 < tab.length := by omega
  have within : tab.length
      ≤ JSBigInt.len ⟨tab ++ List.replicate (len - tab.length) 0#w⟩ := by
    rw [JSBigInt.len, List.length_append]
    omega
  have outcome : Outcome (jsBigintNormalize1
      ⟨tab ++ List.replicate (len - tab.length) 0#w⟩ tab.length) _ (SizeRefused w len) :=
    jsBigintNormalize1_denotes positive some_ within
  rw [List.take_left, limbs] at outcome
  exact outcome.mapError fun error refused => ⟨error, rfl, refused⟩

end Results

section Division

/-- Quotient and remainder by the absolute values -/
theorem tdiv_eq (a b : Int) : a.tdiv b
    = if xor (decide (a < 0)) (decide (b < 0)) then -((a.natAbs / b.natAbs : Nat) : Int)
      else ((a.natAbs / b.natAbs : Nat) : Int) := by
  rcases lt_or_ge a 0 with aNeg | aNonneg
  · obtain ⟨m, rfl⟩ : ∃ m : Nat, a = -m := ⟨a.natAbs, by omega⟩
    rcases lt_or_ge b 0 with bNeg | bNonneg
    · obtain ⟨n, rfl⟩ : ∃ n : Nat, b = -n := ⟨b.natAbs, by omega⟩
      rw [decide_eq_true aNeg, decide_eq_true bNeg]
      simp [Int.neg_tdiv, Int.tdiv_neg]
    · obtain ⟨n, rfl⟩ : ∃ n : Nat, b = n := ⟨b.natAbs, by omega⟩
      rw [decide_eq_true aNeg, decide_eq_false (not_lt.mpr bNonneg)]
      simp [Int.neg_tdiv]
  · obtain ⟨m, rfl⟩ : ∃ m : Nat, a = m := ⟨a.natAbs, by omega⟩
    rcases lt_or_ge b 0 with bNeg | bNonneg
    · obtain ⟨n, rfl⟩ : ∃ n : Nat, b = -n := ⟨b.natAbs, by omega⟩
      rw [decide_eq_false (not_lt.mpr aNonneg), decide_eq_true bNeg]
      simp [Int.tdiv_neg]
    · obtain ⟨n, rfl⟩ : ∃ n : Nat, b = n := ⟨b.natAbs, by omega⟩
      rw [decide_eq_false (not_lt.mpr aNonneg), decide_eq_false (not_lt.mpr bNonneg)]
      simp

theorem tmod_eq (a b : Int) : a.tmod b
    = if decide (a < 0) then -((a.natAbs % b.natAbs : Nat) : Int)
      else ((a.natAbs % b.natAbs : Nat) : Int) := by
  have divisor (m : Int) : m.tmod b = m.tmod b.natAbs := by
    rcases Int.natAbs_eq b with same | same
    · rw [← same]
    · conv_lhs => rw [same, Int.tmod_neg]
  rw [divisor]
  rcases lt_or_ge a 0 with aNeg | aNonneg
  · obtain ⟨m, rfl⟩ : ∃ m : Nat, a = -m := ⟨a.natAbs, by omega⟩
    rw [decide_eq_true aNeg, Int.neg_tmod, ← Int.ofNat_tmod]
    simp
  · obtain ⟨m, rfl⟩ : ∃ m : Nat, a = m := ⟨a.natAbs, by omega⟩
    rw [decide_eq_false (not_lt.mpr aNonneg), ← Int.ofNat_tmod]
    simp

variable (positive : 0 < w)
include positive

theorem absLimbs_nonzero {b : JSBigInt w} (nonempty : b.tab ≠ []) (nonzero : b.value ≠ 0) :
    (absLimbs b).getD ((absLimbs b).length - 1) 0#w ≠ 0#w := by
  obtain ⟨value, nonempty', -, top⟩ := absLimbs_spec positive nonempty
  by_cases many : 1 < (absLimbs b).length
  · exact top many
  · have single : (absLimbs b).length = 1 := by
      have some_ := List.length_pos_iff.mpr nonempty'
      omega
    intro zero
    have limb := single_limb single
    rw [zero, BitVec.toNat_zero, value] at limb
    omega

theorem jsBigintDivrem_denotes {a b : JSBigInt w} (aNormal : Normalized a.tab)
    (bNormal : Normalized b.tab) (nonzero : b.value ≠ 0) {fuel : Nat} (enough : 2 ≤ fuel)
    (isRem : Bool) :
    Outcome (jsBigintDivrem fuel a b isRem)
      (Denotes (if isRem then a.value.tmod b.value else a.value.tdiv b.value))
      (DivisionRefused w (a.len + 2)) := by
  obtain ⟨aValue, aNonempty, aLength, -⟩ := absLimbs_spec positive aNormal.nonempty
  obtain ⟨bValue, bNonempty, -, -⟩ := absLimbs_spec positive bNormal.nonempty
  have top := absLimbs_nonzero positive bNormal.nonempty nonzero
  have notZero : ¬ (b.len = 1 ∧ b.limb 0 = 0#w) := by
    rintro ⟨single, zero⟩
    apply nonzero
    rw [JSBigInt.value, limb_zero single, zero, signed_singleton, BitVec.toInt_zero]
  have aSign : decide (jsBigintSign a ≠ 0#w) = decide (a.value < 0) := by
    rw [decide_eq_decide]
    exact (jsBigintSign_ne_zero positive a).trans (negative_iff _)
  have bSign : decide (jsBigintSign b ≠ 0#w) = decide (b.value < 0) := by
    rw [decide_eq_decide]
    exact (jsBigintSign_ne_zero positive b).trans (negative_iff _)
  have allocates (len : Nat) (within : len ≤ a.len + 2) :
      Outcome (Allocating.mapError DivisionError.size (jsBigintNew w len)) (fun _ => True)
        (DivisionRefused w (a.len + 2)) := by
    apply (jsBigintNew_outcome w len).mapError
    intro error refused
    exact ⟨error, rfl, refused.1, lt_of_lt_of_le refused.2 within⟩
  have small : (absLimbs a).length < (absLimbs b).length →
      a.value.natAbs < b.value.natAbs := by
    intro shorter
    have above := weight_le bNonempty top
    have below := unsigned_lt (absLimbs a)
    rw [aValue] at below
    rw [bValue] at above
    have grows : 2^(w * (absLimbs a).length) ≤ 2^(w * ((absLimbs b).length - 1)) :=
      Nat.pow_le_pow_right (by norm_num) (Nat.mul_le_mul_left w (by omega))
    omega
  rw [jsBigintDivrem, if_neg notZero, aSign, bSign]
  apply Outcome.bind (allocates _ (le_refl _))
  intro _ _
  apply Outcome.bind Outcome.allocate
  intro _ _
  by_cases shorter : (absLimbs a).length < (absLimbs b).length
  · have less := small shorter
    rw [if_pos shorter]
    cases isRem with
    | true =>
        rw [if_pos rfl, if_pos rfl]
        apply Outcome.bind (allocates _ (by omega))
        intro _ _
        refine Outcome.pure ⟨aNormal, ?_⟩
        rw [tmod_eq, Nat.mod_eq_of_lt less]
        show a.value = _
        by_cases sign : a.value < 0
        · simp only [sign, decide_true, if_true]
          omega
        · simp only [sign, decide_false, Bool.false_eq_true, if_false]
          omega
    | false =>
        have zero : a.value.tdiv b.value = (0#w).toInt := by
          rw [tdiv_eq, Nat.div_eq_of_lt less, BitVec.toInt_zero]
          simp
        rw [if_neg Bool.false_ne_true, if_neg Bool.false_ne_true, zero]
        apply (jsBigintNewSi_denotes 0#w).mapError
        intro error refused
        exact ⟨error, rfl, refused.1, lt_of_lt_of_le refused.2 (by omega)⟩
  · rw [if_neg shorter]
    obtain ⟨taba, tabb, shifted, normal, tabbLength, long, short, dividend, divisor, inside⟩ :=
      @shiftDivisor_spec w positive (absLimbs a) _ bNonempty top
    dsimp only
    rw [shifted]
    dsimp only
    have some_ := List.length_pos_iff.mpr bNonempty
    apply Outcome.bind (allocates _ (by omega))
    intro _ _
    have longer : tabb.length ≤ taba.length := by omega
    obtain ⟨result, run, divided⟩ := plainDivnorm_spec normal enough longer
    rw [mpDivnorm_eq normal enough longer, run]
    obtain ⟨q, r⟩ := result
    have pos := Nat.two_pow_pos ((absLimbs b).getD ((absLimbs b).length - 1) 0#w).clz.toNat
    have quotient := divided.quotient
    have remainder := divided.remainder
    have rLength := divided.remainderLength
    dsimp only at quotient remainder rLength ⊢
    rw [dividend, divisor, aValue, bValue] at quotient remainder
    rw [Nat.mul_div_mul_right _ _ pos] at quotient
    rw [Nat.mul_mod_mul_right] at remainder
    cases isRem with
    | true =>
        rw [if_pos rfl, if_pos rfl, tmod_eq]
        exact remainderOf_denotes positive inside _ remainder
    | false =>
        rw [if_neg Bool.false_ne_true, if_neg Bool.false_ne_true, tdiv_eq, ← quotient]
        exact quotientOf_denotes positive _ q

/-- Division truncates toward zero, for a dividend whose block fits the size limit, and the
reciprocals do not change a limb. The loop that corrects a quotient limb runs at most twice. -/
structure DivisionExact (w : Nat) : Prop where
  divrem (a b : NormalBigInt w) : b.value ≠ 0 → ∃ q r : Int,
    a.value = q * b.value + r ∧ |r| < |b.value| ∧ (r = 0 ∨ r.sign = a.value.sign)
      ∧ ∀ fuel, 2 ≤ fuel →
        Outcome (jsBigintDivrem fuel a.toJSBigInt b.toJSBigInt false) (Denotes q)
          (DivisionRefused w (a.len + 2))
        ∧ Outcome (jsBigintDivrem fuel a.toJSBigInt b.toJSBigInt true) (Denotes r)
          (DivisionRefused w (a.len + 2))
  reciprocal (taba tabb : List (BitVec w)) : NormalDivisor tabb → tabb.length ≤ taba.length →
    ∀ fuel, 2 ≤ fuel → mpDivnorm fuel taba tabb = plainDivnorm fuel taba tabb
      ∧ ∃ result, mpDivnorm fuel taba tabb = some result ∧ Divided taba tabb result

omit positive in
theorem tmod_sign (a b : Int) : a.tmod b = 0 ∨ (a.tmod b).sign = a.sign := by
  rw [tmod_eq]
  rcases lt_trichotomy a 0 with below | zero | above
  · rw [decide_eq_true below, if_pos rfl, Int.sign_eq_neg_one_of_neg below]
    rcases Nat.eq_zero_or_pos (a.natAbs % b.natAbs) with none | some_
    · exact .inl (by rw [none]; rfl)
    · exact .inr (Int.sign_eq_neg_one_of_neg (by omega))
  · left
    simp [zero]
  · rw [decide_eq_false (by omega), if_neg Bool.false_ne_true, Int.sign_eq_one_of_pos above]
    rcases Nat.eq_zero_or_pos (a.natAbs % b.natAbs) with none | some_
    · exact .inl (by rw [none]; rfl)
    · exact .inr (Int.sign_eq_one_of_pos (by omega))

omit positive in
theorem bigInt_division_exact (limbBits : LimbBits) : DivisionExact limbBits.width := by
  have positive : 0 < limbBits.width := by cases limbBits <;> decide
  constructor
  case divrem =>
    intro a b nonzero
    refine ⟨a.value.tdiv b.value, a.value.tmod b.value, ?_, ?_, tmod_sign _ _, ?_⟩
    · rw [mul_comm]
      exact (Int.mul_tdiv_add_tmod _ _).symm
    · have some_ : 0 < b.value.natAbs := Int.natAbs_pos.mpr nonzero
      rw [Int.abs_eq_natAbs, Int.abs_eq_natAbs, Int.natAbs_tmod]
      exact_mod_cast Nat.mod_lt _ some_
    · intro fuel enough
      exact ⟨jsBigintDivrem_denotes positive a.normal b.normal nonzero enough false,
        jsBigintDivrem_denotes positive a.normal b.normal nonzero enough true⟩
  case reciprocal =>
    intro taba tabb normal long fuel enough
    obtain ⟨result, run, divided⟩ := plainDivnorm_spec normal enough long
    have same := mpDivnorm_eq normal enough long
    exact ⟨same, result, same.trans run, divided⟩

/-- The dividend of 16383 limbs -/
def longDividend : JSBigInt 64 := ⟨List.replicate 16382 0#64 ++ [1#64]⟩

omit positive in
theorem longDividend_normalized : Normalized longDividend.tab := by
  have tail : List.replicate 16382 0#64 ++ [1#64] = List.replicate 16381 0#64 ++ [0#64, 1#64] := by
    rw [List.replicate_succ', List.append_assoc]
    rfl
  rw [longDividend, tail]
  exact (normalized_append _ _ _).mpr (by decide)

omit positive in
/-- The block of the dividend has two more limbs, which the size limit refuses. -/
theorem longDividend_refused :
    ¬ ∀ (a b : NormalBigInt 64), b.value ≠ 0 → ∃ fuel, ∀ isRem, ∃ r rest,
      jsBigintDivrem fuel a.toJSBigInt b.toJSBigInt isRem [] = .ok r rest := by
  intro divides
  have single : JSBigInt.value (⟨[1#64]⟩ : JSBigInt 64) = 1 := by
    rw [JSBigInt.value, signed_singleton]
    decide
  have nonzero : JSBigInt.value (⟨[1#64]⟩ : JSBigInt 64) ≠ 0 := by
    rw [single]
    decide
  obtain ⟨fuel, result⟩ := divides ⟨longDividend, longDividend_normalized⟩
    ⟨⟨[1#64]⟩, normalized_singleton _⟩ nonzero
  obtain ⟨r, rest, run⟩ := result false
  have len : longDividend.len = 16383 := by
    rw [JSBigInt.len, longDividend, List.length_append, List.length_replicate]
    rfl
  have refused : jsBigintNew 64 (longDividend.len + 2)
      = throw (.thrown .tooLargeToAllocate) := by
    rw [len, jsBigintNew]
    exact if_pos (by decide)
  have notZero : ¬ (JSBigInt.len (⟨[1#64]⟩ : JSBigInt 64) = 1
      ∧ JSBigInt.limb (⟨[1#64]⟩ : JSBigInt 64) 0 = 0#64) := by decide
  rw [jsBigintDivrem, if_neg notZero, refused] at run
  cases run

end Division

end PrimJs.BigInt
