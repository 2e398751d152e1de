import PrimJs.Numeric.BigIntLoops

/-! Each operation returns the normal form of the exact integer. -/

namespace PrimJs.BigInt

open Limbs Allocating

variable {w : Nat}

def JSBigInt.value (a : JSBigInt w) : Int := signed a.tab

/-- A `BigInt` of the engine: no limb at the top is redundant. -/
structure NormalBigInt (w : Nat) extends JSBigInt w where
  normal : Normalized tab

/-- The result is `x` in normal form. -/
def Denotes (x : Int) (r : JSBigInt w) : Prop := Normalized r.tab ∧ r.value = x

theorem Denotes.unique (positive : 0 < w) {x : Int} {r r' : JSBigInt w} (left : Denotes x r)
    (right : Denotes x r') : r = r' := by
  have tabs := left.1.eq_of_signed_eq positive right.1 (left.2.trans right.2.symm)
  cases r
  cases r'
  exact congrArg JSBigInt.mk tabs

section Sign

variable (positive : 0 < w)
include positive

theorem signBit (x : BitVec w) : x >>> (w - 1) = if x.msb then 1#w else 0#w := by
  have one : (1#w).toNat = 1 := BitVec.toNat_one positive
  have bound := x.isLt
  have half : 2^w = 2^(w - 1) * 2 := by
    rw [← Nat.pow_succ]
    congr 1
    omega
  apply BitVec.eq_of_toNat_eq
  rw [BitVec.toNat_ushiftRight, Nat.shiftRight_eq_div_pow, BitVec.msb_eq_decide]
  by_cases top : 2^(w - 1) ≤ x.toNat
  · have quotient : x.toNat / 2^(w - 1) = 1 := by
      apply Nat.div_eq_of_lt_le <;> omega
    simp [top, quotient, one]
  · have quotient : x.toNat / 2^(w - 1) = 0 := Nat.div_eq_of_lt (Nat.lt_of_not_le top)
    simp [top, quotient]

theorem one_ne_zero_limb : (1#w) ≠ 0#w := by
  intro same
  have numbers := congrArg BitVec.toNat same
  rw [BitVec.toNat_one positive, BitVec.toNat_zero] at numbers
  omega

theorem allOnes_ne_zero : BitVec.allOnes w ≠ 0#w := by
  intro same
  have signs := congrArg BitVec.msb same
  simp [BitVec.msb_allOnes positive] at signs

omit positive in
theorem limb_getLast (a : JSBigInt w) :
    (a.limb (a.len - 1)).msb = negative a.tab := by
  rw [JSBigInt.limb, JSBigInt.len, List.getD_eq_getElem?_getD, ← List.getLast?_eq_getElem?,
    negative]
  cases a.tab.getLast? <;> simp

theorem jsBigintSign_eq (a : JSBigInt w) :
    jsBigintSign a = if negative a.tab then 1#w else 0#w := by
  rw [jsBigintSign, signBit positive, limb_getLast]

theorem jsBigintSign_ne_zero (a : JSBigInt w) : jsBigintSign a ≠ 0#w ↔ negative a.tab = true := by
  rw [jsBigintSign_eq positive]
  by_cases sign : negative a.tab = true <;> simp [sign, one_ne_zero_limb positive]

theorem neg_jsBigintSign (a : JSBigInt w) : -jsBigintSign a = signLimb a.tab := by
  rw [jsBigintSign_eq positive, signLimb]
  by_cases sign : negative a.tab = true
  · simp [sign, BitVec.neg_one_eq_allOnes]
  · simp [sign]

omit positive in
theorem negative_iff (tab : List (BitVec w)) : negative tab = true ↔ signed tab < 0 := by
  have bound := unsigned_lt tab
  rw [signed, signWeight]
  by_cases sign : negative tab = true <;> simp [sign]
  exact_mod_cast bound

theorem keepsLimb_eq (v below : BitVec w) : keepsLimb v below = false ↔ v = signLimb [below] := by
  have low : BitVec.allOnes w &&& 1#w = 1#w := BitVec.allOnes_and
  rw [keepsLimb, signBit positive, signLimb, negative_singleton]
  by_cases top : below.msb = true
  · by_cases zero : v = 0#w
    · simp [zero, top, (allOnes_ne_zero positive).symm]
      omega
    · by_cases ones : v = BitVec.allOnes w <;> simp [zero, ones, top, low]
  · by_cases zero : v = 0#w
    · simp [zero, top]
    · by_cases ones : v = BitVec.allOnes w <;>
        simp [zero, ones, top, low, one_ne_zero_limb positive, allOnes_ne_zero positive]

end Sign

section Trim

theorem take_two {tab : List (BitVec w)} {l : Nat} (inside : l + 2 ≤ tab.length) :
    tab.take (l + 2) = tab.take l ++ [tab.getD l 0#w, tab.getD (l + 1) 0#w] := by
  have first : l < tab.length := by omega
  have second : l + 1 < tab.length := by omega
  have outer := List.take_append_getElem second
  have inner := List.take_append_getElem first
  rw [← outer, ← inner, List.append_assoc]
  simp [first, second]

variable (positive : 0 < w)
include positive

theorem trimmedLen_spec (tab : List (BitVec w)) {l : Nat} (some_ : 0 < l) (inside : l ≤ tab.length) :
    0 < trimmedLen tab l ∧ trimmedLen tab l ≤ l ∧ Normalized (tab.take (trimmedLen tab l))
      ∧ signed (tab.take (trimmedLen tab l)) = signed (tab.take l) := by
  induction l with
  | zero => omega
  | succ l ih =>
      cases l with
      | zero =>
          refine ⟨some_, le_refl _, ?_, rfl⟩
          rw [trimmedLen, List.take_one, List.head?_eq_getElem?, List.getElem?_eq_getElem inside]
          · exact normalized_singleton _
          · simp
      | succ l =>
          rw [trimmedLen]
          by_cases keeps : keepsLimb (tab.getD (l + 1) 0#w) (tab.getD l 0#w) = true
          · rw [if_pos keeps, take_two inside]
            refine ⟨some_, le_refl _, ?_, rfl⟩
            apply (normalized_append _ _ _).mpr
            intro same
            rw [(keepsLimb_eq positive _ _).mpr same] at keeps
            exact Bool.false_ne_true keeps
          · rw [if_neg keeps]
            have redundant : tab.getD (l + 1) 0#w = signLimb [tab.getD l 0#w] :=
              (keepsLimb_eq positive _ _).mp (Bool.eq_false_iff.mpr keeps)
            obtain ⟨pos, le, normal, value⟩ := ih (by omega) (by omega)
            refine ⟨pos, by omega, normal, value.trans ?_⟩
            rw [take_two inside, redundant]
            have first : l < tab.length := by omega
            have front : tab.take (l + 1) = tab.take l ++ [tab.getD l 0#w] := by
              rw [List.take_add_one]
              simp [first]
            have extension : tab.take l ++ [tab.getD l 0#w, signLimb [tab.getD l 0#w]]
                = tab.take l ++ ([tab.getD l 0#w] ++ List.replicate 1 (signLimb [tab.getD l 0#w])) := by
              simp
            rw [front, extension, signed_append _ (by simp), signed_append _ (by simp),
              signed_append_signLimb positive]

end Trim

section Allocation

/-- `len` limbs are over the size limit. -/
def SizeRefused (w len : Nat) (error : RangeError) : Prop :=
  error = .tooLargeToAllocate ∧ maxSize w < len

theorem jsBigintNew_outcome (w len : Nat) :
    Outcome (jsBigintNew w len) (fun _ => True) (SizeRefused w len) := by
  rw [jsBigintNew]
  by_cases large : maxSize w < len
  · rw [if_pos large]
    exact Outcome.thrown ⟨rfl, large⟩
  · rw [if_neg large]
    exact Outcome.allocate

theorem new_then_pure {len : Nat} {r : JSBigInt w} {x : Int} (result : Denotes x r) :
    Outcome (do jsBigintNew w len; pure r) (Denotes x) (SizeRefused w len) := by
  apply Outcome.bind (jsBigintNew_outcome w len)
  intro _ _
  exact Outcome.pure result

theorem jsBigintNewSi_denotes (a : BitVec w) :
    Outcome (jsBigintNewSi a) (Denotes a.toInt) (SizeRefused w 1) :=
  new_then_pure ⟨normalized_singleton a, signed_singleton a⟩

variable (positive : 0 < w)
include positive

theorem jsBigintNewFromTab_denotes {tab : List (BitVec w)} (nonempty : tab ≠ []) :
    Outcome (jsBigintNewFromTab tab) (Denotes (signed tab)) (SizeRefused w tab.length) := by
  obtain ⟨-, le, normal, value⟩ :=
    trimmedLen_spec positive tab (List.length_pos_iff.mpr nonempty) (le_refl _)
  rw [List.take_length] at value
  have outcome : Outcome (jsBigintNewFromTab tab) (Denotes (signed tab))
      (SizeRefused w (trimmedLen tab tab.length)) := new_then_pure ⟨normal, value⟩
  exact outcome.mono (fun _ denotes => denotes) fun _ refused => ⟨refused.1, by
    have bound := refused.2
    omega⟩

theorem jsBigintNormalize_denotes {a : JSBigInt w} (nonempty : a.tab ≠ [])
    {fails : RangeError → Prop} : Outcome (jsBigintNormalize a) (Denotes a.value) fails := by
  have whole : a.tab.take a.len = a.tab := List.take_length
  obtain ⟨-, le, normal, value⟩ :=
    trimmedLen_spec positive a.tab (l := a.len) (List.length_pos_iff.mpr nonempty) (le_refl _)
  rw [whole] at value
  rw [jsBigintNormalize, jsBigintNormalize1]
  by_cases shorter : trimmedLen a.tab a.len ≠ a.len
  · rw [if_pos shorter]
    apply Outcome.bind Outcome.tryAllocate
    intro _ _
    exact Outcome.pure ⟨normal, value⟩
  · rw [if_neg shorter]
    rw [Decidable.not_not.mp shorter, whole] at normal
    exact Outcome.pure ⟨normal, rfl⟩

theorem normalized_large {a : JSBigInt w} (normal : Normalized a.tab)
    (nonzero : a.value ≠ 0) : 2^(w * (a.len - 1) - 1) ≤ a.value.natAbs := by
  rcases Nat.lt_or_ge 1 a.len with many | single
  · have outside := normal.not_fits positive (n := a.len - 1) (Nat.sub_lt (by omega) (by decide))
      (by omega)
    rw [Fits, ← JSBigInt.value] at outside
    by_contra small
    have small' : (a.value.natAbs : Int) < 2^(w * (a.len - 1) - 1) := by
      exact_mod_cast Nat.lt_of_not_le small
    exact outside ⟨by omega, by omega⟩
  · have none_ : w * (a.len - 1) - 1 = 0 := by
      rw [show a.len - 1 = 0 by omega, Nat.mul_zero]
    rw [none_]
    omega

omit positive in
theorem limb_zero {a : JSBigInt w} (single : a.len = 1) : a.tab = [a.limb 0] := by
  obtain ⟨x, only⟩ := List.length_eq_one_iff.mp single
  rw [JSBigInt.limb, only]
  rfl

omit positive in
theorem limbs_split {a : JSBigInt w} (nonempty : a.tab ≠ []) :
    ∃ low, a.tab = low ++ [a.limb (a.len - 1)] := by
  refine ⟨a.tab.dropLast, ?_⟩
  have last : a.limb (a.len - 1) = a.tab.getLast nonempty := by
    rw [JSBigInt.limb, JSBigInt.len, List.getD_eq_getElem?_getD, ← List.getLast?_eq_getElem?,
      List.getLast?_eq_some_getLast nonempty, Option.getD_some]
  rw [last, List.dropLast_concat_getLast nonempty]

theorem jsBigintExtend_denotes {r : JSBigInt w} (nonempty : r.tab ≠ []) (op1 : BitVec w)
    {fails : RangeError → Prop} :
    Outcome (jsBigintExtend r op1) (Denotes (signed (r.tab ++ [op1]))) fails := by
  obtain ⟨low, split_⟩ := limbs_split nonempty
  rw [jsBigintExtend]
  by_cases keeps : keepsLimb op1 (r.limb (r.len - 1)) = true
  · rw [if_pos keeps]
    apply Outcome.bind Outcome.allocate
    intro _ _
    refine Outcome.pure ⟨?_, rfl⟩
    show Normalized (r.tab ++ [op1])
    rw [split_, List.append_assoc]
    apply (normalized_append _ _ _).mpr
    intro same
    rw [(keepsLimb_eq positive _ _).mpr same] at keeps
    exact Bool.false_ne_true keeps
  · rw [if_neg keeps]
    have redundant := (keepsLimb_eq positive _ _).mp (Bool.eq_false_iff.mpr keeps)
    have sign : signLimb [r.limb (r.len - 1)] = signLimb r.tab := by
      rw [signLimb, signLimb, negative_singleton, limb_getLast]
    have value := signed_append_signLimb positive 1 r.tab
    rw [List.replicate_one, ← sign, ← redundant] at value
    rw [value]
    exact jsBigintNormalize_denotes positive nonempty

theorem splitDouble_sshiftRight (a : BitVec (2 * w)) :
    splitDouble a = (a.setWidth w, (a.sshiftRight w).setWidth w) := by
  rw [splitDouble, Prod.mk.injEq]
  refine ⟨rfl, ?_⟩
  apply BitVec.eq_of_getLsbD_eq
  intro i inside
  rw [BitVec.getLsbD_setWidth, BitVec.getLsbD_setWidth, BitVec.getLsbD_ushiftRight,
    BitVec.getLsbD_sshiftRight]
  have outer : w + i < 2 * w := by omega
  have inner : ¬ 2 * w ≤ i := by omega
  simp [outer, inner]

theorem signed_splitDouble (a : BitVec (2 * w)) :
    signed [(splitDouble a).1, (splitDouble a).2] = a.toInt := by
  have limbs := splitDouble_spec a
  have length : w * [(splitDouble a).1, (splitDouble a).2].length = 2 * w := by
    simp [Nat.mul_comm]
  have value : unsigned [(splitDouble a).1, (splitDouble a).2] = a.toNat := by
    simpa using limbs
  have residue := (signed_modEq [a]).symm
  rw [signed_singleton, List.length_singleton, Nat.mul_one] at residue
  apply signed_eq positive (List.cons_ne_nil _ _)
  · rw [length]
    exact BitVec.le_toInt a
  · rw [length]
    exact BitVec.toInt_lt
  · rw [length, value]
    simpa using residue

theorem jsBigintNewDi_denotes (a : BitVec (2 * w)) :
    Outcome (jsBigintNewDi a) (Denotes a.toInt) (SizeRefused w 2) := by
  have wide : w ≤ 2 * w := by omega
  have extends_ (x : BitVec w) : (x.signExtend (2 * w)).toInt = x.toInt :=
    BitVec.toInt_signExtend_of_le wide
  have value := signed_splitDouble positive a
  rw [splitDouble_sshiftRight positive] at value
  rw [jsBigintNewDi]
  by_cases short : a = (a.setWidth w).signExtend (2 * w)
  · rw [if_pos short]
    have number : (a.setWidth w).toInt = a.toInt := by
      rw [← extends_, ← short]
    have outcome := jsBigintNewSi_denotes (a.setWidth w)
    rw [number] at outcome
    exact outcome.mono (fun _ denotes => denotes) fun _ refused => ⟨refused.1, by
      have bound := refused.2
      omega⟩
  · rw [if_neg short]
    apply new_then_pure
    refine ⟨(normalized_append [] _ _).mpr fun redundant => short ?_, value⟩
    have extension := signed_append_signLimb positive 1 [a.setWidth w]
    rw [List.replicate_one, ← redundant, List.singleton_append, value, signed_singleton] at extension
    apply BitVec.eq_of_toInt_eq
    rw [extends_, extension]

end Allocation

section Double

variable (positive : 0 < w)
include positive

theorem toInt_slimbs (x : BitVec w) : (slimbs x).toInt = x.toInt :=
  BitVec.toInt_signExtend_of_le (by omega)

omit positive in
theorem bmod_double {x : Int} (low : -(2^w * 2^w : Int) ≤ 2 * x) (high : 2 * x < 2^w * 2^w) :
    x.bmod (2^(2 * w)) = x := by
  have square : ((2^(2 * w) : Nat) : Int) = 2^w * 2^w := by
    push_cast
    rw [Nat.two_mul, pow_add]
  apply Int.bmod_eq_of_le_mul_two
  · rw [square]
    linarith
  · rw [square]
    linarith

section

variable (x y : BitVec w)

theorem slimbs_bounds :
    -(2^w : Int) ≤ 2 * x.toInt ∧ 2 * x.toInt < 2^w ∧ -(2^w : Int) ≤ 2 * y.toInt ∧ 2 * y.toInt < 2^w
      ∧ (2 : Int) ≤ 2^w := by
  have two : (2 : Int)^1 ≤ 2^w := pow_le_pow_right₀ (by norm_num) positive
  exact ⟨BitVec.le_two_mul_toInt, BitVec.two_mul_toInt_lt, BitVec.le_two_mul_toInt,
    BitVec.two_mul_toInt_lt, by linarith⟩

theorem toInt_slimbs_add : (slimbs x + slimbs y).toInt = x.toInt + y.toInt := by
  obtain ⟨xLow, xHigh, yLow, yHigh, two⟩ := slimbs_bounds positive x y
  rw [BitVec.toInt_add, toInt_slimbs positive, toInt_slimbs positive]
  apply bmod_double <;> nlinarith

theorem toInt_slimbs_sub : (slimbs x - slimbs y).toInt = x.toInt - y.toInt := by
  obtain ⟨xLow, xHigh, yLow, yHigh, two⟩ := slimbs_bounds positive x y
  rw [BitVec.toInt_sub, toInt_slimbs positive, toInt_slimbs positive]
  apply bmod_double <;> nlinarith

theorem toInt_slimbs_mul : (slimbs x * slimbs y).toInt = x.toInt * y.toInt := by
  obtain ⟨xLow, xHigh, yLow, yHigh, two⟩ := slimbs_bounds positive x y
  rw [BitVec.toInt_mul, toInt_slimbs positive, toInt_slimbs positive]
  apply bmod_double <;> nlinarith

end

end Double

end PrimJs.BigInt
