import PrimJs.Numeric.BigIntSpec

/-! Addition and subtraction. -/

namespace PrimJs.BigInt

open Limbs Allocating

variable {w : Nat}

section Addition

variable (positive : 0 < w)
include positive

/-- The carry and the two sign limbs make the limb above the sum. -/
theorem signed_sum {x y tab : List (BitVec w)} {c carry : BitVec w} (nonempty : x ≠ [])
    (lengths : y.length = x.length) (length : tab.length = x.length) (small : c.toNat ≤ 1)
    (sum : unsigned tab + 2^(w * x.length) * carry.toNat = unsigned x + unsigned y + c.toNat) :
    signed (tab ++ [signLimb x + signLimb y + carry]) = signed x + signed y + c.toNat := by
  have nonempty' : y ≠ [] := by
    rw [← List.length_pos_iff, lengths]
    exact List.length_pos_iff.mpr nonempty
  obtain ⟨xLow, xHigh⟩ := fits_signed positive nonempty
  obtain ⟨yLow, yHigh⟩ := fits_signed positive nonempty'
  rw [lengths] at yLow yHigh
  have bits : 0 < w * x.length := Nat.mul_pos positive (List.length_pos_iff.mpr nonempty)
  have width : w * (tab ++ [signLimb x + signLimb y + carry]).length
      = w * x.length + w := by
    rw [List.length_append, List.length_singleton, length, Nat.mul_succ]
  have double_ : (2 : Int) * 2^(w * x.length - 1) ≤ 2^(w * x.length + w - 1) := by
    rw [← pow_succ']
    exact pow_le_pow_right₀ (by norm_num) (by omega)
  have cBound : (c.toNat : Int) ≤ 1 := by exact_mod_cast small
  have cPos : (0 : Int) ≤ c.toNat := Int.natCast_nonneg _
  apply signed_eq positive (by simp)
  · rw [width]
    linarith
  · rw [width]
    linarith
  rw [width, unsigned_append, length, unsigned_cons, unsigned_nil, signed_eq_signBitOf x,
    signed_eq_signBitOf y, lengths]
  have top : ((signLimb x + signLimb y + carry).toNat : Int)
      ≡ -signBitOf x + -signBitOf y + carry.toNat [ZMOD 2^w] := by
    rw [BitVec.toNat_add, BitVec.toNat_add]
    push_cast
    rw [Int.emod_add_emod]
    exact (Int.mod_modEq _ _).trans
      (((signLimb_modEq x).add (signLimb_modEq y)).add (Int.ModEq.refl _))
  have sum' : (unsigned tab : Int) + 2^(w * x.length) * carry.toNat
      = unsigned x + unsigned y + c.toNat := by exact_mod_cast sum
  have scaled := Int.ModEq.mul_left' top (c := 2^(w * x.length))
  rw [← pow_add] at scaled
  push_cast
  rw [mul_zero, add_zero]
  calc
    (unsigned tab : Int) + 2^(w * x.length) * (signLimb x + signLimb y + carry).toNat
      ≡ unsigned tab + 2^(w * x.length) * (-signBitOf x + -signBitOf y + carry.toNat)
        [ZMOD 2^(w * x.length + w)] := (Int.ModEq.refl _).add scaled
    _ = _ := by linarith

omit positive in
theorem addcLoop_append (carry : BitVec w) (front rest : List (BitVec w × BitVec w)) :
    addcLoop carry (front ++ rest)
      = ((addcLoop carry front).1 ++ (addcLoop (addcLoop carry front).2 rest).1,
          (addcLoop (addcLoop carry front).2 rest).2) := by
  induction front generalizing carry with
  | nil => rfl
  | cons pair front ih =>
      obtain ⟨op1, op2⟩ := pair
      simp only [List.cons_append, addcLoop, ih]

/-- The limbs of both operands, the shorter one continued with its sign. -/
def columns (x y : List (BitVec w)) : List (BitVec w × BitVec w) :=
  (x ++ List.replicate (y.length - x.length) (signLimb x)).zip
    (y ++ List.replicate (x.length - y.length) (signLimb y))

omit positive in
theorem addcLoop_columns (carry : BitVec w) (x y : List (BitVec w)) :
    (let (common, carry) := addcLoop carry (x.zip y)
     let (extension, carry) :=
      if y.length < x.length then
        addcLoop carry ((x.drop (min x.length y.length)).map fun op1 => (op1, signLimb y))
      else if x.length < y.length then
        addcLoop carry ((y.drop (min x.length y.length)).map fun op2 => (signLimb x, op2))
      else ([], carry)
     (common ++ extension, carry)) = addcLoop carry (columns x y) := by
  have pairs (front rest : List (BitVec w)) (limb : BitVec w) :
      rest.map (fun op1 => (op1, limb)) = rest.zip (List.replicate rest.length limb)
      ∧ rest.map (fun op2 => (limb, op2)) = (List.replicate rest.length limb).zip rest := by
    induction rest with
    | nil => simp
    | cons z rest ih => simp [List.replicate_succ, ih]
  rcases Nat.lt_trichotomy x.length y.length with shorter | same | longer
  · have shape : columns x y
        = x.zip y ++ ((y.drop (min x.length y.length)).map fun op2 => (signLimb x, op2)) := by
      have le := Nat.le_of_lt shorter
      rw [columns, Nat.sub_eq_zero_of_le le, List.replicate_zero, List.append_nil,
        Nat.min_eq_left le, (pairs x _ _).2, List.length_drop]
      conv_lhs => rw [← List.take_append_drop x.length y]
      rw [List.zip_append (by simp [le])]
      congr 1
      · rw [@List.zip_eq_zip_take_min _ _ x y, Nat.min_eq_left le, List.take_length]
      · rw [List.take_append_drop]
    have other : ¬ y.length < x.length := by omega
    simp only [if_neg other, if_pos shorter]
    rw [shape, addcLoop_append]
  · have shape : columns x y = x.zip y := by
      simp [columns, same]
    have other : ¬ y.length < x.length := by omega
    have other' : ¬ x.length < y.length := by omega
    simp only [if_neg other, if_neg other', List.append_nil]
    rw [shape]
  · have shape : columns x y
        = x.zip y ++ ((x.drop (min x.length y.length)).map fun op1 => (op1, signLimb y)) := by
      have le := Nat.le_of_lt longer
      rw [columns, Nat.sub_eq_zero_of_le le, List.replicate_zero, List.append_nil,
        Nat.min_eq_right le, (pairs x _ _).1, List.length_drop]
      conv_lhs => rw [← List.take_append_drop y.length x]
      rw [List.zip_append (by simp [le])]
      congr 1
      · rw [@List.zip_eq_zip_take_min _ _ x y, Nat.min_eq_right le, List.take_length]
      · rw [List.take_append_drop]
    simp only [if_pos longer]
    rw [shape, addcLoop_append]

theorem columns_sum {x y : List (BitVec w)} {c : BitVec w} (nonempty : x ≠ [])
    (small : c.toNat ≤ 1) :
    signed ((addcLoop c (columns x y)).1
        ++ [signLimb x + signLimb y + (addcLoop c (columns x y)).2])
      = signed x + signed y + c.toNat
      ∧ (addcLoop c (columns x y)).1.length = max x.length y.length := by
  obtain ⟨sum, -, length⟩ := addcLoop_spec positive (columns x y) small
  have lengths : (x ++ List.replicate (y.length - x.length) (signLimb x)).length
      = (y ++ List.replicate (x.length - y.length) (signLimb y)).length := by
    simp only [List.length_append, List.length_replicate]
    omega
  have longest : (x ++ List.replicate (y.length - x.length) (signLimb x)).length
      = max x.length y.length := by
    simp only [List.length_append, List.length_replicate]
    omega
  have total : (columns x y).length
      = (x ++ List.replicate (y.length - x.length) (signLimb x)).length := by
    rw [columns, List.length_zip, ← lengths, Nat.min_self]
  have sameSign (z : List (BitVec w)) (n : Nat) :
      signLimb (z ++ List.replicate n (signLimb z)) = signLimb z := by
    rw [signLimb, negative_append_signLimb positive, signLimb]
  rw [total, columns, List.map_fst_zip (le_of_eq lengths), List.map_snd_zip (ge_of_eq lengths),
    ← columns] at sum
  have value := signed_sum positive (by simp [nonempty]) lengths.symm (length.trans total) small sum
  rw [sameSign, sameSign, signed_append_signLimb positive, signed_append_signLimb positive] at value
  exact ⟨value, (length.trans total).trans longest⟩

omit positive in
theorem xor_negMask (bNeg : Bool) (tab : List (BitVec w)) :
    tab.map (· ^^^ negMask bNeg) = if bNeg then tab.map (~~~ ·) else tab := by
  cases bNeg with
  | false => simp [negMask]
  | true => simp [negMask, BitVec.xor_allOnes]

def addResult (x y : Int) (bNeg : Bool) : Int := if bNeg then x - y else x + y

theorem jsBigintAddTab_eq {a b : JSBigInt w} (bNonempty : b.tab ≠ []) (bNeg : Bool) :
    let y := b.tab.map (· ^^^ negMask bNeg)
    jsBigintAddTab a b bNeg
      = ((addcLoop (limbOf bNeg) (columns a.tab y)).1,
          signLimb a.tab + signLimb y + (addcLoop (limbOf bNeg) (columns a.tab y)).2) := by
  intro y
  have bSign : (-jsBigintSign b) ^^^ negMask bNeg = signLimb y := by
    rw [neg_jsBigintSign positive]
    show _ = signLimb (b.tab.map _)
    rw [xor_negMask]
    cases bNeg with
    | false => simp [negMask]
    | true => simp [negMask, BitVec.xor_allOnes, signLimb_not positive bNonempty]
  have lengths : b.len = y.length := by simp [y, JSBigInt.len]
  have loops := addcLoop_columns (limbOf bNeg) a.tab y
  rw [jsBigintAddTab, bSign, neg_jsBigintSign positive, lengths, ← loops]
  rfl

section

variable {a b : JSBigInt w} (aNonempty : a.tab ≠ []) (bNonempty : b.tab ≠ []) (bNeg : Bool)

include aNonempty bNonempty

theorem addTab_value :
    signed ((jsBigintAddTab a b bNeg).1 ++ [(jsBigintAddTab a b bNeg).2])
        = addResult a.value b.value bNeg
      ∧ (jsBigintAddTab a b bNeg).1.length = max a.len b.len := by
  have small : (limbOf bNeg : BitVec w).toNat ≤ 1 := by
    rw [toNat_limbOf positive]
    exact Bool.toNat_le bNeg
  obtain ⟨value, length⟩ := columns_sum positive (y := b.tab.map (· ^^^ negMask bNeg)) aNonempty small
  rw [jsBigintAddTab_eq positive bNonempty]
  rw [List.length_map] at length
  refine ⟨value.trans ?_, length⟩
  rw [toNat_limbOf positive, xor_negMask]
  cases bNeg with
  | false => simp [addResult, JSBigInt.value]
  | true =>
      simp only [addResult, if_true, JSBigInt.value, signed_not positive bNonempty]
      simp
      ring

theorem addOnStack_denotes :
    Outcome (addOnStack a b bNeg) (Denotes (addResult a.value b.value bNeg))
      (SizeRefused w (max a.len b.len + 1)) := by
  obtain ⟨value, length⟩ := addTab_value positive aNonempty bNonempty bNeg
  have some_ : (jsBigintAddTab a b bNeg).1 ++ [(jsBigintAddTab a b bNeg).2] ≠ [] := by simp
  have outcome := jsBigintNewFromTab_denotes positive some_
  rw [value, List.length_append, length, List.length_singleton] at outcome
  exact outcome

theorem addOnHeap_denotes :
    Outcome (addOnHeap a b bNeg) (Denotes (addResult a.value b.value bNeg))
      (SizeRefused w (max a.len b.len)) := by
  obtain ⟨value, length⟩ := addTab_value positive aNonempty bNonempty bNeg
  have pos : 0 < a.len := List.length_pos_iff.mpr aNonempty
  have nonempty : (jsBigintAddTab a b bNeg).1 ≠ [] := by
    rw [← List.length_pos_iff, length]
    omega
  rw [← value]
  apply Outcome.bind (jsBigintNew_outcome w _)
  intro _ _
  exact jsBigintExtend_denotes positive (r := ⟨_⟩) nonempty _

end

theorem jsBigintAdd_denotes (sized : stackLimbs ≤ maxSize w) {a b : JSBigInt w}
    (aNonempty : a.tab ≠ []) (bNonempty : b.tab ≠ []) (bNeg : Bool) :
    Outcome (jsBigintAdd a b bNeg) (Denotes (addResult a.value b.value bNeg))
      (SizeRefused w (max a.len b.len)) := by
  rw [jsBigintAdd]
  by_cases short : a.len = 1 ∧ b.len = 1
  · rw [if_pos short]
    have outcome := jsBigintNewDi_denotes positive
      (if bNeg then slimbs (a.limb 0) - slimbs (b.limb 0)
        else slimbs (a.limb 0) + slimbs (b.limb 0))
    have value : BitVec.toInt (if bNeg then slimbs (a.limb 0) - slimbs (b.limb 0)
        else slimbs (a.limb 0) + slimbs (b.limb 0)) = addResult a.value b.value bNeg := by
      rw [JSBigInt.value, JSBigInt.value, limb_zero short.1, limb_zero short.2,
        signed_singleton, signed_singleton, addResult]
      cases bNeg with
      | false => exact toInt_slimbs_add positive _ _
      | true => exact toInt_slimbs_sub positive _ _
    rw [value] at outcome
    refine outcome.mono (fun _ denotes => denotes) fun error refused => absurd refused.2 ?_
    rw [stackLimbs] at sized
    omega
  · rw [if_neg short]
    by_cases onStack : jsBigintAddOnStack a b = true
    · rw [if_pos onStack]
      have outcome := addOnStack_denotes positive aNonempty bNonempty bNeg
      refine outcome.mono (fun _ denotes => denotes) fun error refused => absurd refused.2 ?_
      have bound : max a.len b.len < stackLimbs := by simpa [jsBigintAddOnStack] using onStack
      omega
    · rw [if_neg onStack]
      exact addOnHeap_denotes positive aNonempty bNonempty bNeg

theorem jsBigintNeg_denotes (sized : stackLimbs ≤ maxSize w) {a : JSBigInt w}
    (nonempty : a.tab ≠ []) :
    Outcome (jsBigintNeg a) (Denotes (-a.value)) (SizeRefused w a.len) := by
  have outcome := jsBigintAdd_denotes positive sized (a := ⟨[0#w]⟩) (List.cons_ne_nil _ _)
    nonempty true
  have zero : JSBigInt.value (⟨[0#w]⟩ : JSBigInt w) = 0 := by
    rw [JSBigInt.value, signed_singleton, BitVec.toInt_zero]
  have some_ : 0 < a.len := List.length_pos_iff.mpr nonempty
  have longest : max (JSBigInt.len (⟨[0#w]⟩ : JSBigInt w)) a.len = a.len := Nat.max_eq_right some_
  rw [zero, longest, addResult, if_pos rfl, zero_sub] at outcome
  exact outcome

end Addition

end PrimJs.BigInt
