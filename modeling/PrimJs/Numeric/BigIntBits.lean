import PrimJs.Numeric.BigIntSpec
import Mathlib.Tactic.LinearCombination

/-! Logic operations and shifts. -/

namespace PrimJs.BigInt

open Limbs Allocating

variable {w : Nat}

section Logic

def LogicOp.onBools : LogicOp → Bool → Bool → Bool
  | .or => Bool.or
  | .and => Bool.and
  | .xor => Bool.xor

def LogicOp.onInts : LogicOp → Int → Int → Int
  | .or => Int.lor
  | .and => Int.land
  | .xor => Int.xor

theorem LogicOp.getLsbD_apply (op : LogicOp) (x y : BitVec w) (i : Nat) :
    (op.apply x y).getLsbD i = op.onBools (x.getLsbD i) (y.getLsbD i) := by
  cases op with
  | or => exact BitVec.getLsbD_or
  | and => exact BitVec.getLsbD_and
  | xor => exact BitVec.getLsbD_xor

theorem LogicOp.testBit_onInts (op : LogicOp) (m n : Int) (i : Nat) :
    (op.onInts m n).testBit i = op.onBools (m.testBit i) (n.testBit i) := by
  cases op with
  | or => exact Int.testBit_lor m n i
  | and => exact Int.testBit_land m n i
  | xor => exact Int.testBit_lxor m n i

theorem LogicOp.onInts_comm (op : LogicOp) (m n : Int) : op.onInts m n = op.onInts n m := by
  apply int_eq_of_testBit_eq
  intro i
  rw [op.testBit_onInts, op.testBit_onInts]
  cases op with
  | or => exact Bool.or_comm _ _
  | and => exact Bool.and_comm _ _
  | xor => exact Bool.xor_comm _ _

theorem zipWith_extended (f : BitVec w → BitVec w → BitVec w) (x y : List (BitVec w))
    (limb : BitVec w) (shorter : y.length ≤ x.length) :
    List.zipWith f x y ++ (x.drop y.length).map (f · limb)
      = List.zipWith f x (y ++ List.replicate (x.length - y.length) limb) := by
  induction x generalizing y with
  | nil =>
      have empty : y = [] := by simpa using shorter
      simp [empty]
  | cons u x ih =>
      cases y with
      | nil =>
          have tail := ih [] (Nat.zero_le _)
          simpa [List.replicate_succ] using tail
      | cons v y =>
          have tail := ih y (by simpa using shorter)
          simpa using tail

variable (positive : 0 < w)
include positive

section

variable (op : LogicOp) {a b : JSBigInt w} (nonempty : a.tab ≠ []) (shorter : b.len ≤ a.len)

include nonempty shorter

theorem logicTab_value :
    signed (logicTab op a b) = op.onInts a.value b.value ∧ logicTab op a b ≠ [] := by
  have limbs := zipWith_extended op.apply a.tab b.tab (-jsBigintSign b) shorter
  rw [neg_jsBigintSign positive] at limbs
  have lengths : a.tab.length
      = (b.tab ++ List.replicate (a.tab.length - b.tab.length) (signLimb b.tab)).length := by
    rw [List.length_append, List.length_replicate]
    have le : b.tab.length ≤ a.tab.length := shorter
    omega
  rw [logicTab, neg_jsBigintSign positive]
  show signed (_ ++ (a.tab.drop b.tab.length).map _) = _ ∧ _ ++ (a.tab.drop b.tab.length).map _ ≠ []
  rw [limbs]
  refine ⟨?_, ?_⟩
  · rw [signed_zipWith (fun x y i _ => op.getLsbD_apply x y i) positive lengths nonempty
      op.testBit_onInts, signed_append_signLimb positive]
    rfl
  · rw [← List.length_pos_iff, List.length_zipWith, ← lengths, Nat.min_self]
    exact List.length_pos_iff.mpr nonempty

theorem logic_ordered :
    Outcome (do jsBigintNew w a.len; jsBigintNormalize ⟨logicTab op a b⟩)
      (Denotes (op.onInts a.value b.value)) (SizeRefused w a.len) := by
  obtain ⟨value, some_⟩ := logicTab_value positive op nonempty shorter
  rw [← value]
  apply Outcome.bind (jsBigintNew_outcome w _)
  intro _ _
  exact jsBigintNormalize_denotes positive some_

end

theorem jsBigintLogic_denotes {a b : JSBigInt w} (aNonempty : a.tab ≠ []) (bNonempty : b.tab ≠ [])
    (op : LogicOp) :
    Outcome (jsBigintLogic a b op) (Denotes (op.onInts a.value b.value))
      (SizeRefused w (max a.len b.len)) := by
  rw [jsBigintLogic]
  by_cases less : a.len < b.len
  · simp only [if_pos less]
    rw [op.onInts_comm, Nat.max_eq_right (Nat.le_of_lt less)]
    exact logic_ordered positive op bNonempty (Nat.le_of_lt less)
  · simp only [if_neg less]
    rw [Nat.max_eq_left (Nat.le_of_not_lt less)]
    exact logic_ordered positive op aNonempty (Nat.le_of_not_lt less)

theorem normalized_not {tab : List (BitVec w)} (normal : Normalized tab) :
    Normalized (tab.map (~~~ ·)) := by
  refine ⟨by simpa using normal.nonempty, fun low x y shape redundant => ?_⟩
  have back : tab = low.map (~~~ ·) ++ [~~~x, ~~~y] := by
    have twice := congrArg (List.map (~~~ · : BitVec w → BitVec w)) shape
    simpa [Function.comp_def] using twice
  apply normal.2 _ _ _ back
  have sign := signLimb_not positive (List.cons_ne_nil x [])
  rw [redundant, ← sign]
  rfl

theorem jsBigintNot_denotes {a : JSBigInt w} (normal : Normalized a.tab) :
    Outcome (jsBigintNot a) (Denotes (-1 - a.value)) (SizeRefused w a.len) := by
  apply new_then_pure
  exact ⟨normalized_not positive normal, signed_not positive normal.nonempty⟩

end Logic

section ShiftLeft

theorem signed_replicate_append (d : Nat) {tab : List (BitVec w)} (nonempty : tab ≠ []) :
    signed (List.replicate d 0#w ++ tab) = signed tab * 2^(w * d) := by
  rw [signed_append _ nonempty, unsigned_replicate_zero, List.length_replicate]
  push_cast
  ring

theorem normalized_replicate_append (d : Nat) {a : JSBigInt w} (normal : Normalized a.tab)
    (nonzero : ¬ (a.len = 1 ∧ a.limb 0 = 0#w)) : Normalized (List.replicate d 0#w ++ a.tab) := by
  have zeroSign : signLimb [0#w] = 0#w := by simp [signLimb]
  by_cases single : a.len = 1
  · cases d with
    | zero => simpa using normal
    | succ d =>
        have shape : List.replicate (d + 1) 0#w ++ a.tab
            = List.replicate d 0#w ++ [0#w, a.limb 0] := by
          rw [limb_zero single, List.replicate_succ', List.append_assoc]
          rfl
        rw [shape]
        apply (normalized_append _ _ _).mpr
        rw [zeroSign]
        exact fun zero => nonzero ⟨single, zero⟩
  · obtain ⟨front, top⟩ := limbs_split normal.nonempty
    have some_ : front ≠ [] := by
      intro empty
      rw [empty] at top
      exact single (congrArg List.length top)
    obtain ⟨low, x, shape⟩ := (List.eq_nil_or_concat front).resolve_left some_
    rw [shape, List.concat_eq_append, List.append_assoc] at top
    rw [top] at normal ⊢
    rw [← List.append_assoc]
    exact (normalized_append _ _ _).mpr ((normalized_append _ _ _).mp normal)

/-- The limb above a shifted number, with the sign shifted in -/
theorem toNat_signed_carry {shift : Nat} (inside : shift < w) {l : BitVec w}
    (small : l.toNat < 2^shift) (negative_ : Bool) :
    ((if negative_ then l ||| BitVec.allOnes w <<< shift else l : BitVec w).toNat : Int)
      = l.toNat + negative_.toNat * (2^w - 2^shift) := by
  cases negative_ with
  | false => simp
  | true =>
      have pieces : 2^w = 2^shift * 2^(w - shift) := by
        rw [← Nat.pow_add]
        congr 1
        omega
      have pos := Nat.two_pow_pos (w - shift)
      have mask : (BitVec.allOnes w <<< shift).toNat = 2^shift * (2^(w - shift) - 1) := by
        have reduced : (2^w - 1) % 2^(w - shift) = 2^(w - shift) - 1 := by
          have factor : 2^w - 1 = 2^(w - shift) - 1 + 2^(w - shift) * (2^shift - 1) := by
            have posShift := Nat.two_pow_pos shift
            rw [pieces, Nat.mul_sub, Nat.mul_one, Nat.mul_comm]
            have le : 2^(w - shift) * 1 ≤ 2^(w - shift) * 2^shift :=
              Nat.mul_le_mul_left _ posShift
            omega
          rw [factor, Nat.add_mul_mod_self_left, Nat.mod_eq_of_lt (by omega)]
        rw [BitVec.toNat_shiftLeft, BitVec.toNat_allOnes, Nat.shiftLeft_eq]
        conv_lhs => rw [pieces]
        rw [Nat.mul_comm _ (2^shift), Nat.mul_mod_mul_left, ← pieces, reduced]
      have joined : (l ||| BitVec.allOnes w <<< shift).toNat
          = 2^shift * (2^(w - shift) - 1) + l.toNat := by
        rw [BitVec.toNat_or, mask, Nat.or_comm]
        exact (Nat.two_pow_add_eq_or_of_lt small _).symm
      have whole : (2 : Int)^w = 2^shift * 2^(w - shift) := by exact_mod_cast pieces
      simp only [if_true, joined, Bool.toNat_true, whole]
      rw [Nat.cast_add, Nat.cast_mul, Nat.cast_sub pos]
      push_cast
      ring

variable (positive : 0 < w)
include positive

theorem shl_value {shift : Nat} (inside : shift < w) {a : JSBigInt w} (nonempty : a.tab ≠ []) :
    let (tab, l) := mpShl shift a.tab 0#w
    signed (tab ++ [if jsBigintSign a ≠ 0#w then l ||| BitVec.allOnes w <<< shift else l])
      = a.value * 2^shift := by
  have zero : (0#w).toNat < 2^shift := by simp
  obtain ⟨shifted, small, length⟩ := mpShl_spec inside a.tab zero
  obtain ⟨low, high⟩ := fits_signed positive nonempty
  have bits : 0 < w * a.tab.length := Nat.mul_pos positive (List.length_pos_iff.mpr nonempty)
  have top := toNat_signed_carry inside small (negative a.tab)
  have condition : (jsBigintSign a ≠ 0#w) = (negative a.tab = true) :=
    propext (jsBigintSign_ne_zero positive a)
  simp only [condition]
  generalize mpShl shift a.tab 0#w = result at *
  have width : w * (result.1 ++ [if negative a.tab = true
      then result.2 ||| BitVec.allOnes w <<< shift else result.2]).length
      = w * a.tab.length + w := by
    rw [List.length_append, List.length_singleton, length, Nat.mul_succ]
  have grows : (2 : Int)^(w * a.tab.length - 1) * 2^shift ≤ 2^(w * a.tab.length + w - 1) := by
    rw [← pow_add]
    exact pow_le_pow_right₀ (by norm_num) (by omega)
  have pos : (0 : Int) < 2^shift := by positivity
  apply signed_eq positive (by simp)
  · rw [width]
    show _ ≤ signed a.tab * 2^shift
    nlinarith
  · rw [width]
    show signed a.tab * 2^shift < _
    nlinarith
  rw [width, unsigned_append, length, unsigned_cons, unsigned_nil]
  have shifted' : (unsigned result.1 : Int) + 2^(w * a.tab.length) * result.2.toNat
      = unsigned a.tab * 2^shift := by
    rw [BitVec.toNat_zero, Nat.add_zero] at shifted
    exact_mod_cast shifted
  push_cast
  rw [mul_zero, add_zero, JSBigInt.value, signed_eq_signBitOf, signBitOf]
  apply Int.modEq_iff_dvd.mpr
  by_cases sign : negative a.tab = true
  · simp only [sign, if_true, Bool.toNat_true] at top ⊢
    refine ⟨-1, ?_⟩
    rw [top, pow_add]
    push_cast
    linear_combination -shifted'
  · have plain : negative a.tab = false := by simpa using sign
    simp only [plain, Bool.toNat_false, Bool.false_eq_true, if_false] at top ⊢
    refine ⟨0, ?_⟩
    push_cast
    linear_combination -shifted'

theorem jsBigintShl_denotes {a : JSBigInt w} (normal : Normalized a.tab) (shift1 : BitVec 32) :
    Outcome (jsBigintShl a shift1) (Denotes (a.value * 2^shift1.toNat))
      (SizeRefused w (a.len + shift1.toNat / w)) := by
  have pos : 0 < a.len := List.length_pos_iff.mpr normal.nonempty
  have inside : shift1.toNat % w < w := Nat.mod_lt _ positive
  have total : a.value * 2^shift1.toNat
      = a.value * 2^(shift1.toNat % w) * 2^(w * (shift1.toNat / w)) := by
    rw [mul_assoc, ← pow_add, Nat.mod_add_div]
  rw [jsBigintShl]
  by_cases zero : a.len = 1 ∧ a.limb 0 = 0#w
  · rw [if_pos zero]
    have value : a.value * 2^shift1.toNat = (0#w).toInt := by
      rw [JSBigInt.value, limb_zero zero.1, zero.2, signed_singleton]
      simp
    rw [value]
    refine (jsBigintNewSi_denotes 0#w).mono (fun _ denotes => denotes) fun _ refused => ⟨refused.1, ?_⟩
    exact lt_of_lt_of_le refused.2 (Nat.le_trans pos (Nat.le_add_right _ _))
  · rw [if_neg zero]
    apply Outcome.bind (jsBigintNew_outcome w _)
    intro _ _
    by_cases aligned : shift1.toNat % w = 0
    · rw [if_pos aligned]
      refine Outcome.pure ⟨normalized_replicate_append _ normal zero, ?_⟩
      rw [total, aligned, pow_zero, mul_one]
      exact signed_replicate_append _ normal.nonempty
    · rw [if_neg aligned]
      have value := shl_value positive inside normal.nonempty
      have length := (mpShl_spec inside a.tab (l := 0#w) (by simp)).2.2
      generalize mpShl (shift1.toNat % w) a.tab 0#w = result at *
      simp only at value ⊢
      have nonempty : List.replicate (shift1.toNat / w) 0#w ++ result.1 ≠ [] := by
        rw [← List.length_pos_iff, List.length_append, length]
        exact Nat.add_pos_right _ pos
      rw [total, ← value, ← signed_replicate_append _ (by simp), ← List.append_assoc]
      exact jsBigintExtend_denotes positive (r := ⟨_⟩) nonempty _

end ShiftLeft

section ShiftRight

variable (positive : 0 < w)
include positive

omit positive in
theorem normalized_drop {tab : List (BitVec w)} (normal : Normalized tab) {d : Nat}
    (inside : d < tab.length) : Normalized (tab.drop d) := by
  refine ⟨by simpa using inside, fun low x y shape => ?_⟩
  have whole : tab = (tab.take d ++ low) ++ [x, y] := by
    rw [List.append_assoc, ← shape, List.take_append_drop]
  exact normal.2 _ _ _ whole

omit positive in
theorem signed_drop {tab : List (BitVec w)} {d : Nat} (inside : d < tab.length) :
    signed (tab.drop d) = signed tab / 2^(w * d) := by
  have some_ : tab.drop d ≠ [] := by simpa using inside
  have length : (tab.take d).length = d := by
    rw [List.length_take]
    omega
  have whole : signed tab = unsigned (tab.take d) + 2^(w * d) * signed (tab.drop d) := by
    conv_lhs => rw [← List.take_append_drop d tab, signed_append _ some_, length]
  have bound := unsigned_lt (tab.take d)
  rw [length] at bound
  have bound' : (unsigned (tab.take d) : Int) < 2^(w * d) := by exact_mod_cast bound
  rw [whole, Int.add_mul_ediv_left _ _ (by positivity),
    Int.ediv_eq_zero_of_lt (Int.natCast_nonneg _) bound', zero_add]

omit positive in
theorem toNat_signLimb_mod {shift : Nat} (inside : shift < w) (tab : List (BitVec w)) :
    ((signLimb tab).toNat % 2^shift : Int) = signBitOf tab * (2^shift - 1) := by
  rw [signLimb, signBitOf]
  by_cases sign : negative tab = true
  · have pieces : 2^w = 2^shift * 2^(w - shift) := by
      rw [← Nat.pow_add]
      congr 1
      omega
    have pos := Nat.two_pow_pos shift
    have posRest := Nat.two_pow_pos (w - shift)
    have factor : 2^w - 1 = 2^shift - 1 + 2^shift * (2^(w - shift) - 1) := by
      rw [pieces, Nat.mul_sub, Nat.mul_one]
      have le : 2^shift * 1 ≤ 2^shift * 2^(w - shift) := Nat.mul_le_mul_left _ posRest
      omega
    have reduced : (2^w - 1) % 2^shift = 2^shift - 1 := by
      rw [factor, Nat.add_mul_mod_self_left, Nat.mod_eq_of_lt (by omega)]
    have reduced' : (((2^w - 1) % 2^shift : Nat) : Int) = ((2^shift - 1 : Nat) : Int) := by
      rw [reduced]
    rw [if_pos sign, if_pos sign, BitVec.toNat_allOnes]
    rw [Nat.cast_sub pos] at reduced'
    push_cast at reduced' ⊢
    linarith
  · simp [sign]

theorem shr_value {shift : Nat} (inside : shift < w) {tab : List (BitVec w)} (nonempty : tab ≠ []) :
    signed (mpShrLoop shift (signLimb tab) tab).1 = signed tab / 2^shift := by
  obtain ⟨shifted, length⟩ := mpShrLoop_spec inside (signLimb tab) tab
  have high := toNat_signLimb_mod inside tab
  obtain ⟨tabLow, tabHigh⟩ := fits_signed positive nonempty
  generalize mpShrLoop shift (signLimb tab) tab = result at *
  have pos : (0 : Int) < 2^shift := by positivity
  have one : (1 : Int) ≤ 2^shift := pos
  have some_ : result.1 ≠ [] := by
    rw [← List.length_pos_iff, length]
    exact List.length_pos_iff.mpr nonempty
  have shifted' : (unsigned result.1 : Int) * 2^shift + (result.2.toNat % 2^shift : Int)
      = unsigned tab + 2^(w * tab.length) * ((signLimb tab).toNat % 2^shift : Int) := by
    exact_mod_cast shifted
  have remainderPos : (0 : Int) ≤ result.2.toNat % 2^shift := Int.emod_nonneg _ (ne_of_gt pos)
  have remainderBound : (result.2.toNat % 2^shift : Int) < 2^shift := Int.emod_lt_of_pos _ pos
  have quotient : signed tab / 2^shift
      = unsigned result.1 - 2^(w * tab.length) * signBitOf tab := by
    have division : signed tab = result.2.toNat % 2^shift
        + 2^shift * (unsigned result.1 - 2^(w * tab.length) * signBitOf tab) := by
      rw [high] at shifted'
      rw [signed_eq_signBitOf]
      linear_combination -shifted'
    rw [division, Int.add_mul_ediv_left _ _ (ne_of_gt pos),
      Int.ediv_eq_zero_of_lt remainderPos remainderBound, zero_add]
  have half : (0 : Int) < 2^(w * tab.length - 1) := by positivity
  apply signed_eq positive some_
  · rw [length]
    apply Int.le_ediv_of_mul_le pos
    nlinarith
  · rw [length]
    apply Int.ediv_lt_of_lt_mul pos
    nlinarith
  · rw [length, quotient]
    apply Int.modEq_iff_dvd.mpr
    exact ⟨-signBitOf tab, by ring⟩

theorem shr_over {a : JSBigInt w} (nonempty : a.tab ≠ []) {shift : Nat}
    (excess : w * a.len ≤ shift) : (signLimb a.tab).toInt = a.value / 2^shift := by
  obtain ⟨low, high⟩ := fits_signed positive nonempty
  have grows : (2 : Int)^(w * a.tab.length - 1) ≤ 2^shift := by
    apply pow_le_pow_right₀ (by norm_num)
    have le : w * a.tab.length ≤ shift := excess
    omega
  have sign := negative_iff a.tab
  rw [signLimb]
  by_cases below : negative a.tab = true
  · have less := sign.mp below
    rw [if_pos below, BitVec.toInt_allOnes, if_pos positive]
    have split_ : a.value = (a.value + 2^shift) + 2^shift * (-1) := by ring
    rw [split_, Int.add_mul_ediv_left _ _ (by positivity), Int.ediv_eq_zero_of_lt]
    · rfl
    · show (0 : Int) ≤ signed a.tab + 2^shift
      linarith
    · show signed a.tab + 2^shift < 2^shift
      linarith
  · have notLess := mt sign.mpr below
    rw [if_neg below, BitVec.toInt_zero]
    symm
    apply Int.ediv_eq_zero_of_lt
    · exact not_lt.mp notLess
    · exact lt_of_lt_of_le high grows

theorem jsBigintShr_denotes {a : JSBigInt w} (normal : Normalized a.tab) (shift1 : BitVec 32) :
    Outcome (jsBigintShr a shift1) (Denotes (a.value / 2^shift1.toNat)) (SizeRefused w a.len) := by
  have pos : 0 < a.len := List.length_pos_iff.mpr normal.nonempty
  have inside : shift1.toNat % w < w := Nat.mod_lt _ positive
  have division := Nat.mod_add_div shift1.toNat w
  rw [jsBigintShr, neg_jsBigintSign positive]
  by_cases excess : a.len ≤ shift1.toNat / w
  · rw [if_pos excess]
    have bits : w * a.len ≤ shift1.toNat := by
      have le := Nat.mul_le_mul_left w excess
      omega
    rw [← shr_over positive normal.nonempty bits]
    refine (jsBigintNewSi_denotes _).mono (fun _ denotes => denotes) fun _ refused => ⟨refused.1, ?_⟩
    have bound := refused.2
    omega
  · rw [if_neg excess]
    have within : shift1.toNat / w < a.tab.length := Nat.lt_of_not_le excess
    have dropped := signed_drop within
    have some_ : a.tab.drop (shift1.toNat / w) ≠ [] := by simpa using within
    have total : a.value / 2^shift1.toNat
        = signed (a.tab.drop (shift1.toNat / w)) / 2^(shift1.toNat % w) := by
      have exponents : (2 : Int)^shift1.toNat
          = 2^(w * (shift1.toNat / w)) * 2^(shift1.toNat % w) := by
        rw [← pow_add, Nat.add_comm, division]
      rw [dropped, exponents, Int.ediv_ediv_of_nonneg (by positivity)]
      rfl
    have sign : signLimb (a.tab.drop (shift1.toNat / w)) = signLimb a.tab := by
      have same := negative_append (a.tab.take (shift1.toNat / w)) some_
      rw [List.take_append_drop] at same
      rw [signLimb, signLimb, same]
    have allowed : ∀ error, SizeRefused w (a.len - shift1.toNat / w) error
        → SizeRefused w a.len error := fun _ refused =>
      ⟨refused.1, lt_of_lt_of_le refused.2 (Nat.sub_le _ _)⟩
    apply Outcome.bind ((jsBigintNew_outcome w _).mono (fun _ granted => granted) allowed)
    intro _ _
    by_cases aligned : shift1.toNat % w = 0
    · rw [if_pos aligned]
      refine Outcome.pure ⟨normalized_drop normal within, ?_⟩
      rw [total, aligned, pow_zero, Int.ediv_one]
      rfl
    · rw [if_neg aligned, ← sign, total, ← shr_value positive inside some_]
      apply jsBigintNormalize_denotes positive
      have length := (mpShrLoop_spec inside (signLimb (a.tab.drop (shift1.toNat / w)))
        (a.tab.drop (shift1.toNat / w))).2
      show (mpShrLoop _ _ _).1 ≠ []
      rw [← List.length_pos_iff, length]
      exact List.length_pos_iff.mpr some_

end ShiftRight

end PrimJs.BigInt
