import PrimJs.Numeric.BigIntMul
import PrimJs.Numeric.BigIntBits

/-! Powers: the shortcut for powers of two, and square and multiply. -/

namespace PrimJs.BigInt

open Limbs Allocating

variable {w : Nat}

/-- The result is so large that a size limit can refuse it. -/
def NearSizeLimit (w : Nat) (x : Int) : Prop := 2^(w * (maxSize w - 1) - 2) ≤ |x|

/-- A size limit refuses the result `x`. -/
def PowRefused (w : Nat) (x : Int) (error : RangeError) : Prop :=
  (error = .tooLargeToAllocate ∨ error = .tooLarge) ∧ NearSizeLimit w x

theorem NearSizeLimit.mono {x y : Int} (near : NearSizeLimit w x) (le : |x| ≤ |y|) :
    NearSizeLimit w y := le_trans near le

theorem nearSizeLimit_of_exponent {x : Int} {e : Nat} (large : w * (maxSize w - 1) - 2 ≤ e)
    (le : 2^e ≤ |x|) : NearSizeLimit w x :=
  le_trans (pow_le_pow_right₀ (by norm_num) large) le

section Magnitude

variable (positive : 0 < w)
include positive

theorem magnitude {tab : List (BitVec w)} (normal : Normalized tab) (nonzero : signed tab ≠ 0) :
    2^(w * (tab.length - 1) - 1) ≤ |signed tab| := by
  by_cases single : tab.length = 1
  · rw [single]
    simpa using Int.one_le_abs nonzero
  · have pos := List.length_pos_iff.mpr normal.nonempty
    have notFits := normal.not_fits positive (n := tab.length - 1) (by omega) (by omega)
    rw [Fits, not_and_or, not_le, not_lt] at notFits
    rcases notFits with below | above
    · have sign := neg_le_abs (signed tab)
      linarith
    · have sign := le_abs_self (signed tab)
      linarith

theorem long_magnitude {tab : List (BitVec w)} (normal : Normalized tab) (long : 1 < tab.length) :
    2^(w - 1) ≤ |signed tab| := by
  have nonzero : signed tab ≠ 0 := by
    intro zero
    apply normal.not_fits positive long one_pos
    rw [zero, Fits]
    exact ⟨by simp, by positivity⟩
  have large := magnitude positive normal nonzero
  have exponent : w - 1 ≤ w * (tab.length - 1) - 1 := by
    have le : w * 1 ≤ w * (tab.length - 1) := Nat.mul_le_mul_left w (by omega)
    omega
  exact le_trans (pow_le_pow_right₀ (by norm_num) exponent) large

theorem product_near {a b : JSBigInt w} (aNormal : Normalized a.tab) (bNormal : Normalized b.tab)
    (aNonzero : a.value ≠ 0) (bNonzero : b.value ≠ 0) (large : maxSize w < a.len + b.len) :
    NearSizeLimit w (a.value * b.value) := by
  have left := magnitude positive aNormal aNonzero
  have right := magnitude positive bNormal bNonzero
  have aPos := List.length_pos_iff.mpr aNormal.nonempty
  have bPos := List.length_pos_iff.mpr bNormal.nonempty
  have lengths : maxSize w - 1 ≤ (a.tab.length - 1) + (b.tab.length - 1) := by
    have excess : maxSize w < a.tab.length + b.tab.length := large
    omega
  have scaled := Nat.mul_le_mul_left w lengths
  rw [Nat.mul_add] at scaled
  apply nearSizeLimit_of_exponent
    (e := (w * (a.tab.length - 1) - 1) + (w * (b.tab.length - 1) - 1)) (by omega)
  rw [abs_mul, pow_add]
  exact mul_le_mul left right (by positivity) (abs_nonneg _)

end Magnitude

section Squaring

theorem abs_pow_mono {x : Int} (nonzero : x ≠ 0) {m n : Nat} (le : m ≤ n) : |x^m| ≤ |x^n| := by
  rw [abs_pow, abs_pow]
  exact pow_le_pow_right₀ (Int.one_le_abs nonzero) le

variable (positive : 0 < w) (sized : stackLimbs ≤ maxSize w)
include positive sized

/-- One product of the loop stays below the whole power. -/
theorem mul_pow_denotes {a r s : JSBigInt w} (nonzero : a.value ≠ 0) {m n e : Nat}
    (left : Denotes (a.value^m) r) (right : Denotes (a.value^n) s) (le : m + n ≤ e) :
    Outcome (jsBigintMul r s) (Denotes (a.value^(m + n))) (PowRefused w (a.value^e)) := by
  have outcome := jsBigintMul_denotes positive sized left.1.nonempty right.1.nonempty
  rw [left.2, right.2, ← pow_add] at outcome
  refine outcome.mono (fun _ denotes => denotes) fun _ refused => ⟨.inl refused.1, ?_⟩
  have leftNonzero : r.value ≠ 0 := left.2 ▸ pow_ne_zero m nonzero
  have rightNonzero : s.value ≠ 0 := right.2 ▸ pow_ne_zero n nonzero
  have near := product_near positive left.1 right.1 leftNonzero rightNonzero refused.2
  rw [left.2, right.2, ← pow_add] at near
  exact near.mono (abs_pow_mono nonzero le)

theorem powLoop_denotes {a : JSBigInt w} (normal : Normalized a.tab) (nonzero : a.value ≠ 0)
    (e i : Nat) {r : JSBigInt w} (left : Denotes (a.value^(e / 2^i)) r) :
    Outcome (powLoop a e i r) (Denotes (a.value^e)) (PowRefused w (a.value^e)) := by
  induction i generalizing r with
  | zero =>
      rw [pow_zero, Nat.div_one] at left
      exact Outcome.pure left
  | succ i ih =>
      have halves : e / 2^(i + 1) = e / 2^i / 2 := by rw [Nat.div_div_eq_div_mul, pow_succ]
      have below : e / 2^i ≤ e := Nat.div_le_self _ _
      have doubled := Nat.div_add_mod (e / 2^i) 2
      rw [← halves] at doubled
      rw [powLoop]
      apply Outcome.bind (mul_pow_denotes positive sized nonzero left left (by omega))
      intro square squareDenotes
      have bit : e.testBit i = decide (e / 2^i % 2 = 1) := by
        rw [Nat.testBit_eq_decide_div_mod_eq]
      by_cases odd : e / 2^i % 2 = 1
      · rw [bit, decide_eq_true odd, if_pos rfl]
        have self : Denotes (a.value^1) a := ⟨normal, (pow_one _).symm⟩
        have exponent : e / 2^(i + 1) + e / 2^(i + 1) + 1 = e / 2^i := by omega
        have product := mul_pow_denotes positive sized nonzero (e := e) squareDenotes self (by omega)
        rw [exponent] at product
        exact Outcome.bind product fun _ next => ih next
      · rw [bit, decide_eq_false odd, if_neg Bool.false_ne_true]
        have exponent : e / 2^(i + 1) + e / 2^(i + 1) = e / 2^i := by omega
        rw [exponent] at squareDenotes
        exact Outcome.bind (Outcome.pure squareDenotes) fun _ next => ih next

end Squaring

section Exponent

/-- The exponent of a power is the low limb when it is the only one. -/
theorem exponent_single {b : JSBigInt w} (single : b.len = 1) (sign : ¬ b.value < 0) :
    b.value = (b.limb 0).toNat := by
  have shape := limb_zero single
  have plain : negative b.tab = false := by
    have absent := mt (negative_iff b.tab).mp sign
    simpa using absent
  rw [JSBigInt.value, signed, signWeight, plain, shape]
  simp

variable (positive : 0 < w)
include positive

theorem exponent_parity {b : JSBigInt w} (nonempty : b.tab ≠ []) (sign : ¬ b.value < 0) :
    b.value.toNat % 2 = (b.limb 0).toNat % 2 := by
  cases shape : b.tab with
  | nil => exact absurd shape nonempty
  | cons x rest =>
      have plain : negative b.tab = false := by
        have absent := mt (negative_iff b.tab).mp sign
        simpa using absent
      have value : b.value = (x.toNat + 2^w * unsigned rest : Nat) := by
        rw [JSBigInt.value, signed, signWeight, plain, shape]
        simp
      have even : 2^w = 2 * 2^(w - 1) := by rw [← pow_succ', Nat.sub_add_cancel positive]
      rw [value, Int.toNat_natCast, JSBigInt.limb, shape, even, Nat.mul_assoc, Nat.add_mul_mod_self_left]
      rfl

theorem toNat_and_one (x : BitVec w) : (x &&& 1#w).toNat = x.toNat % 2 := by
  rw [BitVec.toNat_and, BitVec.toNat_one positive, Nat.and_one_is_mod]

theorem and_one_ne_zero (x : BitVec w) : x &&& 1#w ≠ 0#w ↔ x.toNat % 2 = 1 := by
  rw [Ne, ← BitVec.toNat_inj, toNat_and_one positive, BitVec.toNat_zero]
  omega

end Exponent

section PowerOfTwo

variable (positive : 0 < w)
include positive

theorem toInt_one_shiftLeft {k : Nat} (below : k < w - 1) : (1#w <<< k).toInt = 2^k := by
  have number : (1#w <<< k).toNat = 2^k := by
    rw [BitVec.toNat_shiftLeft, BitVec.toNat_one positive, Nat.shiftLeft_eq, Nat.one_mul,
      Nat.mod_eq_of_lt (Nat.pow_lt_pow_right (by norm_num) (by omega))]
  have plain : (1#w <<< k).msb = false := by
    rw [BitVec.msb_eq_decide, number]
    simpa using Nat.pow_lt_pow_right (by norm_num : 1 < 2) below
  rw [BitVec.toInt_eq_msb_cond, plain, number]
  simp

theorem toInt_allOnes_shiftLeft {k : Nat} (below : k < w) :
    (BitVec.allOnes w <<< k).toInt = -2^k := by
  have carry := toNat_signed_carry below (l := 0#w) (by simp) true
  simp only [if_true, BitVec.zero_or, BitVec.toNat_zero, Bool.toNat_true] at carry
  have le : (2 : Int)^k ≤ 2^(w - 1) := pow_le_pow_right₀ (by norm_num) (by omega)
  have half : (2 : Int)^w = 2 * 2^(w - 1) := by rw [← pow_succ', Nat.sub_add_cancel positive]
  have pos : (0 : Int) < 2^k := by positivity
  rw [← signed_singleton]
  apply signed_eq positive (List.cons_ne_nil _ _)
  · rw [List.length_singleton, Nat.mul_one]
    linarith
  · rw [List.length_singleton, Nat.mul_one]
    have posHalf : (0 : Int) < 2^(w - 1) := by positivity
    linarith
  · rw [List.length_singleton, Nat.mul_one, unsigned_cons, unsigned_nil, Nat.mul_zero, Nat.add_zero,
      carry]
    apply Int.modEq_iff_dvd.mpr
    exact ⟨-1, by push_cast; ring⟩

omit positive in
theorem replicate_set (q n : Nat) (x : BitVec w) :
    (List.replicate (q + 1 + n) 0#w).set q x
      = List.replicate q 0#w ++ x :: List.replicate n 0#w := by
  have split_ : List.replicate (q + 1 + n) 0#w
      = List.replicate q 0#w ++ 0#w :: List.replicate n 0#w := by
    rw [Nat.add_assoc, ← List.replicate_append_replicate, Nat.add_comm 1 n, List.replicate_succ]
  rw [split_, List.set_append_right _ _ (by simp)]
  simp

/-- `±2^e` in limbs -/
theorem powerLimbs_denotes (e : Nat) (isNeg : Bool) :
    Denotes (if isNeg then -2^e else 2^e)
      (⟨(List.replicate ((e + w + 1 - isNeg.toNat) / w) 0#w).set (e / w)
        ((if isNeg then BitVec.allOnes w else 1#w) <<< (e % w))⟩ : JSBigInt w) := by
  have inside : e % w < w := Nat.mod_lt _ positive
  have total : (2 : Int)^e = 2^(e % w) * 2^(w * (e / w)) := by
    rw [← pow_add, Nat.mod_add_div]
  have division := Nat.div_add_mod e w
  have zeroSign : signLimb [0#w] = 0#w := by simp [signLimb]
  -- a limb that is not zero and not redundant on its own stays needed above zeros
  have single {x : BitVec w} (nonzero : x ≠ 0#w) :
      Normalized (List.replicate (e / w) 0#w ++ [x]) :=
    normalized_replicate_append (e / w) (a := ⟨[x]⟩) (normalized_singleton x)
      fun zero => nonzero zero.2
  cases isNeg with
  | true =>
      have length : (e + w + 1 - Bool.toNat true) / w = e / w + 1 + 0 := by
        rw [Bool.toNat_true, Nat.add_sub_cancel, Nat.add_div_right _ positive]
      have value := toInt_allOnes_shiftLeft positive inside
      have nonzero : BitVec.allOnes w <<< (e % w) ≠ 0#w := by
        intro zero
        rw [zero, BitVec.toInt_zero] at value
        have pos : (0 : Int) < 2^(e % w) := by positivity
        linarith
      rw [length, replicate_set, if_pos rfl, if_pos rfl, List.replicate_zero]
      refine ⟨single nonzero, ?_⟩
      rw [JSBigInt.value, signed_replicate_append _ (List.cons_ne_nil _ _), signed_singleton, value,
        total]
      ring
  | false =>
      rw [if_neg Bool.false_ne_true, if_neg Bool.false_ne_true, Bool.toNat_false, Nat.sub_zero]
      by_cases top : e % w = w - 1
      · have length : (e + w + 1) / w = e / w + 1 + 1 := by
          have whole : e + w + 1 = w * (e / w + 1 + 1) := by
            rw [Nat.mul_add, Nat.mul_add, Nat.mul_one]
            omega
          rw [whole, Nat.mul_div_cancel_left _ positive]
        have number : (1#w <<< (e % w)).toNat = 2^(e % w) := by
          rw [BitVec.toNat_shiftLeft, BitVec.toNat_one positive, Nat.shiftLeft_eq, Nat.one_mul,
            Nat.mod_eq_of_lt (Nat.pow_lt_pow_right (by norm_num) inside)]
        have sign : (1#w <<< (e % w)).msb = true := by
          rw [BitVec.msb_eq_decide, number, top]
          simp
        rw [length, replicate_set, List.replicate_one]
        refine ⟨(normalized_append _ _ _).mpr ?_, ?_⟩
        · rw [signLimb, negative_singleton, sign, if_pos rfl]
          exact (allOnes_ne_zero positive).symm
        · have shape : List.replicate (e / w) 0#w ++ [1#w <<< (e % w), 0#w]
              = List.replicate (e / w) 0#w ++ ([1#w <<< (e % w)] ++ [0#w]) := rfl
          rw [JSBigInt.value, shape, signed_replicate_append _ (by simp),
            signed_append _ (List.cons_ne_nil _ _), signed_singleton, total]
          simp [number]
      · have length : (e + w + 1) / w = e / w + 1 + 0 := by
          have whole : e + w + 1 = e % w + 1 + w * (e / w + 1) := by
            rw [Nat.mul_add, Nat.mul_one]
            omega
          rw [whole, Nat.add_mul_div_left _ _ positive, Nat.div_eq_of_lt (by omega)]
          omega
        have value := toInt_one_shiftLeft positive (k := e % w) (by omega)
        have nonzero : 1#w <<< (e % w) ≠ 0#w := by
          intro zero
          rw [zero, BitVec.toInt_zero] at value
          have pos : (0 : Int) < 2^(e % w) := by positivity
          linarith
        rw [length, replicate_set, List.replicate_zero]
        refine ⟨single nonzero, ?_⟩
        rw [JSBigInt.value, signed_replicate_append _ (List.cons_ne_nil _ _), signed_singleton,
          value, total]

end PowerOfTwo

section Power

theorem huge_near {x : Int} (two : 2 ≤ |x|) {m : Nat} (large : 2^31 ≤ m) :
    NearSizeLimit w (x^m) := by
  have limit : maxSize w * w ≤ 1024 * 1024 := Nat.div_mul_le_self _ _
  have exponent : w * (maxSize w - 1) ≤ maxSize w * w := by
    rw [Nat.mul_comm]
    exact Nat.mul_le_mul_right w (Nat.sub_le _ _)
  apply nearSizeLimit_of_exponent (e := m) (by omega)
  rw [abs_pow]
  exact pow_le_pow_left₀ (by norm_num) two m

variable (wide : 32 ≤ w)
include wide

/-- Both ways to compute a power first refuse an exponent of more than 31 bits. -/
theorem guarded_denotes {b : JSBigInt w} (normal : Normalized b.tab) (sign : ¬ b.value < 0)
    {x : Int} (two : 2 ≤ |x|) {rest : Allocating RangeError (JSBigInt w)}
    (continues : b.len = 1 → (b.limb 0).toNat ≤ int32Max →
      Outcome rest (Denotes (x^b.value.toNat)) (PowRefused w (x^b.value.toNat))) :
    Outcome (if 1 < b.len then throw (.thrown .tooLarge)
        else if int32Max < (b.limb 0).toNat then throw (.thrown .tooLarge) else rest)
      (Denotes (x^b.value.toNat)) (PowRefused w (x^b.value.toNat)) := by
  have pos : 0 < b.len := List.length_pos_iff.mpr normal.nonempty
  by_cases long : 1 < b.len
  · rw [if_pos long]
    have large := long_magnitude (by omega) normal long
    have grows : (2 : Int)^31 ≤ 2^(w - 1) := pow_le_pow_right₀ (by norm_num) (by omega)
    have nonneg : 0 ≤ signed b.tab := not_lt.mp sign
    rw [abs_of_nonneg nonneg] at large
    have exponent : 2^31 ≤ b.value.toNat := by
      have value : (2 : Int)^31 ≤ b.value := le_trans grows large
      omega
    exact Outcome.thrown ⟨.inr rfl, huge_near two exponent⟩
  · rw [if_neg long]
    have single : b.len = 1 := by omega
    have value := exponent_single single sign
    by_cases excess : int32Max < (b.limb 0).toNat
    · rw [if_pos excess]
      have exponent : 2^31 ≤ b.value.toNat := by
        rw [int32Max] at excess
        omega
      exact Outcome.thrown ⟨.inr rfl, huge_near two exponent⟩
    · rw [if_neg excess]
      exact continues single (Nat.le_of_not_lt excess)

theorem powOfTwo_denotes {b : JSBigInt w} (normal : Normalized b.tab) (sign : ¬ b.value < 0)
    {v : BitVec w} (isNeg : Bool) (power : v.toNat = 2^(w - 1 - v.clz.toNat)) (two : 2 ≤ v.toNat) :
    let x : Int := if isNeg then -v.toNat else v.toNat
    Outcome (powOfTwo v isNeg b) (Denotes (x^b.value.toNat)) (PowRefused w (x^b.value.toNat)) := by
  intro x
  have positive : 0 < w := by omega
  have magnitude_ : |x| = v.toNat := by
    cases isNeg with
    | true => simp [x]
    | false => simp [x]
  have twoAbs : (2 : Int) ≤ |x| := by
    rw [magnitude_]
    exact_mod_cast two
  rw [powOfTwo]
  apply guarded_denotes wide normal sign twoAbs
  intro single _
  have value := exponent_single single sign
  have exponent : b.value.toNat = (b.limb 0).toNat := by omega
  have result : |x^b.value.toNat| = 2^((b.limb 0).toNat * (w - 1 - v.clz.toNat)) := by
    rw [abs_pow, magnitude_, exponent, power]
    push_cast
    rw [← pow_mul, Nat.mul_comm]
  by_cases excess : maxSize w * w < (b.limb 0).toNat * (w - 1 - v.clz.toNat)
  · rw [if_pos excess]
    refine Outcome.thrown ⟨.inr rfl, nearSizeLimit_of_exponent ?_ (le_of_eq result.symm)⟩
    have le : w * (maxSize w - 1) ≤ maxSize w * w := by
      rw [Nat.mul_comm]
      exact Nat.mul_le_mul_right w (Nat.sub_le _ _)
    omega
  · rw [if_neg excess]
    have odd := and_one_ne_zero positive (b.limb 0)
    have signed_ : x^b.value.toNat
        = if (isNeg && b.limb 0 &&& 1#w ≠ 0#w)
          then -2^((b.limb 0).toNat * (w - 1 - v.clz.toNat))
          else 2^((b.limb 0).toNat * (w - 1 - v.clz.toNat)) := by
      have base : (v.toNat : Int)^(b.limb 0).toNat
          = 2^((b.limb 0).toNat * (w - 1 - v.clz.toNat)) := by
        rw [power]
        push_cast
        rw [← pow_mul, Nat.mul_comm]
      rw [exponent, ← base]
      cases isNeg with
      | false => simp [x]
      | true =>
          by_cases parity : (b.limb 0).toNat % 2 = 1
          · simp only [x, if_true, Bool.true_and, decide_eq_true (odd.mpr parity)]
            exact (Nat.odd_iff.mpr parity).neg_pow _
          · have even : Even (b.limb 0).toNat := Nat.even_iff.mpr (by omega)
            simp only [x, if_true, Bool.true_and, decide_eq_false (mt odd.mp parity),
              Bool.false_eq_true, if_false]
            exact even.neg_pow _
    have allowed : ∀ error,
        SizeRefused w (((b.limb 0).toNat * (w - 1 - v.clz.toNat) + w + 1
          - (isNeg && b.limb 0 &&& 1#w ≠ 0#w).toNat) / w) error
        → PowRefused w (x^b.value.toNat) error := by
      intro error refused
      refine ⟨.inl refused.1, nearSizeLimit_of_exponent ?_ (le_of_eq result.symm)⟩
      have limbs := (Nat.le_div_iff_mul_le positive).mp (Nat.succ_le_of_lt refused.2)
      have le : w * (maxSize w - 1) ≤ maxSize w * w := by
        rw [Nat.mul_comm]
        exact Nat.mul_le_mul_right w (Nat.sub_le _ _)
      rw [Nat.succ_mul] at limbs
      omega
    have denotes := powerLimbs_denotes positive ((b.limb 0).toNat * (w - 1 - v.clz.toNat))
      (isNeg && b.limb 0 &&& 1#w ≠ 0#w)
    rw [← signed_] at denotes
    apply Outcome.bind ((jsBigintNew_outcome w _).mono (fun _ granted => granted) allowed)
    intro _ _
    exact Outcome.pure denotes

theorem powBySquaring_denotes (sized : stackLimbs ≤ maxSize w) {a b : JSBigInt w}
    (aNormal : Normalized a.tab) (normal : Normalized b.tab) (sign : ¬ b.value < 0)
    (nonzero : b.value ≠ 0) (two : 2 ≤ |a.value|) :
    Outcome (powBySquaring a b) (Denotes (a.value^b.value.toNat))
      (PowRefused w (a.value^b.value.toNat)) := by
  have positive : 0 < w := by omega
  rw [powBySquaring]
  apply guarded_denotes wide normal sign two
  intro single small
  have value := exponent_single single sign
  have exponent : b.value.toNat = (b.limb 0).toNat := by omega
  have aNonzero : a.value ≠ 0 := by
    intro zero
    rw [zero] at two
    norm_num at two
  rw [exponent]
  have some_ : 0 < (b.limb 0).toNat := by omega
  generalize (b.limb 0).toNat = e at *
  have word : (BitVec.ofNat 32 e).toNat = e := by
    rw [BitVec.toNat_ofNat]
    apply Nat.mod_eq_of_lt
    rw [int32Max] at small
    omega
  have wordNonzero : BitVec.ofNat 32 e ≠ 0#32 := by
    intro zero
    rw [zero, BitVec.toNat_zero] at word
    omega
  have low := BitVec.two_pow_sub_clz_le_toNat_of_ne_zero (by norm_num) wordNonzero
  have high := BitVec.toNat_lt_two_pow_sub_clz (x := BitVec.ofNat 32 e)
  have zeros := BitVec.clz_lt_iff_ne_zero.mpr wordNonzero
  rw [word] at low high
  have zeros' : (BitVec.ofNat 32 e).clz.toNat < 32 := by
    simpa [BitVec.lt_def] using zeros
  have lead : e / 2^(32 - (BitVec.ofNat 32 e).clz.toNat - 1) = 1 := by
    generalize (BitVec.ofNat 32 e).clz.toNat = k at *
    have half : 2^(32 - k) = 2 * 2^(32 - k - 1) := by
      rw [← pow_succ']
      congr 1
      omega
    have same : 32 - 1 - k = 32 - k - 1 := by omega
    rw [same] at low
    apply Nat.div_eq_of_lt_le
    · omega
    · omega
  have self : Denotes (a.value^(e / 2^(32 - (BitVec.ofNat 32 e).clz.toNat - 1))) a := by
    rw [lead, pow_one]
    exact ⟨aNormal, rfl⟩
  have allowed : ∀ error, SizeRefused w a.len error → PowRefused w (a.value^e) error := by
    intro error refused
    have large := magnitude positive aNormal aNonzero
    refine ⟨.inl refused.1, ?_⟩
    have le := abs_pow_mono aNonzero (m := 1) (n := e) some_
    rw [pow_one] at le
    refine nearSizeLimit_of_exponent ?_ (le_trans large le)
    have excess : maxSize w < a.tab.length := refused.2
    have scaled : w * (maxSize w - 1) ≤ w * (a.tab.length - 1) :=
      Nat.mul_le_mul_left w (by omega)
    omega
  apply Outcome.bind ((jsBigintNew_outcome w _).mono (fun _ granted => granted) allowed)
  intro _ _
  exact powLoop_denotes positive sized aNormal aNonzero e _ self

omit wide in
theorem newSi_denotes (sized : stackLimbs ≤ maxSize w) {v : BitVec w} {x : Int}
    (value : v.toInt = x) {fails : RangeError → Prop} :
    Outcome (jsBigintNewSi v) (Denotes x) fails := by
  rw [← value]
  refine (jsBigintNewSi_denotes v).mono (fun _ denotes => denotes) fun _ refused => ?_
  have excess := refused.2
  rw [stackLimbs] at sized
  omega

omit wide in
/-- The base without its sign -/
theorem absLimb (v : BitVec w) :
    v.toInt = if v.msb then -((if v.msb then -v else v).toNat : Int)
      else (if v.msb then -v else v).toNat := by
  have bound := v.isLt
  rw [BitVec.toInt_eq_msb_cond]
  by_cases sign : v.msb = true
  · have pos : 0 < v.toNat := by
      by_contra zero
      have isZero : v = 0#w := BitVec.eq_of_toNat_eq (by simpa using zero)
      simp [isZero] at sign
    have flipped : (-v).toNat = 2^w - v.toNat := by
      rw [BitVec.toNat_neg, Nat.mod_eq_of_lt (by omega)]
    simp only [sign, if_true, flipped]
    rw [Nat.cast_sub (le_of_lt bound)]
    push_cast
    ring
  · simp [sign]

omit wide in
theorem absLimb_two (positive : 0 < w) {v : BitVec w} (large : ¬ v ≤ 1#w)
    (minusOne : v ≠ BitVec.allOnes w) : 2 ≤ (if v.msb then -v else v : BitVec w).toNat := by
  rw [BitVec.le_def, BitVec.toNat_one positive] at large
  have bound := v.isLt
  by_cases sign : v.msb = true
  · have notTop : v.toNat ≠ 2^w - 1 := by
      intro top
      exact minusOne (BitVec.eq_of_toNat_eq (top.trans BitVec.toNat_allOnes.symm))
    rw [if_pos sign, BitVec.toNat_neg, Nat.mod_eq_of_lt (by omega)]
    omega
  · rw [if_neg sign]
    omega

theorem power_of_and_sub_one {v : BitVec w} (nonzero : v ≠ 0#w) (power : v &&& (v - 1#w) = 0#w) :
    v.toNat = 2^(w - 1 - v.clz.toNat) := by
  have positive : 0 < w := by omega
  have pos : 0 < v.toNat := by
    by_contra zero
    exact nonzero (BitVec.eq_of_toNat_eq (by simpa using zero))
  have bound := v.isLt
  have previous : (v - 1#w).toNat = v.toNat - 1 := by
    rw [BitVec.toNat_sub, BitVec.toNat_one positive]
    have shape : 2^w - 1 + v.toNat = v.toNat - 1 + 2^w := by omega
    rw [shape, Nat.add_mod_right, Nat.mod_eq_of_lt (by omega)]
  have bits : v.toNat &&& (v.toNat - 1) = 0 := by
    have numbers := congrArg BitVec.toNat power
    rwa [BitVec.toNat_and, previous, BitVec.toNat_zero] at numbers
  obtain ⟨k, number⟩ := (Nat.and_sub_one_eq_zero_iff_isPowerOfTwo (by omega)).mp bits
  have low := BitVec.two_pow_sub_clz_le_toNat_of_ne_zero positive nonzero
  have high := BitVec.toNat_lt_two_pow_sub_clz (x := v)
  rw [number] at low high
  have atLeast := (Nat.pow_le_pow_iff_right (by norm_num)).mp low
  have below := (Nat.pow_lt_pow_iff_right (by norm_num)).mp high
  rw [number]
  congr 1
  omega

theorem jsBigintPow_denotes (sized : stackLimbs ≤ maxSize w) {a b : JSBigInt w}
    (aNormal : Normalized a.tab) (normal : Normalized b.tab) (sign : ¬ b.value < 0) :
    Outcome (jsBigintPow a b) (Denotes (a.value^b.value.toNat))
      (PowRefused w (a.value^b.value.toNat)) := by
  have positive : 0 < w := by omega
  have plain : ¬ jsBigintSign b ≠ 0#w :=
    mt ((jsBigintSign_ne_zero positive b).trans (negative_iff b.tab)).mp sign
  have two : 2 ≤ w := by omega
  have oneToInt : (1#w).toInt = 1 := by
    have none := toInt_one_shiftLeft positive (k := 0) (by omega)
    simpa using none
  rw [jsBigintPow, if_neg plain]
  by_cases zero : b.len = 1 ∧ b.limb 0 = 0#w
  · rw [if_pos zero]
    have value : b.value = 0 := by
      rw [exponent_single zero.1 sign, zero.2]
      simp
    apply newSi_denotes sized
    rw [value, oneToInt]
    exact (pow_zero a.value).symm
  · rw [if_neg zero]
    have nonzero : b.value ≠ 0 := by
      intro value
      have isZero : Denotes 0 (⟨[0#w]⟩ : JSBigInt w) :=
        ⟨normalized_singleton _, by rw [JSBigInt.value, signed_singleton, BitVec.toInt_zero]⟩
      have same : b = ⟨[0#w]⟩ := Denotes.unique positive ⟨normal, value⟩ isZero
      rw [same] at zero
      exact zero ⟨rfl, rfl⟩
    have exponent : b.value.toNat ≠ 0 := by omega
    by_cases single : a.len = 1
    · rw [if_pos single]
      have base : a.value = (a.limb 0).toInt := by
        rw [JSBigInt.value, limb_zero single, signed_singleton]
      rw [base]
      generalize a.limb 0 = v at *
      have signs := absLimb v
      by_cases small : v ≤ 1#w
      · simp only [if_pos small]
        apply newSi_denotes sized
        rw [BitVec.le_def, BitVec.toNat_one positive] at small
        by_cases isZero : v.toNat = 0
        · have limb : v = 0#w := BitVec.eq_of_toNat_eq (by simpa using isZero)
          rw [limb, BitVec.toInt_zero, zero_pow exponent]
        · have limb : v = 1#w := by
            apply BitVec.eq_of_toNat_eq
            rw [BitVec.toNat_one positive]
            omega
          rw [limb, oneToInt, one_pow]
      · simp only [if_neg small]
        by_cases minusOne : v = BitVec.allOnes w
        · simp only [if_pos minusOne]
          apply newSi_denotes sized
          have parity := exponent_parity positive normal.nonempty sign
          have odd := and_one_ne_zero positive (b.limb 0)
          rw [minusOne, BitVec.toInt_allOnes, if_pos positive]
          by_cases isOdd : (b.limb 0).toNat % 2 = 1
          · have bit : b.limb 0 &&& 1#w = 1#w := by
              apply BitVec.eq_of_toNat_eq
              rw [toNat_and_one positive, BitVec.toNat_one positive, isOdd]
            have limb : 1#w - 2#w * 1#w = BitVec.allOnes w := by
              have twoNat : (2#w).toNat = 2 := by
                rw [BitVec.toNat_ofNat]
                apply Nat.mod_eq_of_lt
                exact lt_of_lt_of_le (by norm_num) (Nat.pow_le_pow_right (by norm_num) wide)
              have large : 2 ≤ 2^w := Nat.pow_le_pow_right (by norm_num : 0 < 2) positive
              apply BitVec.eq_of_toNat_eq
              rw [BitVec.mul_one, BitVec.toNat_sub, twoNat, BitVec.toNat_one positive,
                BitVec.toNat_allOnes, Nat.mod_eq_of_lt (by omega)]
              omega
            rw [bit, limb, BitVec.toInt_allOnes, if_pos positive,
              (Nat.odd_iff.mpr (parity.trans isOdd)).neg_one_pow]
          · have bit : b.limb 0 &&& 1#w = 0#w := Decidable.not_not.mp (mt odd.mp isOdd)
            have even : Even b.value.toNat := Nat.even_iff.mpr (by omega)
            rw [bit, BitVec.mul_zero, BitVec.sub_zero, oneToInt, even.neg_one_pow]
        · simp only [if_neg minusOne]
          have atLeastTwo : 2 ≤ (if v.msb then -v else v : BitVec w).toNat :=
            absLimb_two positive small minusOne
          by_cases power : (if v.msb then -v else v : BitVec w)
              &&& ((if v.msb then -v else v) - 1#w) = 0#w
          · rw [if_pos power, signs]
            have limbNonzero : (if v.msb then -v else v : BitVec w) ≠ 0#w := by
              intro isZero
              rw [isZero, BitVec.toNat_zero] at atLeastTwo
              omega
            exact powOfTwo_denotes wide normal sign v.msb
              (power_of_and_sub_one wide limbNonzero power) atLeastTwo
          · rw [if_neg power]
            have large : 2 ≤ |a.value| := by
              rw [base, signs]
              by_cases negative_ : v.msb = true
              · simp only [if_pos negative_] at atLeastTwo ⊢
                rw [abs_neg, Nat.abs_cast]
                exact_mod_cast atLeastTwo
              · simp only [if_neg negative_] at atLeastTwo ⊢
                rw [Nat.abs_cast]
                exact_mod_cast atLeastTwo
            have outcome := powBySquaring_denotes wide sized aNormal normal sign nonzero large
            rw [base] at outcome
            exact outcome
    · rw [if_neg single]
      have long : 1 < a.tab.length := by
        have pos : 0 < a.tab.length := List.length_pos_iff.mpr aNormal.nonempty
        have other : a.tab.length ≠ 1 := single
        omega
      have large := long_magnitude positive aNormal long
      have grows : (2 : Int)^1 ≤ 2^(w - 1) := pow_le_pow_right₀ (by norm_num) (by omega)
      exact powBySquaring_denotes wide sized aNormal normal sign nonzero (le_trans grows large)

end Power

end PrimJs.BigInt
