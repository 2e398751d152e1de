import PrimJs.Foundation.Numerals
import PrimJs.Numeric.BigIntDivrem
import PrimJs.Numeric.BigIntText

/-! The text of a `BigInt` is its numeral, and it fits the buffer sized from the bit length. -/

namespace PrimJs.BigInt

open Limbs Numerals Allocating

variable {w : Nat} {limbBits : LimbBits}

section Buffer

/-- The buffer after the characters `cs`, which are written in this order -/
def CharBuffer.written (q : CharBuffer) (cs : List Char) : CharBuffer :=
  ⟨q.room - cs.length, cs.reverse ++ q.text⟩

theorem CharBuffer.written_append (q : CharBuffer) (cs ds : List Char) :
    (q.written cs).written ds = q.written (cs ++ ds) := by
  simp [CharBuffer.written, Nat.sub_sub]

theorem CharBuffer.room_written (q : CharBuffer) (cs : List Char) :
    (q.written cs).room = q.room - cs.length := rfl

variable {q : CharBuffer}

theorem CharBuffer.put_eq (free : 0 < q.room) (c : Char) : q.put c = some (q.written [c]) := by
  obtain ⟨room, text⟩ := q
  cases room with
  | zero => exact absurd free (lt_irrefl 0)
  | succ room => rfl

theorem put_all {α : Type} (f : α → Char) (xs : List α) (free : xs.length ≤ q.room) :
    xs.foldlM (fun q x => q.put (f x)) q = some (q.written (xs.map f)) := by
  induction xs generalizing q with
  | nil => rfl
  | cons x xs ih =>
      have free' : xs.length + 1 ≤ q.room := free
      have next := ih (q := q.written [f x]) (by
        rw [CharBuffer.room_written, List.length_singleton]
        omega)
      rw [List.foldlM_cons, CharBuffer.put_eq (by omega), List.map_cons]
      change xs.foldlM _ (q.written [f x]) = _
      rw [next, CharBuffer.written_append]
      rfl

theorem limbToA_eq {radix len : Nat} (n : Nat) (free : len ≤ q.room) :
    limbToA radix len q n = some (q.written ((lowDigits radix len n).map digitChar)) := by
  induction len generalizing q n with
  | zero => rfl
  | succ len ih =>
      have next := ih (q := q.written [digitChar (n % radix)]) (n / radix) (by
        rw [CharBuffer.room_written, List.length_singleton]
        omega)
      rw [limbToA, CharBuffer.put_eq (by omega), Option.bind_some, next,
        CharBuffer.written_append]
      rfl

theorem jsU64toa_eq {base fuel : Nat} {n : Nat} (radix : 1 < base) (positive : 0 < n)
    (enough : n < base^fuel) (free : (Nat.digits base n).length ≤ q.room) :
    jsU64toa base fuel q n = some (q.written ((Nat.digits base n).map digitChar)) := by
  induction fuel generalizing q n with
  | zero =>
      rw [pow_zero] at enough
      omega
  | succ fuel ih =>
      rw [Nat.digits_def' radix positive] at free ⊢
      rw [List.length_cons] at free
      rw [jsU64toa, CharBuffer.put_eq (by omega), Option.bind_some, List.map_cons]
      by_cases more : n / base ≠ 0
      · have enough' : n / base < base^fuel := by
          apply Nat.div_lt_of_lt_mul
          rw [← pow_succ']
          exact enough
        have next := ih (q := q.written [digitChar (n % base)]) (Nat.pos_of_ne_zero more) enough'
          (by
            rw [CharBuffer.room_written, List.length_singleton]
            omega)
        rw [if_pos more, next, CharBuffer.written_append]
        rfl
      · rw [if_neg more, Decidable.not_not.mp more, Nat.digits_zero]
        rfl

end Buffer

section Groups

theorem isBinaryRadix_eq {radix : Nat} (low : 2 ≤ radix) (high : radix ≤ 36)
    (binary : isBinaryRadix radix = true) :
    1 ≤ 31 - clz32 radix ∧ 31 - clz32 radix ≤ 5 ∧ radix = 2^(31 - clz32 radix) := by
  have table : ∀ radix < 37, 2 ≤ radix → isBinaryRadix radix = true →
      1 ≤ 31 - clz32 radix ∧ 31 - clz32 radix ≤ 5 ∧ radix = 2^(31 - clz32 radix) := by
    decide
  exact table radix (by omega) low binary

theorem floorLog2_le {radix : Nat} (low : 2 ≤ radix) (high : radix ≤ 36) :
    1 ≤ 31 - clz32 radix ∧ 2^(31 - clz32 radix) ≤ radix := by
  have table : ∀ radix < 37, 2 ≤ radix →
      1 ≤ 31 - clz32 radix ∧ 2^(31 - clz32 radix) ≤ radix := by
    decide
  exact table radix (by omega) low

/-- The largest group of digits of the radix in one limb -/
theorem radixBase_eq (limbBits : LimbBits) {radix : Nat} (low : 2 ≤ radix) (high : radix ≤ 36)
    (general : isBinaryRadix radix = false) :
    (radixBaseTable limbBits).getD (radix - 2) 0
        = radix^((digitsPerLimbTable limbBits).getD (radix - 2) 0)
      ∧ 0 < (digitsPerLimbTable limbBits).getD (radix - 2) 0
      ∧ (radixBaseTable limbBits).getD (radix - 2) 0 < 2^limbBits.width := by
  have table : ∀ radix < 37, 2 ≤ radix → isBinaryRadix radix = false →
      (radixBaseTable limbBits).getD (radix - 2) 0
          = radix^((digitsPerLimbTable limbBits).getD (radix - 2) 0)
        ∧ 0 < (digitsPerLimbTable limbBits).getD (radix - 2) 0
        ∧ (radixBaseTable limbBits).getD (radix - 2) 0 < 2^limbBits.width := by
    cases limbBits <;> decide
  exact table radix (by omega) low general

theorem unsigned_singleton {tab : List (BitVec w)} (single : tab.length = 1) :
    unsigned tab = (tab.getD 0 0#w).toNat := by
  obtain ⟨x, rfl⟩ := List.length_eq_one_iff.mp single
  rw [unsigned_cons, unsigned_nil]
  rfl

/-- One round of the loop, on the number the limbs are of -/
theorem groupsLoop_step {radix base : Nat}
    (tableBase : (radixBaseTable limbBits).getD (radix - 2) 0 = base)
    (small : base < 2^limbBits.width) (positive : 0 < base)
    {tab : List (BitVec limbBits.width)} (nonempty : tab ≠ []) :
    ∃ tab', tab' ≠ [] ∧ unsigned tab' = unsigned tab / base
      ∧ ∀ fuel q, groupsLoop limbBits radix (fuel + 1) tab q
          = if unsigned tab < base then
              if unsigned tab ≠ 0 then jsU64toa radix limbBits.width q (unsigned tab) else some q
            else
              (limbToA radix ((digitsPerLimbTable limbBits).getD (radix - 2) 0) q
                (unsigned tab % base)).bind (groupsLoop limbBits radix fuel tab' ·) := by
  obtain ⟨some_, inside, value, top⟩ :=
    usedLen_spec tab (List.length_pos_iff.mpr nonempty) (le_refl _)
  rw [List.take_length] at value
  have length : (tab.take (usedLen tab tab.length)).length = usedLen tab tab.length :=
    List.length_take_of_le inside
  have divisor : (BitVec.ofNat limbBits.width base).toNat = base := by
    rw [BitVec.toNat_ofNat, Nat.mod_eq_of_lt small]
  have small' : 0#(limbBits.width) < BitVec.ofNat limbBits.width base := by
    rw [BitVec.lt_def, divisor]
    exact positive
  have exact_ : ∀ a1 a0, a1 < BitVec.ofNat limbBits.width base →
      divDouble a1 a0 (BitVec.ofNat limbBits.width base)
        = divDouble a1 a0 (BitVec.ofNat limbBits.width base) := fun _ _ _ => rfl
  have division := div1Loop_spec exact_ small' (tab.take (usedLen tab tab.length))
  rw [← mpDiv1, divisor, BitVec.lt_def, divisor, value] at division
  obtain ⟨quotient, remainder, sameLength⟩ := division
  rw [BitVec.toNat_zero, Nat.mul_zero, Nat.add_zero] at quotient
  refine ⟨(mpDiv1 (tab.take (usedLen tab tab.length)) (BitVec.ofNat limbBits.width base) 0#(limbBits.width)).1,
    ?_, ?_, ?_⟩
  · apply List.ne_nil_of_length_pos
    omega
  · rw [← quotient, Nat.mul_comm, Nat.mul_add_div positive, Nat.div_eq_of_lt remainder,
      Nat.add_zero]
  · intro fuel q
    have rest : unsigned tab % base
        = (mpDiv1 (tab.take (usedLen tab tab.length))
            (BitVec.ofNat limbBits.width base) 0#(limbBits.width)).2.toNat := by
      rw [← quotient, Nat.mul_comm, Nat.mul_add_mod, Nat.mod_eq_of_lt remainder]
    rw [groupsLoop, tableBase, rest]
    have last : (tab.take (usedLen tab tab.length)).length = 1
        ∧ ((tab.take (usedLen tab tab.length)).getD 0 0#(limbBits.width)).toNat < base
          ↔ unsigned tab < base := by
      constructor
      · rintro ⟨single, below⟩
        rw [← value, unsigned_singleton single]
        exact below
      · intro below
        have single : (tab.take (usedLen tab tab.length)).length = 1 := by
          by_contra more
          have high : (tab.take (usedLen tab tab.length)).getD
              ((tab.take (usedLen tab tab.length)).length - 1) 0#_ ≠ 0#_ := by
            rw [length, List.getD_eq_getElem?_getD, List.getElem?_take_of_lt (by omega),
              ← List.getD_eq_getElem?_getD]
            exact top (by omega)
          have weight := weight_le (List.ne_nil_of_length_pos (by omega)) high
          have limbs : 2^limbBits.width
              ≤ 2^(limbBits.width * ((tab.take (usedLen tab tab.length)).length - 1)) :=
            Nat.pow_le_pow_right (by decide) (Nat.le_mul_of_pos_right _ (by omega))
          omega
        refine ⟨single, ?_⟩
        rw [← unsigned_singleton single, value]
        exact below
    by_cases below : unsigned tab < base
    · have limb : ((tab.take (usedLen tab tab.length)).getD 0 0#(limbBits.width)).toNat = unsigned tab := by
        rw [← value]
        exact (unsigned_singleton (last.mpr below).1).symm
      rw [if_pos below]
      dsimp only
      rw [if_pos (last.mpr below), limb]
    · rw [if_neg below]
      dsimp only
      rw [if_neg (fun stop => below (last.mp stop))]

theorem groupsLoop_eq {radix fuel : Nat} (low : 2 ≤ radix) (high : radix ≤ 36)
    (general : isBinaryRadix radix = false) {tab : List (BitVec limbBits.width)}
    (nonempty : tab ≠ []) (enough : unsigned tab < 2^fuel) {q : CharBuffer}
    (free : (Nat.digits radix (unsigned tab)).length ≤ q.room) :
    groupsLoop limbBits radix (fuel + 1) tab q
      = some (q.written ((Nat.digits radix (unsigned tab)).map digitChar)) := by
  obtain ⟨base, group, small⟩ := radixBase_eq limbBits low high general
  generalize tableBase : (radixBaseTable limbBits).getD (radix - 2) 0 = b at base small
  have two : 2 ≤ b := by
    rw [base]
    exact low.trans (Nat.le_self_pow (Nat.ne_of_gt group) radix)
  induction fuel generalizing tab q with
  | zero =>
      obtain ⟨_, -, -, step⟩ := groupsLoop_step tableBase small (by omega) nonempty
      have zero : unsigned tab = 0 := by simpa using enough
      rw [step, zero, if_pos (by omega), if_neg (not_not.mpr rfl), Nat.digits_zero]
      rfl
  | succ fuel ih =>
      obtain ⟨tab', nonempty', quotient, step⟩ :=
        groupsLoop_step tableBase small (by omega) nonempty
      rw [step]
      by_cases last : unsigned tab < b
      · rw [if_pos last]
        by_cases zero : unsigned tab = 0
        · rw [if_neg (not_not.mpr zero), zero, Nat.digits_zero]
          rfl
        · have bits : unsigned tab < radix^limbBits.width :=
            (last.trans small).trans_le (Nat.pow_le_pow_left low _)
          rw [if_pos zero]
          exact jsU64toa_eq (by omega) (Nat.pos_of_ne_zero zero) bits free
      · have more : 0 < unsigned tab / b := Nat.div_pos (by omega) (by omega)
        have below : unsigned tab % b < radix^((digitsPerLimbTable limbBits).getD (radix - 2) 0) := by
          rw [← base]
          exact Nat.mod_lt _ (by omega)
        have split : Nat.digits radix (unsigned tab)
            = lowDigits radix ((digitsPerLimbTable limbBits).getD (radix - 2) 0) (unsigned tab % b)
              ++ Nat.digits radix (unsigned tab') := by
          rw [quotient, ← digits_split (by omega) below more, ← base, Nat.mod_add_div]
        have enough' : unsigned tab' < 2^fuel := by
          rw [quotient]
          apply Nat.div_lt_of_lt_mul
          calc unsigned tab < 2^(fuel + 1) := enough
            _ = 2 * 2^fuel := pow_succ' 2 fuel
            _ ≤ b * 2^fuel := Nat.mul_le_mul_right _ two
        rw [split, List.length_append, length_lowDigits] at free
        rw [if_neg last, limbToA_eq _ (by omega), Option.bind_some,
          ih nonempty' enough' (by
            rw [CharBuffer.room_written, List.length_map, length_lowDigits]
            omega),
          CharBuffer.written_append, split, List.map_append]

end Groups

section Binary

/-- The bits of a digit lie in one limb or in two. -/
theorem binaryDigit_eq {radix log2Radix : Nat} (power : radix = 2^log2Radix)
    (small : log2Radix ≤ 5) (wide : 32 ≤ w) (tab : List (BitVec w)) (i : Nat) :
    binaryDigit tab radix log2Radix i = unsigned tab / radix^i % radix := by
  apply Nat.eq_of_testBit_eq
  intro j
  rw [power, ← pow_mul, Nat.testBit_mod_two_pow, Nat.testBit_div_two_pow, binaryDigit,
    BitVec.testBit_toNat, BitVec.getLsbD_and]
  have mask : (BitVec.ofNat 32 (2^log2Radix - 1)).getLsbD j = decide (j < log2Radix) := by
    rw [BitVec.getLsbD_ofNat, Nat.testBit_two_pow_sub_one]
    by_cases inside : j < log2Radix
    · simp [inside, show j < 32 by omega]
    · simp [inside]
  rw [mask]
  by_cases inside : j < log2Radix
  · have position : log2Radix * i + j = w * (i * log2Radix / w) + (i * log2Radix % w + j) := by
      rw [← Nat.add_assoc, Nat.div_add_mod, Nat.mul_comm]
    rw [decide_eq_true inside, Bool.and_true, Bool.true_and, Nat.add_comm j, position]
    generalize i * log2Radix / w = pos
    generalize shiftEq : i * log2Radix % w = shift
    have shiftBound : shift < w := shiftEq ▸ Nat.mod_lt _ (by omega)
    have low : ((tab.getD pos 0#w >>> shift).setWidth 32).getLsbD j
        = (decide (shift + j < w) && (unsigned tab).testBit (w * pos + (shift + j))) := by
      rw [BitVec.getLsbD_setWidth, BitVec.getLsbD_ushiftRight, getLsbD_getD,
        decide_eq_true (show j < 32 by omega), Bool.true_and]
    have high : ((tab.getD (pos + 1) 0#w <<< (w - shift)).setWidth 32).getLsbD j
        = (decide (w ≤ shift + j) && (unsigned tab).testBit (w * pos + (shift + j))) := by
      rw [BitVec.getLsbD_setWidth, BitVec.getLsbD_shiftLeft, getLsbD_getD,
        decide_eq_true (show j < 32 by omega), decide_eq_true (show j < w by omega),
        decide_eq_true (show j - (w - shift) < w by omega), Bool.true_and, Bool.true_and,
        Bool.true_and]
      by_cases crosses : w ≤ shift + j
      · have bit : w * (pos + 1) + (j - (w - shift)) = w * pos + (shift + j) := by
          rw [Nat.mul_succ]
          omega
        rw [bit, decide_eq_false (show ¬ j < w - shift by omega), decide_eq_true crosses]
        rfl
      · rw [decide_eq_true (show j < w - shift by omega), decide_eq_false crosses]
        rfl
    by_cases both : w < shift + log2Radix ∧ pos + 1 < tab.length
    · rw [if_pos both, BitVec.getLsbD_or, low, high, ← Bool.and_or_distrib_right]
      have either : decide (shift + j < w) || decide (w ≤ shift + j) := by
        rw [Bool.or_eq_true, decide_eq_true_iff, decide_eq_true_iff]
        exact Nat.lt_or_ge _ _
      rw [either, Bool.true_and]
    · rw [if_neg both, low]
      by_cases crosses : shift + j < w
      · rw [decide_eq_true crosses, Bool.true_and]
      · have past : unsigned tab < 2^(w * pos + (shift + j)) := by
          have last : tab.length ≤ pos + 1 := by omega
          apply (unsigned_lt tab).trans_le
          apply Nat.pow_le_pow_right (by decide)
          calc w * tab.length ≤ w * (pos + 1) := Nat.mul_le_mul_left w last
            _ = w * pos + w := Nat.mul_succ w pos
            _ ≤ w * pos + (shift + j) := by omega
        rw [decide_eq_false crosses, Nat.testBit_lt_two_pow past, Bool.false_and]
  · rw [decide_eq_false inside, Bool.and_false, Bool.false_and]

theorem binaryLoop_eq (tab : List (BitVec w)) {radix log2Radix : Nat}
    (power : radix = 2^log2Radix) (some_ : 1 ≤ log2Radix) (small : log2Radix ≤ 5) (wide : 32 ≤ w)
    {q : CharBuffer} (free : (Nat.digits radix (unsigned tab)).length ≤ q.room) :
    binaryLoop tab radix log2Radix (Nat.digits radix (unsigned tab)).length q
      = some (q.written ((Nat.digits radix (unsigned tab)).map digitChar)) := by
  have base : 1 < radix := power ▸ Nat.one_lt_two_pow (by omega)
  rw [binaryLoop, put_all _ _ (by rwa [List.length_range])]
  congr 2
  conv_rhs => rw [← lowDigits_digits base, lowDigits_eq_map, List.map_map]
  apply List.map_congr_left
  intro i _
  rw [binaryDigit_eq power small wide]
  rfl

end Binary

section Estimate

/-- The bits that the estimate counts are those of the number. -/
theorem bitLength_spec (positive : 0 < w) {tab : List (BitVec w)} (normal : Normalized tab)
    (natural : negative tab = false) (some_ : 0 < unsigned tab) :
    ∃ bits, tab.length * w - (tab.getD (tab.length - 1) 0#w).clz.toNat = bits + 1
      ∧ 2^bits ≤ unsigned tab ∧ unsigned tab < 2^(bits + 1) := by
  obtain ⟨low, parts⟩ := limbs_split (a := ⟨tab⟩) normal.nonempty
  rw [JSBigInt.limb, JSBigInt.len] at parts
  dsimp only at parts
  have length : tab.length = low.length + 1 := by
    rw [parts, List.length_append, List.length_singleton]
  have value := congrArg unsigned parts
  rw [unsigned_append, unsigned_cons, unsigned_nil, Nat.mul_zero, Nat.add_zero] at value
  have lowBound := unsigned_lt low
  generalize tab.getD (tab.length - 1) 0#w = x at value ⊢
  rw [length, Nat.succ_mul, Nat.mul_comm low.length]
  by_cases zero : x = 0#w
  · have whole : unsigned tab < 2^(w * low.length) := by
      rw [value, zero, BitVec.toNat_zero, Nat.mul_zero, Nat.add_zero]
      exact lowBound
    have limbs : 0 < w * low.length := by
      apply Nat.pos_of_ne_zero
      intro none_
      rw [none_, pow_zero] at whole
      omega
    have absolute : (JSBigInt.mk tab).value = unsigned tab := by
      rw [JSBigInt.value, signed, signWeight, if_neg (by simp [natural])]
      exact sub_zero _
    have large := normalized_large positive (a := ⟨tab⟩) normal (by
      rw [absolute]
      exact_mod_cast Nat.ne_of_gt some_)
    rw [absolute, Int.natAbs_natCast, JSBigInt.len, length, Nat.add_sub_cancel] at large
    refine ⟨w * low.length - 1, ?_, large, ?_⟩
    · rw [BitVec.clz_eq_iff_eq_zero.mpr zero, BitVec.natCast_eq_ofNat, BitVec.toNat_ofNat,
        Nat.mod_eq_of_lt Nat.lt_two_pow_self]
      omega
    · rw [Nat.sub_add_cancel limbs]
      exact whole
  · have inside : x.clz.toNat < w := by
      have below := BitVec.lt_def.mp (BitVec.clz_lt_iff_ne_zero.mpr zero)
      rwa [BitVec.natCast_eq_ofNat, BitVec.toNat_ofNat, Nat.mod_eq_of_lt Nat.lt_two_pow_self] at below
    have least := BitVec.two_pow_sub_clz_le_toNat_of_ne_zero positive zero
    have most := BitVec.toNat_lt_two_pow_sub_clz (x := x)
    refine ⟨w * low.length + (w - 1 - x.clz.toNat), by omega, ?_, ?_⟩
    · calc 2^(w * low.length + (w - 1 - x.clz.toNat))
          = 2^(w * low.length) * 2^(w - 1 - x.clz.toNat) := pow_add 2 _ _
        _ ≤ 2^(w * low.length) * x.toNat := Nat.mul_le_mul_left _ least
        _ ≤ unsigned tab := by omega
    · calc unsigned tab < 2^(w * low.length) + 2^(w * low.length) * x.toNat := by omega
        _ = 2^(w * low.length) * (x.toNat + 1) := by ring
        _ ≤ 2^(w * low.length) * 2^(w - x.clz.toNat) := Nat.mul_le_mul_left _ most
        _ = 2^(w * low.length + (w - 1 - x.clz.toNat) + 1) := by
            rw [← pow_add]
            congr 1
            omega

/-- The buffer holds all digits, and for a power of two it is full. -/
theorem digitEstimate_spec (positive : 0 < w) {radix : Nat} (low : 2 ≤ radix) (high : radix ≤ 36)
    {tab : List (BitVec w)} (normal : Normalized tab) (natural : negative tab = false)
    (some_ : 0 < unsigned tab) :
    (Nat.digits radix (unsigned tab)).length ≤ digitEstimate tab radix
      ∧ (isBinaryRadix radix = true →
          digitEstimate tab radix = (Nat.digits radix (unsigned tab)).length) := by
  obtain ⟨bits, count, least, most⟩ := bitLength_spec positive normal natural some_
  obtain ⟨some', floor⟩ := floorLog2_le low high
  have log : 0 < 31 - clz32 radix := some'
  generalize logEq : 31 - clz32 radix = l at log floor
  have estimate : digitEstimate tab radix = bits / l + 1 := by
    rw [digitEstimate, logEq, count, show bits + 1 + l - 1 = bits + l by omega, Nat.add_div_right bits log]
  have enough : 2^(bits + 1) ≤ 2^(l * (bits / l + 1)) := by
    apply Nat.pow_le_pow_right (by decide)
    exact Nat.lt_mul_div_succ bits log
  rw [estimate]
  constructor
  · apply length_digits_le (by omega)
    calc unsigned tab < 2^(bits + 1) := most
      _ ≤ 2^(l * (bits / l + 1)) := enough
      _ = (2^l)^(bits / l + 1) := pow_mul 2 _ _
      _ ≤ radix^(bits / l + 1) := Nat.pow_le_pow_left floor _
  · intro binary
    have power := (isBinaryRadix_eq low high binary).2.2
    rw [logEq] at power
    symm
    apply length_digits_eq (by omega)
    · calc radix^(bits / l) = 2^(l * (bits / l)) := by rw [power, ← pow_mul]
        _ ≤ 2^bits := Nat.pow_le_pow_right (by decide) (Nat.mul_div_le bits l)
        _ ≤ unsigned tab := least
    · calc unsigned tab < 2^(bits + 1) := most
        _ ≤ 2^(l * (bits / l + 1)) := enough
        _ = radix^(bits / l + 1) := by rw [power, ← pow_mul]

end Estimate

section Text

/-- The numeral of an integer: a minus sign below zero, and the digits of the absolute value -/
def signedNumeral (radix : Nat) (x : Int) : List Char :=
  (if x < 0 then ['-'] else []) ++ numeral digitChar radix x.natAbs

theorem toStringText_eq (limbBits : LimbBits) {radix : Nat} (low : 2 ≤ radix) (high : radix ≤ 36)
    {tab : List (BitVec limbBits.width)} (normal : Normalized tab)
    (natural : negative tab = false) (some_ : 0 < unsigned tab) (isNeg : Bool) :
    toStringText limbBits tab radix isNeg
      = some ((if isNeg then ['-'] else []) ++ numeral digitChar radix (unsigned tab)) := by
  have wide : 32 ≤ limbBits.width := by cases limbBits <;> decide
  obtain ⟨enough, exact_⟩ := digitEstimate_spec (by omega) low high normal natural some_
  rw [toStringText, numeral_of_pos digitChar some_]
  generalize estimate : digitEstimate tab radix = n at enough exact_ ⊢
  have loops : (if isBinaryRadix radix then
        binaryLoop tab radix (31 - clz32 radix) n ⟨n + isNeg.toNat, []⟩
      else groupsLoop limbBits radix (limbBits.width * tab.length + 1) tab ⟨n + isNeg.toNat, []⟩)
      = some (CharBuffer.written ⟨n + isNeg.toNat, []⟩
          ((Nat.digits radix (unsigned tab)).map digitChar)) := by
    have free : (Nat.digits radix (unsigned tab)).length ≤ n + isNeg.toNat := by omega
    by_cases binary : isBinaryRadix radix = true
    · obtain ⟨one, five, power⟩ := isBinaryRadix_eq low high binary
      have full := binaryLoop_eq tab power one five wide (q := ⟨n + isNeg.toNat, []⟩) free
      rw [← exact_ binary] at full
      rw [if_pos binary]
      exact full
    · rw [if_neg binary]
      exact groupsLoop_eq low high (Bool.not_eq_true _ ▸ binary) normal.nonempty
        (unsigned_lt tab) free
  rw [loops]
  cases isNeg with
  | false => simp [CharBuffer.written]
  | true =>
      have room : 0 < (CharBuffer.written ⟨n + true.toNat, []⟩
          ((Nat.digits radix (unsigned tab)).map digitChar)).room := by
        rw [CharBuffer.room_written, List.length_map]
        exact Nat.sub_pos_of_lt (Nat.lt_succ_of_le enough)
      rw [if_pos rfl, Option.bind_some, CharBuffer.put_eq room]
      simp [CharBuffer.written]

theorem toStringOperand_denotes {a : JSBigInt limbBits.width} (normal : Normalized a.tab)
    (radix : Nat) :
    Outcome (toStringOperand a radix) (Denotes a.value.natAbs)
      (SizeRefused limbBits.width a.len) := by
  have sized : stackLimbs ≤ maxSize limbBits.width := by cases limbBits <;> decide
  have positive : 0 < limbBits.width := by cases limbBits <;> decide
  have sign := (jsBigintSign_ne_zero positive a).trans (negative_iff a.tab)
  rw [toStringOperand]
  by_cases below : a.value < 0
  · have outcome := jsBigintNeg_denotes positive sized normal.nonempty
    rw [← Int.natAbs_neg, Int.natAbs_of_nonneg (by omega), if_pos (sign.mpr below)]
    exact outcome
  · have same : Denotes a.value.natAbs a := ⟨normal, (Int.natAbs_of_nonneg (by omega)).symm⟩
    rw [if_neg (fun signed_ => below (sign.mp signed_))]
    by_cases general : ¬ isBinaryRadix radix = true
    · rw [if_pos general]
      exact new_then_pure same
    · rw [if_neg general]
      exact Outcome.pure same

theorem jsBigintToString1_prints {radix : Nat} (low : 2 ≤ radix) (high : radix ≤ 36)
    {a : JSBigInt limbBits.width} (normal : Normalized a.tab) :
    Outcome (jsBigintToString1 limbBits a radix) (· = some (signedNumeral radix a.value))
      (SizeRefused limbBits.width a.len) := by
  have positive : 0 < limbBits.width := by cases limbBits <;> decide
  rw [jsBigintToString1]
  by_cases zero : a.len = 1 ∧ a.limb 0 = 0#(limbBits.width)
  · have value : a.value = 0 := by
      rw [JSBigInt.value, limb_zero zero.1, zero.2, signed_singleton]
      exact BitVec.toInt_zero
    rw [if_pos zero, value]
    apply Outcome.bind Outcome.allocate
    intro _ _
    exact Outcome.pure rfl
  · have nonzero : a.value ≠ 0 := by
      intro value
      have single : Denotes 0 (⟨[0#_]⟩ : JSBigInt limbBits.width) :=
        ⟨normalized_singleton _, (signed_singleton _).trans BitVec.toInt_zero⟩
      have same := Denotes.unique positive ⟨normal, value⟩ single
      exact zero (by
        rw [same]
        exact ⟨rfl, rfl⟩)
    rw [if_neg zero]
    apply Outcome.bind (toStringOperand_denotes normal radix)
    rintro r ⟨normal', value⟩
    apply Outcome.bind Outcome.allocate
    intro _ _
    have natural : negative r.tab = false := by
      rw [← Bool.not_eq_true, negative_iff]
      change ¬ r.value < 0
      omega
    have limbs : (unsigned r.tab : Int) = a.value.natAbs := by
      rw [← value, JSBigInt.value, signed, signWeight, if_neg (by simp [natural])]
      exact (sub_zero _).symm
    have sign : decide (jsBigintSign a ≠ 0#(limbBits.width)) = decide (a.value < 0) := by
      rw [decide_eq_decide]
      exact (jsBigintSign_ne_zero positive a).trans (negative_iff a.tab)
    have text := toStringText_eq limbBits low high normal' natural (by omega)
      (decide (a.value < 0))
    have numeral_ : some ((if decide (a.value < 0) then ['-'] else [])
        ++ numeral digitChar radix (unsigned r.tab)) = some (signedNumeral radix a.value) := by
      rw [signedNumeral, show unsigned r.tab = a.value.natAbs by exact_mod_cast limbs]
      simp only [decide_eq_true_eq]
    rw [sign, text, numeral_]
    apply Outcome.bind Outcome.allocate
    intro _ _
    exact Outcome.pure rfl

end Text

end PrimJs.BigInt
