import Mathlib.Tactic
import Mathlib.Data.Int.Bitwise
import Mathlib.Data.Int.ModEq
import Mathlib.Tactic.Linarith
import Mathlib.Tactic.Ring

/-! Integers as lists of limbs in two's complement, the low limb first. -/

namespace PrimJs.Limbs

variable {w : Nat}

def unsigned : List (BitVec w) → Nat
  | [] => 0
  | x :: rest => x.toNat + 2^w * unsigned rest

def negative (tab : List (BitVec w)) : Bool := (tab.getLast?.map BitVec.msb).getD false

/-- `2^(w * n)` for the sign of `n` limbs. -/
def signWeight (tab : List (BitVec w)) : Nat :=
  if negative tab then 2^(w * tab.length) else 0

def signed (tab : List (BitVec w)) : Int := unsigned tab - signWeight tab

def signLimb (tab : List (BitVec w)) : BitVec w :=
  if negative tab then BitVec.allOnes w else 0#w

section Unsigned

@[simp] theorem unsigned_nil : unsigned ([] : List (BitVec w)) = 0 := rfl

@[simp] theorem unsigned_cons (x : BitVec w) (rest : List (BitVec w)) :
    unsigned (x :: rest) = x.toNat + 2^w * unsigned rest := rfl

theorem pow_succ_length (x : BitVec w) (rest : List (BitVec w)) :
    2^(w * (x :: rest).length) = 2^w * 2^(w * rest.length) := by
  rw [List.length_cons, Nat.mul_succ, Nat.add_comm, Nat.pow_add]

theorem unsigned_lt (tab : List (BitVec w)) : unsigned tab < 2^(w * tab.length) := by
  induction tab with
  | nil => simp
  | cons x rest ih =>
      have limb := x.isLt
      rw [pow_succ_length, unsigned_cons]
      calc
        x.toNat + 2^w * unsigned rest < 2^w + 2^w * unsigned rest := by omega
        _ = 2^w * (unsigned rest + 1) := by ring
        _ ≤ 2^w * 2^(w * rest.length) := Nat.mul_le_mul_left _ ih

theorem toNat_getD (tab : List (BitVec w)) (p : Nat) :
    (tab.getD p 0#w).toNat = unsigned tab / 2^(w * p) % 2^w := by
  induction tab generalizing p with
  | nil => simp
  | cons x tab ih =>
      cases p with
      | zero =>
          rw [unsigned_cons, Nat.mul_zero, pow_zero, Nat.div_one, Nat.add_mul_mod_self_left,
            Nat.mod_eq_of_lt x.isLt]
          rfl
      | succ p =>
          have next : unsigned (x :: tab) / 2^(w * (p + 1)) = unsigned tab / 2^(w * p) := by
            rw [unsigned_cons, Nat.mul_succ, Nat.add_comm (w * p), pow_add,
              ← Nat.div_div_eq_div_mul, Nat.add_mul_div_left _ _ (Nat.two_pow_pos w),
              Nat.div_eq_of_lt x.isLt, Nat.zero_add]
          rw [next]
          exact ih p

theorem getLsbD_getD (tab : List (BitVec w)) (p j : Nat) :
    (tab.getD p 0#w).getLsbD j = (decide (j < w) && (unsigned tab).testBit (w * p + j)) := by
  rw [← BitVec.testBit_toNat, toNat_getD, Nat.testBit_mod_two_pow, Nat.testBit_div_two_pow,
    Nat.add_comm]

theorem unsigned_append (low high : List (BitVec w)) :
    unsigned (low ++ high) = unsigned low + 2^(w * low.length) * unsigned high := by
  induction low with
  | nil => simp
  | cons x rest ih =>
      rw [List.cons_append, unsigned_cons, unsigned_cons, ih, pow_succ_length]
      ring

theorem unsigned_replicate_zero (n : Nat) :
    unsigned (List.replicate n (0#w)) = 0 := by
  induction n with
  | zero => rfl
  | succ n ih => simp [List.replicate_succ, ih]

theorem unsigned_replicate_ones (n : Nat) :
    unsigned (List.replicate n (BitVec.allOnes w)) = 2^(w * n) - 1 := by
  induction n with
  | zero => simp
  | succ n ih =>
      have positive := Nat.two_pow_pos w
      have positiveN := Nat.two_pow_pos (w * n)
      have split_ : 2^(w * (n + 1)) = 2^w * 2^(w * n) := by
        rw [Nat.mul_succ, Nat.add_comm, Nat.pow_add]
      rw [List.replicate_succ, unsigned_cons, ih, split_, BitVec.toNat_allOnes, Nat.mul_sub]
      have le : 2^w * 1 ≤ 2^w * 2^(w * n) := Nat.mul_le_mul_left _ positiveN
      omega

end Unsigned

section Sign

@[simp] theorem negative_singleton (x : BitVec w) : negative [x] = x.msb := rfl

section

variable (low : List (BitVec w)) {high : List (BitVec w)} (nonempty : high ≠ [])

include nonempty

theorem negative_append : negative (low ++ high) = negative high := by
  have last : (low ++ high).getLast? = high.getLast? := by
    rw [List.getLast?_append, List.getLast?_eq_some_getLast nonempty, Option.some_or]
  rw [negative, negative, last]

theorem signed_append : signed (low ++ high) = unsigned low + 2^(w * low.length) * signed high := by
  have weight : signWeight (low ++ high) = 2^(w * low.length) * signWeight high := by
    rw [signWeight, signWeight, negative_append low nonempty]
    by_cases sign : negative high = true
    · rw [if_pos sign, if_pos sign, List.length_append, Nat.mul_add, Nat.pow_add]
    · rw [if_neg sign, if_neg sign, Nat.mul_zero]
  rw [signed, signed, unsigned_append, weight]
  push_cast
  ring

end

theorem signed_singleton (x : BitVec w) : signed [x] = x.toInt := by
  rw [signed, signWeight, negative_singleton, BitVec.toInt_eq_msb_cond]
  by_cases sign : x.msb = true <;> simp [sign]

theorem signed_modEq (tab : List (BitVec w)) :
    signed tab ≡ unsigned tab [ZMOD 2^(w * tab.length)] := by
  rw [signed, signWeight]
  by_cases sign : negative tab = true
  · rw [if_pos sign]
    refine (Int.modEq_iff_dvd.mpr ?_)
    exact ⟨1, by push_cast; ring⟩
  · rw [if_neg sign]
    simp

theorem signed_range (positive : 0 < w) {tab : List (BitVec w)} (nonempty : tab ≠ []) :
    -(2^(w * tab.length - 1) : Int) ≤ signed tab ∧ signed tab < 2^(w * tab.length - 1) := by
  obtain ⟨low, top, rfl⟩ := List.eq_nil_or_concat tab |>.resolve_left nonempty
  rw [List.concat_eq_append, signed_append low (List.cons_ne_nil _ _), signed_singleton]
  have lowBound := unsigned_lt low
  have limb := BitVec.le_toInt top
  have limb' := BitVec.toInt_lt (x := top)
  have length : w * (low ++ [top]).length - 1 = w * low.length + (w - 1) := by
    rw [List.length_append, List.length_singleton, Nat.mul_add, Nat.mul_one]
    omega
  rw [length, pow_add]
  have pos : (0 : Int) < 2^(w * low.length) := by positivity
  have lowBound' : (unsigned low : Int) < 2^(w * low.length) := by exact_mod_cast lowBound
  constructor
  · nlinarith
  · nlinarith

/-- A number in the range of `n` limbs is determined by its residue. -/
theorem signed_eq (positive : 0 < w) {tab : List (BitVec w)} (nonempty : tab ≠ []) {x : Int}
    (low : -(2^(w * tab.length - 1) : Int) ≤ x) (high : x < 2^(w * tab.length - 1))
    (residue : (unsigned tab : Int) ≡ x [ZMOD 2^(w * tab.length)]) : signed tab = x := by
  have range := signed_range positive nonempty
  have same := (signed_modEq tab).trans residue
  have bits : 0 < w * tab.length := Nat.mul_pos positive (List.length_pos_iff.mpr nonempty)
  have double : (2 : Int)^(w * tab.length) = 2 * 2^(w * tab.length - 1) := by
    rw [← pow_succ', Nat.sub_add_cancel bits]
  obtain ⟨k, difference⟩ := Int.modEq_iff_dvd.mp same
  rw [double] at difference
  have pos : (0 : Int) < 2^(w * tab.length - 1) := by positivity
  generalize (2 : Int)^(w * tab.length - 1) = half at *
  have small : k = 0 := by
    by_contra nonzero
    rcases Int.lt_or_gt_of_ne nonzero with below | above
    · nlinarith
    · nlinarith
  rw [small] at difference
  linarith

end Sign

section SignBit

def signBitOf (tab : List (BitVec w)) : Nat := if negative tab then 1 else 0

theorem signed_eq_signBitOf (tab : List (BitVec w)) :
    signed tab = unsigned tab - 2^(w * tab.length) * signBitOf tab := by
  rw [signed, signWeight, signBitOf]
  by_cases sign : negative tab = true <;> simp [sign]

theorem signLimb_modEq (tab : List (BitVec w)) :
    ((signLimb tab).toNat : Int) ≡ -signBitOf tab [ZMOD 2^w] := by
  rw [signLimb, signBitOf]
  by_cases sign : negative tab = true
  · have pos := Nat.two_pow_pos w
    rw [if_pos sign, if_pos sign, BitVec.toNat_allOnes, Nat.cast_sub pos]
    apply Int.modEq_iff_dvd.mpr
    exact ⟨-1, by push_cast; ring⟩
  · simp [sign]

end SignBit

section Extension

theorem negative_replicate (n : Nat) (x : BitVec w) :
    negative (List.replicate (n + 1) x) = x.msb := by
  rw [negative, List.getLast?_replicate]
  simp

variable (positive : 0 < w)
include positive

theorem signed_replicate_signLimb (n : Nat) (tab : List (BitVec w)) :
    signed (List.replicate (n + 1) (signLimb tab)) = if negative tab then -1 else 0 := by
  rw [signed, signWeight, negative_replicate, List.length_replicate, signLimb]
  by_cases sign : negative tab = true
  · have pos := Nat.two_pow_pos (w * (n + 1))
    simp only [sign, if_true, BitVec.msb_allOnes positive, unsigned_replicate_ones]
    omega
  · have zero : (0#w).msb = false := BitVec.msb_zero
    simp only [sign, if_false, zero, unsigned_replicate_zero, Bool.false_eq_true]
    rfl

theorem signed_append_signLimb (n : Nat) (tab : List (BitVec w)) :
    signed (tab ++ List.replicate n (signLimb tab)) = signed tab := by
  cases n with
  | zero => rw [List.replicate_zero, List.append_nil]
  | succ n =>
      have extension : List.replicate (n + 1) (signLimb tab) ≠ [] := by simp
      rw [signed_append tab extension, signed_replicate_signLimb positive, signed, signWeight]
      by_cases sign : negative tab = true
      · simp only [sign, if_true]
        push_cast
        ring
      · simp [sign]

theorem negative_append_signLimb (n : Nat) {tab : List (BitVec w)} :
    negative (tab ++ List.replicate n (signLimb tab)) = negative tab := by
  cases n with
  | zero => rw [List.replicate_zero, List.append_nil]
  | succ n =>
      have extension : List.replicate (n + 1) (signLimb tab) ≠ [] := by simp
      rw [negative_append tab extension, negative_replicate, signLimb]
      by_cases sign : negative tab = true
      · simp [sign, BitVec.msb_allOnes positive]
      · simp [sign]

end Extension

section Complement

theorem unsigned_not (tab : List (BitVec w)) :
    unsigned (tab.map (~~~ ·)) + unsigned tab + 1 = 2^(w * tab.length) := by
  induction tab with
  | nil => simp
  | cons x rest ih =>
      have limb := x.isLt
      rw [pow_succ_length, ← ih, List.map_cons, unsigned_cons, unsigned_cons, BitVec.toNat_not]
      generalize unsigned (rest.map (~~~ ·)) = notRest
      have expand : 2^w * (notRest + unsigned rest + 1)
          = 2^w * notRest + 2^w * unsigned rest + 2^w := by ring
      omega

section

variable (positive : 0 < w) {tab : List (BitVec w)} (nonempty : tab ≠ [])

include positive nonempty

theorem negative_not : negative (tab.map (~~~ ·)) = !negative tab := by
  rw [negative, negative, List.getLast?_map, List.getLast?_eq_some_getLast nonempty]
  simp [BitVec.msb_not, positive]

theorem signLimb_not : signLimb (tab.map (~~~ ·)) = ~~~signLimb tab := by
  rw [signLimb, signLimb, negative_not positive nonempty]
  by_cases sign : negative tab = true <;> simp [sign]

theorem signed_not : signed (tab.map (~~~ ·)) = -1 - signed tab := by
  have total := unsigned_not tab
  rw [signed, signed, signWeight, signWeight, negative_not positive nonempty, List.length_map]
  by_cases sign : negative tab = true
  · simp only [sign, Bool.not_true, Bool.false_eq_true, if_false, if_true]
    omega
  · have plain : negative tab = false := by simpa using sign
    simp only [plain, Bool.not_false, Bool.false_eq_true, if_false, if_true]
    omega

end

end Complement

section NormalForm

/-- No limb at the top only repeats the sign of the limb below it. -/
def Normalized (tab : List (BitVec w)) : Prop :=
  tab ≠ [] ∧ ∀ low x y, tab = low ++ [x, y] → y ≠ signLimb [x]

theorem Normalized.nonempty {tab : List (BitVec w)} (normal : Normalized tab) : tab ≠ [] := normal.1

theorem normalized_singleton (x : BitVec w) : Normalized [x] := by
  refine ⟨List.cons_ne_nil _ _, fun low y z same => ?_⟩
  have lengths := congrArg List.length same
  simp at lengths

theorem normalized_append (low : List (BitVec w)) (x y : BitVec w) :
    Normalized (low ++ [x, y]) ↔ y ≠ signLimb [x] := by
  constructor
  · intro normal
    exact normal.2 low x y rfl
  · intro differs
    refine ⟨by simp, fun low' x' y' same => ?_⟩
    have tops := List.append_inj_right' same rfl
    simp only [List.cons.injEq, and_true] at tops
    rw [← tops.1, ← tops.2]
    exact differs

/-- The range of the numbers `n` limbs hold. -/
def Fits (w n : Nat) (x : Int) : Prop := -(2^(w * n - 1) : Int) ≤ x ∧ x < 2^(w * n - 1)

theorem Fits.mono {n m : Nat} {x : Int} (le : n ≤ m) (fits : Fits w n x) : Fits w m x := by
  have grows : (2 : Int)^(w * n - 1) ≤ 2^(w * m - 1) :=
    pow_le_pow_right₀ (by norm_num) (Nat.sub_le_sub_right (Nat.mul_le_mul_left w le) 1)
  exact ⟨by linarith [fits.1], by linarith [fits.2]⟩

variable (positive : 0 < w)
include positive

theorem fits_signed {tab : List (BitVec w)} (nonempty : tab ≠ []) :
    Fits w tab.length (signed tab) :=
  signed_range positive nonempty

/-- The form is minimal: one limb less cannot hold the number. -/
theorem Normalized.not_fits {tab : List (BitVec w)} (normal : Normalized tab) {n : Nat}
    (shorter : n < tab.length) (some_ : 0 < n) : ¬ Fits w n (signed tab) := by
  obtain ⟨front, y, rfl⟩ := List.eq_nil_or_concat tab |>.resolve_left normal.nonempty
  rw [List.concat_eq_append] at normal shorter ⊢
  have frontNonempty : front ≠ [] := by
    intro empty
    simp [empty] at shorter
    omega
  obtain ⟨low, x, rfl⟩ := List.eq_nil_or_concat front |>.resolve_left frontNonempty
  rw [List.concat_eq_append, List.append_assoc, List.singleton_append] at normal shorter ⊢
  intro fits
  apply (normalized_append low x y).mp normal
  have le : n ≤ low.length + 1 := by
    simp at shorter
    omega
  have range := fits.mono le
  have value : signed (low ++ [x, y])
      = unsigned low + 2^(w * low.length) * (x.toNat + 2^w * y.toInt) := by
    rw [signed_append low (by simp), ← List.singleton_append,
      signed_append [x] (List.cons_ne_nil _ _), signed_singleton]
    simp
  have bits : w * (low.length + 1) - 1 = w * low.length + (w - 1) := by
    rw [Nat.mul_succ]
    omega
  rw [Fits, value, bits, pow_add] at range
  obtain ⟨below, above⟩ := range
  have lowBound : (unsigned low : Int) < 2^(w * low.length) := by exact_mod_cast unsigned_lt low
  have pos : (0 : Int) < 2^(w * low.length) := by positivity
  have half : (2 : Int)^w = 2 * 2^(w - 1) := by
    rw [← pow_succ', Nat.sub_add_cancel positive]
  have limb : (x.toNat : Int) < 2^w := by exact_mod_cast x.isLt
  generalize (2 : Int)^(w * low.length) = base at *
  have upper : (x.toNat : Int) + 2^w * y.toInt < 2^(w - 1) := by
    by_contra large
    nlinarith
  have lower : -(2^(w - 1) : Int) ≤ x.toNat + 2^w * y.toInt := by
    by_contra small
    nlinarith
  have halfPos : (0 : Int) < 2^(w - 1) := by positivity
  have sign := BitVec.msb_eq_decide x
  rw [signLimb, negative_singleton]
  apply BitVec.eq_of_toInt_eq
  by_cases top : x.msb = true
  · rw [if_pos top, BitVec.toInt_allOnes, if_pos positive]
    have large : 2^(w - 1) ≤ x.toNat := by simpa [top] using sign
    have large' : (2^(w - 1) : Int) ≤ x.toNat := by exact_mod_cast large
    nlinarith
  · rw [if_neg top, BitVec.toInt_zero]
    have small : x.toNat < 2^(w - 1) := by simpa [top] using sign
    have small' : (x.toNat : Int) < 2^(w - 1) := by exact_mod_cast small
    nlinarith

end NormalForm

section Uniqueness

theorem unsigned_injective {tab tab' : List (BitVec w)} (lengths : tab.length = tab'.length)
    (same : unsigned tab = unsigned tab') : tab = tab' := by
  induction tab generalizing tab' with
  | nil => exact (List.length_eq_zero_iff.mp lengths.symm).symm
  | cons x rest ih =>
      cases tab' with
      | nil => simp at lengths
      | cons y rest' =>
          have limb := x.isLt
          have limb' := y.isLt
          rw [unsigned_cons, unsigned_cons] at same
          have low : x.toNat = y.toNat := by
            have mods := congrArg (· % 2^w) same
            simpa [Nat.add_mul_mod_self_left, Nat.mod_eq_of_lt limb, Nat.mod_eq_of_lt limb']
              using mods
          have high : unsigned rest = unsigned rest' := by
            have pos := Nat.two_pow_pos w
            rw [low] at same
            exact Nat.eq_of_mul_eq_mul_left pos (Nat.add_left_cancel same)
          have lengths' : rest.length = rest'.length := by simpa using lengths
          rw [BitVec.eq_of_toNat_eq low, ih lengths' high]

theorem unsigned_eq_signed_emod (tab : List (BitVec w)) :
    (unsigned tab : Int) = signed tab % 2^(w * tab.length) := by
  have bound : (unsigned tab : Int) < 2^(w * tab.length) := by exact_mod_cast unsigned_lt tab
  have residue := signed_modEq tab
  rw [Int.ModEq, Int.emod_eq_of_lt (Int.natCast_nonneg _) bound] at residue
  exact residue.symm

theorem signed_injective {tab tab' : List (BitVec w)} (lengths : tab.length = tab'.length)
    (same : signed tab = signed tab') : tab = tab' := by
  apply unsigned_injective lengths
  have values : (unsigned tab : Int) = unsigned tab' := by
    rw [unsigned_eq_signed_emod, unsigned_eq_signed_emod tab', same, lengths]
  exact_mod_cast values

/-- A number has one normal form. -/
theorem Normalized.eq_of_signed_eq (positive : 0 < w) {tab tab' : List (BitVec w)}
    (normal : Normalized tab) (normal' : Normalized tab') (same : signed tab = signed tab') :
    tab = tab' := by
  have some_ := List.length_pos_iff.mpr normal.nonempty
  have some_' := List.length_pos_iff.mpr normal'.nonempty
  rcases Nat.lt_trichotomy tab.length tab'.length with shorter | lengths | longer
  · have fits := fits_signed positive normal.nonempty
    rw [same] at fits
    exact absurd fits (normal'.not_fits positive shorter some_)
  · exact signed_injective lengths same
  · have fits := fits_signed positive normal'.nonempty
    rw [← same] at fits
    exact absurd fits (normal.not_fits positive longer some_')

end Uniqueness

section Bits

theorem int_eq_of_testBit_eq {m n : Int} (same : ∀ i, m.testBit i = n.testBit i) : m = n := by
  have vanishes (k l : Nat) : ∃ i, k.testBit i = false ∧ l.testBit i = false := by
    refine ⟨k + l, ?_, ?_⟩
    · exact Nat.testBit_lt_two_pow (lt_of_le_of_lt (Nat.le_add_right k l) Nat.lt_two_pow_self)
    · exact Nat.testBit_lt_two_pow (lt_of_le_of_lt (Nat.le_add_left l k) Nat.lt_two_pow_self)
  cases m with
  | ofNat k =>
      cases n with
      | ofNat l => exact congrArg Int.ofNat (Nat.eq_of_testBit_eq same)
      | negSucc l =>
          obtain ⟨i, left, right⟩ := vanishes k l
          have bit := same i
          simp [Int.testBit, left, right] at bit
  | negSucc k =>
      cases n with
      | ofNat l =>
          obtain ⟨i, left, right⟩ := vanishes k l
          have bit := same i
          simp [Int.testBit, left, right] at bit
      | negSucc l =>
          have bits : ∀ i, k.testBit i = l.testBit i := fun i => by
            simpa [Int.testBit] using same i
          exact congrArg Int.negSucc (Nat.eq_of_testBit_eq bits)

theorem testBit_signed (tab : List (BitVec w)) (i : Nat) :
    (signed tab).testBit i
      = if i < w * tab.length then (unsigned tab).testBit i else negative tab := by
  have bound := unsigned_lt tab
  rw [signed, signWeight]
  by_cases sign : negative tab = true
  · have value : (unsigned tab : Int) - ((if negative tab then 2^(w * tab.length) else 0 : Nat) : Int)
        = Int.negSucc (2^(w * tab.length) - (unsigned tab + 1)) := by
      rw [if_pos sign, Int.negSucc_eq]
      omega
    rw [value, sign, Int.testBit, Nat.testBit_two_pow_sub_succ bound]
    by_cases inside : i < w * tab.length <;> simp [inside]
  · have plain : negative tab = false := by simpa using sign
    simp only [plain, Bool.false_eq_true, if_false, Nat.cast_zero, sub_zero]
    by_cases inside : i < w * tab.length
    · rw [if_pos inside]
      rfl
    · rw [if_neg inside]
      have large : unsigned tab < 2^i :=
        lt_of_lt_of_le bound (Nat.pow_le_pow_right (by norm_num) (Nat.le_of_not_lt inside))
      exact Nat.testBit_lt_two_pow large

variable {f : BitVec w → BitVec w → BitVec w} {g : Bool → Bool → Bool}
  (bits : ∀ x y i, i < w → (f x y).getLsbD i = g (x.getLsbD i) (y.getLsbD i))
include bits

theorem testBit_unsigned_zipWith {a b : List (BitVec w)}
    (lengths : a.length = b.length) {i : Nat} (inside : i < w * a.length) :
    (unsigned (List.zipWith f a b)).testBit i
      = g ((unsigned a).testBit i) ((unsigned b).testBit i) := by
  induction a generalizing b i with
  | nil => simp at inside
  | cons x a ih =>
      cases b with
      | nil => simp at lengths
      | cons y b =>
          have lengths' : a.length = b.length := by simpa using lengths
          rw [List.zipWith_cons_cons, unsigned_cons, unsigned_cons, unsigned_cons,
            Nat.add_comm, Nat.testBit_two_pow_mul_add _ (f x y).isLt,
            Nat.add_comm x.toNat, Nat.testBit_two_pow_mul_add _ x.isLt,
            Nat.add_comm y.toNat, Nat.testBit_two_pow_mul_add _ y.isLt]
          by_cases low : i < w
          · simp only [if_pos low]
            exact bits x y i low
          · simp only [if_neg low]
            have inside' : i - w < w * a.length := by
              rw [List.length_cons, Nat.mul_succ] at inside
              omega
            exact ih lengths' inside'

section

variable (positive : 0 < w) {a b : List (BitVec w)} (lengths : a.length = b.length)
  (nonempty : a ≠ [])

include positive lengths nonempty

theorem negative_zipWith : negative (List.zipWith f a b) = g (negative a) (negative b) := by
  obtain ⟨low, x, rfl⟩ := List.eq_nil_or_concat a |>.resolve_left nonempty
  have nonempty' : b ≠ [] := by
    intro empty
    simp [empty] at lengths
  obtain ⟨low', y, rfl⟩ := List.eq_nil_or_concat b |>.resolve_left nonempty'
  have lengths' : low.length = low'.length := by simpa using lengths
  rw [List.concat_eq_append, List.concat_eq_append, List.zipWith_append lengths',
    negative_append _ (List.cons_ne_nil _ _), negative_append _ (List.cons_ne_nil _ _),
    negative_append _ (by simp)]
  simpa [BitVec.msb_eq_getLsbD_last] using bits x y (w - 1) (by omega)

/-- An operation made limb by limb from an operation on bits is that operation on the numbers. -/
theorem signed_zipWith {op : Int → Int → Int}
    (operation : ∀ m n i, (op m n).testBit i = g (m.testBit i) (n.testBit i)) :
    signed (List.zipWith f a b) = op (signed a) (signed b) := by
  apply int_eq_of_testBit_eq
  intro i
  rw [operation, testBit_signed, testBit_signed, testBit_signed, List.length_zipWith, ← lengths,
    Nat.min_self]
  by_cases inside : i < w * a.length
  · simp only [if_pos inside]
    exact testBit_unsigned_zipWith bits lengths inside
  · simp only [if_neg inside]
    exact negative_zipWith bits positive lengths nonempty

end

end Bits

end PrimJs.Limbs
