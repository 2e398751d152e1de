import Mathlib.Tactic
import Mathlib.Data.Nat.Digits.Lemmas

/-! Numerals in a base: the digits of a number cut at a position, and the value of a list of
digits that is read from the high one. -/

namespace PrimJs.Numerals

variable {b : Nat}

/-- The `k` low digits of `n`, the lowest first -/
def lowDigits (b : Nat) : Nat → Nat → List Nat
  | 0, _ => []
  | k + 1, n => n % b :: lowDigits b k (n / b)

@[simp] theorem length_lowDigits (k n : Nat) : (lowDigits b k n).length = k := by
  induction k generalizing n with
  | zero => rfl
  | succ k ih => rw [lowDigits, List.length_cons, ih]

theorem lowDigits_eq_map (k n : Nat) :
    lowDigits b k n = (List.range k).map fun i => n / b^i % b := by
  induction k generalizing n with
  | zero => rfl
  | succ k ih =>
      rw [lowDigits, ih, List.range_succ_eq_map, List.map_cons, List.map_map, pow_zero, Nat.div_one]
      congr 1
      apply List.map_congr_left
      intro i _
      change n / b / b^i % b = n / b^(i + 1) % b
      rw [Nat.div_div_eq_div_mul, pow_succ']

theorem digits_split (base : 1 < b) {r q k : Nat} (below : r < b^k) (more : 0 < q) :
    Nat.digits b (r + b^k * q) = lowDigits b k r ++ Nat.digits b q := by
  induction k generalizing r with
  | zero =>
      have zero : r = 0 := by simpa using below
      rw [zero, lowDigits, pow_zero, Nat.zero_add, Nat.one_mul, List.nil_append]
  | succ k ih =>
      have low : (r + b^(k + 1) * q) % b = r % b := by
        rw [pow_succ', Nat.mul_assoc, Nat.add_mul_mod_self_left]
      have high : (r + b^(k + 1) * q) / b = r / b + b^k * q := by
        rw [pow_succ', Nat.mul_assoc, Nat.add_mul_div_left _ _ (by omega)]
      have positive : 0 < r + b^(k + 1) * q :=
        Nat.add_pos_right r (Nat.mul_pos (Nat.pow_pos (by omega)) more)
      have belowNext : r / b < b^k := by
        apply Nat.div_lt_of_lt_mul
        rw [← pow_succ']
        exact below
      rw [Nat.digits_def' base positive, low, high, ih belowNext, lowDigits, List.cons_append]

theorem lowDigits_digits (base : 1 < b) (n : Nat) :
    lowDigits b (Nat.digits b n).length n = Nat.digits b n := by
  apply List.ext_getElem (length_lowDigits _ n)
  intro i _ inside
  have digit := Nat.getD_digits n i base
  rw [List.getD_eq_getElem?_getD, List.getElem?_eq_getElem inside, Option.getD_some] at digit
  simp only [lowDigits_eq_map, List.getElem_map, List.getElem_range]
  exact digit.symm

theorem length_digits_le {n k : Nat} (base : 1 < b) (below : n < b^k) :
    (Nat.digits b n).length ≤ k :=
  (Nat.digits_length_le_iff base n).mpr below

theorem length_digits_eq {n k : Nat} (base : 1 < b) (above : b^k ≤ n) (below : n < b^(k + 1)) :
    (Nat.digits b n).length = k + 1 := by
  apply Nat.le_antisymm (length_digits_le base below)
  exact (Nat.lt_digits_length_iff base n).mpr above

/-- The value of digits that follow those of `v`, the highest first -/
def horner (b v : Nat) (ds : List Nat) : Nat := ds.foldl (fun v d => v * b + d) v

@[simp] theorem horner_nil (v : Nat) : horner b v [] = v := rfl

@[simp] theorem horner_cons (v d : Nat) (ds : List Nat) :
    horner b v (d :: ds) = horner b (v * b + d) ds := rfl

theorem horner_append (v : Nat) (ds ds' : List Nat) :
    horner b v (ds ++ ds') = horner b (horner b v ds) ds' := List.foldl_append

theorem horner_eq (v : Nat) (ds : List Nat) :
    horner b v ds = v * b^ds.length + horner b 0 ds := by
  induction ds generalizing v with
  | nil => simp
  | cons d ds ih =>
      calc horner b (v * b + d) ds = (v * b + d) * b^ds.length + horner b 0 ds := ih _
        _ = v * b^(ds.length + 1) + (d * b^ds.length + horner b 0 ds) := by ring
        _ = v * b^(ds.length + 1) + horner b (0 * b + d) ds := by
            rw [ih (0 * b + d), Nat.zero_mul, Nat.zero_add]

theorem horner_lt {ds : List Nat} (digits : ∀ d ∈ ds, d < b) : horner b 0 ds < b^ds.length := by
  induction ds with
  | nil => exact Nat.one_pos
  | cons d ds ih =>
      have tail := ih fun e inside => digits e (List.mem_cons_of_mem d inside)
      have head : d + 1 ≤ b := digits d List.mem_cons_self
      calc horner b (0 * b + d) ds = d * b^ds.length + horner b 0 ds := by
            rw [horner_eq, Nat.zero_mul, Nat.zero_add]
        _ < d * b^ds.length + b^ds.length := Nat.add_lt_add_left tail _
        _ = (d + 1) * b^ds.length := by ring
        _ ≤ b * b^ds.length := Nat.mul_le_mul_right _ head
        _ = b^(ds.length + 1) := (pow_succ' b _).symm

theorem horner_reverse (ds : List Nat) : horner b 0 ds.reverse = Nat.ofDigits b ds := by
  induction ds with
  | nil => rfl
  | cons d ds ih =>
      rw [List.reverse_cons, horner_append, ih, Nat.ofDigits_cons, horner_cons, horner_nil]
      ring

theorem horner_leading_zeros (ds : List Nat) :
    horner b 0 (ds.dropWhile (· = 0)) = horner b 0 ds := by
  induction ds with
  | nil => rfl
  | cons d ds ih =>
      by_cases zero : d = 0
      · rw [List.dropWhile_cons_of_pos (by simpa using zero), ih, zero, horner_cons, Nat.zero_mul]
      · rw [List.dropWhile_cons_of_neg (by simpa using zero)]

section Numeral

variable {α : Type} (glyph : Nat → α)

/-- The numeral of `n`, the highest digit first. Only that of zero starts with the digit zero. -/
def numeral (b n : Nat) : List α :=
  if n = 0 then [glyph 0] else ((Nat.digits b n).map glyph).reverse

theorem numeral_of_pos {n : Nat} (positive : 0 < n) :
    numeral glyph b n = ((Nat.digits b n).map glyph).reverse :=
  if_neg (Nat.ne_of_gt positive)

theorem numeral_head {n : Nat} (positive : 0 < n) (base : 1 < b) :
    ∃ d rest, numeral glyph b n = glyph d :: rest ∧ 0 < d ∧ d < b := by
  have nonempty : Nat.digits b n ≠ [] := Nat.digits_ne_nil_iff_ne_zero.mpr (Nat.ne_of_gt positive)
  have top : (Nat.digits b n).getLast nonempty ≠ 0 :=
    Nat.getLast_digit_ne_zero b (Nat.ne_of_gt positive)
  refine ⟨_, ((Nat.digits b n).dropLast.map glyph).reverse, ?_, Nat.pos_of_ne_zero top,
    Nat.digits_lt_base base (List.getLast_mem nonempty)⟩
  rw [numeral_of_pos glyph positive]
  conv_lhs => rw [← List.dropLast_append_getLast nonempty]
  rw [List.map_append, List.reverse_append]
  rfl

/-- Reading a numeral back gives the number it is of. -/
theorem horner_numeral {digit : α → Nat} (base : 1 < b)
    (inverse : ∀ d < b, digit (glyph d) = d) (n : Nat) :
    horner b 0 ((numeral glyph b n).map digit) = n := by
  by_cases zero : n = 0
  · rw [numeral, if_pos zero, zero]
    simp [inverse 0 (by omega)]
  · rw [numeral, if_neg zero, List.map_reverse, List.map_map, horner_reverse]
    have same : (Nat.digits b n).map (digit ∘ glyph) = Nat.digits b n := by
      apply (List.map_congr_left _).trans (List.map_id _)
      intro d inside
      exact inverse d (Nat.digits_lt_base base inside)
    rw [same, Nat.ofDigits_digits]

theorem mem_numeral {n : Nat} (base : 1 < b) {c : α} (inside : c ∈ numeral glyph b n) :
    ∃ d < b, c = glyph d := by
  by_cases zero : n = 0
  · rw [numeral, if_pos zero, List.mem_singleton] at inside
    exact ⟨0, by omega, inside⟩
  · rw [numeral, if_neg zero, List.mem_reverse, List.mem_map] at inside
    obtain ⟨d, member, same⟩ := inside
    exact ⟨d, Nat.digits_lt_base base member, same.symm⟩

end Numeral

end PrimJs.Numerals
