import PrimJs.Runtime.AtomTable

/-! `is_num_string` accepts exactly the decimal spelling of a `uint32_t`. -/

namespace PrimJs

/-- The digits `"%u"` prints. -/
def decimal (n : Nat) : List Nat :=
  if n < 10 then [48 + n] else decimal (n / 10) ++ [48 + n % 10]

variable {n m c k : Nat} {cs : List Nat}

theorem decimal_small (small : n < 10) : decimal n = [48 + n] := by
  rw [decimal, if_pos small]

theorem decimal_step (large : 10 ≤ n) : decimal n = decimal (n / 10) ++ [48 + n % 10] := by
  rw [decimal, if_neg (by omega)]

theorem decimal_ne_nil (n : Nat) : decimal n ≠ [] := by
  unfold decimal
  split
  · exact List.cons_ne_nil _ _
  · exact List.append_ne_nil_of_right_ne_nil _ (List.cons_ne_nil _ _)

theorem decimal_length_le (k : Nat) (n : Nat) (bound : n < 10 ^ (k + 1)) :
    (decimal n).length ≤ k + 1 := by
  induction k generalizing n with
  | zero =>
      rw [decimal_small bound]
      exact Nat.le_refl 1
  | succ k ih =>
      by_cases small : n < 10
      · rw [decimal_small small]
        exact Nat.succ_le_succ (Nat.zero_le _)
      · have rest := ih (n / 10) (by rw [Nat.div_lt_iff_lt_mul (by decide)]; omega)
        rw [decimal_step (by omega), List.length_append, List.length_singleton]
        omega

theorem decimal_inj : ∀ {n m : Nat}, decimal n = decimal m → n = m := by
  intro n
  induction n using Nat.strongRecOn with
  | ind n ih =>
      intro m same
      by_cases small : n < 10 <;> by_cases small' : m < 10
      · rw [decimal_small small, decimal_small small'] at same
        have digit := List.cons.inj same
        omega
      · rw [decimal_small small, decimal_step (n := m) (by omega)] at same
        have none := congrArg List.length same
        have some_ := List.length_pos_iff.mpr (decimal_ne_nil (m / 10))
        simp only [List.length_singleton, List.length_append] at none
        omega
      · rw [decimal_small small', decimal_step (n := n) (by omega)] at same
        have none := congrArg List.length same
        have some_ := List.length_pos_iff.mpr (decimal_ne_nil (n / 10))
        simp only [List.length_singleton, List.length_append] at none
        omega
      · rw [decimal_step (n := n) (by omega), decimal_step (n := m) (by omega)] at same
        have ⟨front, last⟩ := List.append_inj' same rfl
        have front := ih (n / 10) (by omega) front
        have digit := List.cons.inj last
        omega

theorem isNum_iff : isNum c = true ↔ 48 ≤ c ∧ c ≤ 57 := by
  simp [isNum]

/-- The digits read by the loop follow those read before it. -/
theorem isNumLoop_decimal (cs : List Nat) (n : Nat) (positive : 0 < n)
    (read : isNumLoop cs n = some m) : decimal m = decimal n ++ cs ∧ 0 < m := by
  induction cs generalizing n with
  | nil =>
      rw [isNumLoop, Option.some.injEq] at read
      rw [← read, List.append_nil]
      exact ⟨rfl, positive⟩
  | cons c rest ih =>
      rw [isNumLoop] at read
      split at read
      · cases read
      · rename_i digit
        split at read
        · cases read
        · simp only [Bool.not_eq_true', Bool.not_eq_false] at digit
          have digit := isNum_iff.mp digit
          have ⟨digits, more⟩ := ih (n * 10 + (c - 48)) (by omega) read
          have front : (n * 10 + (c - 48)) / 10 = n := by omega
          have last : 48 + (n * 10 + (c - 48)) % 10 = c := by omega
          rw [decimal_step (by omega : 10 ≤ n * 10 + (c - 48)), front, last] at digits
          refine ⟨?_, more⟩
          rw [digits, List.append_assoc]
          rfl

theorem isNumString_decimal (read : isNumString cs = some m) : cs = decimal m := by
  unfold isNumString at read
  split at read
  · cases read
  · rename_i c rest
    split at read
    · cases read
    · split at read
      · cases read
      · rename_i digit
        simp only [Bool.not_eq_true', Bool.not_eq_false] at digit
        have digit := isNum_iff.mp digit
        by_cases zero : c = 48
        · rw [if_pos zero] at read
          split at read
          · rename_i single
            rw [Option.some.injEq] at read
            rw [← read, single, zero, decimal_small (by decide)]
          · cases read
        · rw [if_neg zero] at read
          have ⟨digits, _⟩ := isNumLoop_decimal rest (c - 48) (by omega) read
          have first : 48 + (c - 48) = c := by omega
          rw [digits, decimal_small (by omega), first]
          rfl

theorem isNumLoop_append (cs : List Nat) (n : Nat) :
    isNumLoop (cs ++ [c]) n = (isNumLoop cs n).bind fun m => isNumLoop [c] m := by
  induction cs generalizing n with
  | nil => rfl
  | cons d rest ih =>
      rw [List.cons_append, isNumLoop, isNumLoop]
      split
      · rfl
      · split
        · rfl
        · exact ih _

theorem isNumLoop_digit (small : n * 10 + k < 2 ^ 32) (digit : k < 10) :
    isNumLoop [48 + k] n = some (n * 10 + k) := by
  have plain : isNum (48 + k) = true := isNum_iff.mpr (by omega)
  have value : 48 + k - 48 = k := by omega
  simp only [isNumLoop, plain, value, Bool.not_true, Bool.false_eq_true, if_false]
  rw [if_neg (by omega)]

/-- A further digit. -/
theorem isNumString_append (read : isNumString cs = some m) (positive : 0 < m)
    (short : cs.length < 10) (small : m * 10 + k < 2 ^ 32) (digit : k < 10) :
    isNumString (cs ++ [48 + k]) = some (m * 10 + k) := by
  cases cs with
  | nil => cases read
  | cons c rest =>
      rw [isNumString, if_neg (by omega)] at read
      rw [List.cons_append, isNumString]
      have length : ¬ (c :: (rest ++ [48 + k])).length > 10 := by
        simp only [List.length_cons, List.length_append, List.length_nil] at short ⊢
        omega
      rw [if_neg length]
      by_cases plain : isNum c = true
      · simp only [plain, Bool.not_true, Bool.false_eq_true, if_false] at read ⊢
        by_cases zero : c = 48
        · rw [if_pos zero] at read
          split at read
          · rw [Option.some.injEq] at read
            omega
          · cases read
        · rw [if_neg zero] at read ⊢
          rw [isNumLoop_append, read, Option.bind_some]
          exact isNumLoop_digit small digit
      · simp only [Bool.not_eq_true] at plain
        simp only [plain, Bool.not_false, if_true] at read
        cases read

theorem isNumString_of_decimal (small : n < 2 ^ 32) : isNumString (decimal n) = some n := by
  induction n using Nat.strongRecOn with
  | ind n ih =>
      by_cases single : n < 10
      · rw [decimal_small single]
        have plain : isNum (48 + n) = true := isNum_iff.mpr (by omega)
        simp only [isNumString, plain, isNumLoop, List.length_singleton, Bool.not_true,
          Bool.false_eq_true, if_false]
        rw [if_neg (by decide)]
        split
        · rw [if_pos trivial]
          congr 1
          omega
        · congr 1
          omega
      · rw [decimal_step (by omega)]
        have short := decimal_length_le 8 (n / 10) (by omega)
        have whole : n / 10 * 10 + n % 10 = n := by omega
        rw [isNumString_append (ih (n / 10) (by omega) (by omega)) (by omega) (by omega)
          (by omega) (by omega), whole]

end PrimJs
