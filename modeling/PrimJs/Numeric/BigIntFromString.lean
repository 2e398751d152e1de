import PrimJs.Numeric.BigIntToString

/-! The text of an integer is read back as this integer, within the estimated number of limbs. -/

namespace PrimJs.BigInt

open Limbs Numerals Allocating

variable {w : Nat} {limbBits : LimbBits}

section Decimal

theorem jsPowDec_eq (limbBits : LimbBits) {i : Nat} (inside : i ≤ limbDigits limbBits) :
    (jsPowDec limbBits).getD i 0 = 10^i ∧ 10^i < 2^limbBits.width := by
  have table : ∀ i ≤ limbDigits limbBits,
      (jsPowDec limbBits).getD i 0 = 10^i ∧ 10^i < 2^limbBits.width := by
    cases limbBits <;> decide
  exact table i inside

theorem limbDigits_pos (limbBits : LimbBits) : 0 < limbDigits limbBits := by
  cases limbBits <;> decide

theorem le_horner {b : Nat} (positive : 0 < b) (v : Nat) (ds : List Nat) : v ≤ horner b v ds := by
  rw [horner_eq]
  exact (Nat.le_mul_of_pos_right v (Nat.pow_pos positive)).trans (Nat.le_add_right _ _)

/-- The digits of one group fit a limb. -/
theorem readGroup_eq {n : Nat} {v : BitVec w} {p : List Char} (digits : ∀ c ∈ p, toDigit c < 10)
    (fits : (v.toNat + 1) * 10^n ≤ 2^w) :
    ∃ v' : BitVec w, readGroup n v p = (min n p.length, v', p.drop n)
      ∧ v'.toNat = horner 10 v.toNat ((p.take n).map toDigit) := by
  induction n generalizing v p with
  | zero => exact ⟨v, by rw [Nat.zero_min]; rfl, rfl⟩
  | succ n ih =>
      cases p with
      | nil => exact ⟨v, by rw [List.length_nil, Nat.min_zero]; rfl, rfl⟩
      | cons ch p =>
          have digit : toDigit ch < 10 := digits ch List.mem_cons_self
          have room : v.toNat * 10 + toDigit ch + 1 ≤ (v.toNat + 1) * 10 := by omega
          have fits' : (v.toNat * 10 + toDigit ch + 1) * 10^n ≤ 2^w := by
            calc (v.toNat * 10 + toDigit ch + 1) * 10^n ≤ (v.toNat + 1) * 10 * 10^n :=
                  Nat.mul_le_mul_right _ room
              _ = (v.toNat + 1) * 10^(n + 1) := by ring
              _ ≤ 2^w := fits
          have bound : v.toNat * 10 + toDigit ch + 1 ≤ 2^w :=
            (Nat.le_mul_of_pos_right _ (Nat.pow_pos (by decide))).trans fits'
          have next : (v * 10#w + BitVec.ofNat w (toDigit ch)).toNat = v.toNat * 10 + toDigit ch := by
            rw [BitVec.toNat_add, BitVec.toNat_mul, BitVec.toNat_ofNat, BitVec.toNat_ofNat,
              Nat.add_mod_mod, Nat.mul_mod_mod, Nat.mod_add_mod, Nat.mod_eq_of_lt (by omega)]
          obtain ⟨v', group, value⟩ := ih (v := v * 10#w + BitVec.ofNat w (toDigit ch))
            (p := p) (fun c inside => digits c (List.mem_cons_of_mem ch inside))
            (by rwa [next])
          refine ⟨v', ?_, ?_⟩
          · rw [readGroup, if_neg (Nat.not_le_of_lt digit), group, List.length_cons,
              Nat.add_min_add_right]
            rfl
          · rw [value, next]
            rfl

/-- The limbs are in use: a number with several limbs takes more than all but the last. -/
def Leading (tab : List (BitVec w)) : Prop :=
  tab ≠ [] ∧ (tab.length = 1 ∨ 2^(w * (tab.length - 1)) ≤ unsigned tab)

theorem Leading.mono {tab tab' : List (BitVec w)} (leading : Leading tab)
    (length : tab'.length = tab.length) (le : unsigned tab ≤ unsigned tab') : Leading tab' := by
  refine ⟨?_, ?_⟩
  · have some_ := List.length_pos_iff.mpr leading.1
    exact List.ne_nil_of_length_pos (by omega)
  · rw [length]
    exact leading.2.imp_right fun high => high.trans le

theorem appendLimb_eq {bits nLimbs : Nat} (positive : 0 < w) (estimate : bits / w < nLimbs)
    {tab : List (BitVec w)} (below : w * tab.length ≤ bits) (h : BitVec w) :
    appendLimb nLimbs tab h = some (tab ++ [h]) := by
  have inside : tab.length ≤ bits / w := by
    rw [Nat.le_div_iff_mul_le positive, Nat.mul_comm]
    exact below
  rw [appendLimb, if_pos (inside.trans_lt estimate)]

section

variable {bits nLimbs : Nat} (estimate : bits / limbBits.width < nLimbs) {p : List Char}

include estimate

/-- One round of the loop: a group of digits, for which one more limb may be needed -/
theorem decimalLoop_step {tab : List (BitVec limbBits.width)} (leading : Leading tab)
    (some_ : p ≠ []) (digits : ∀ c ∈ p, toDigit c < 10)
    (small : horner 10 (unsigned tab) ((p.take (limbDigits limbBits)).map toDigit) < 2^bits) :
    ∃ tab', Leading tab'
      ∧ unsigned tab' = horner 10 (unsigned tab) ((p.take (limbDigits limbBits)).map toDigit)
      ∧ ∀ fuel, decimalLoop limbBits nLimbs (fuel + 1) tab p
          = decimalLoop limbBits nLimbs fuel tab' (p.drop (limbDigits limbBits)) := by
  have positive : 0 < limbBits.width := by cases limbBits <;> decide
  obtain ⟨v', group, value⟩ := readGroup_eq (n := limbDigits limbBits) (v := 0#(limbBits.width)) digits (by
    rw [BitVec.toNat_zero, Nat.zero_add, Nat.one_mul]
    exact (jsPowDec_eq limbBits (le_refl _)).2.le)
  have count : min (limbDigits limbBits) p.length ≠ 0 := by
    have length := List.length_pos_iff.mpr some_
    have group_ := limbDigits_pos limbBits
    omega
  have round (fuel : Nat) : decimalLoop limbBits nLimbs (fuel + 1) tab p
      = if tab = [0#(limbBits.width)] then decimalLoop limbBits nLimbs fuel [v'] (p.drop (limbDigits limbBits))
        else
          let product := mpMul1 (BitVec.ofNat limbBits.width
            ((jsPowDec limbBits).getD (min (limbDigits limbBits) p.length) 0)) tab v'
          if product.2 ≠ 0#(limbBits.width) then (appendLimb nLimbs product.1 product.2).bind
            (decimalLoop limbBits nLimbs fuel · (p.drop (limbDigits limbBits)))
          else decimalLoop limbBits nLimbs fuel product.1 (p.drop (limbDigits limbBits)) := by
    rw [decimalLoop, group]
    dsimp only
    rw [if_neg count]
  by_cases zero : tab = [0#(limbBits.width)]
  · refine ⟨[v'], ⟨List.cons_ne_nil _ _, Or.inl rfl⟩, ?_, fun fuel => ?_⟩
    · rw [unsigned_cons, unsigned_nil, Nat.mul_zero, Nat.add_zero, value, zero]
      rfl
    · rw [round, if_pos zero]
  · obtain ⟨power, inLimb⟩ := jsPowDec_eq limbBits (Nat.min_le_left _ p.length)
    obtain ⟨product, length⟩ := mpMul1_spec (BitVec.ofNat limbBits.width
      ((jsPowDec limbBits).getD (min (limbDigits limbBits) p.length) 0)) tab v'
    have total : horner 10 (unsigned tab) ((p.take (limbDigits limbBits)).map toDigit)
        = unsigned tab * 10^(min (limbDigits limbBits) p.length) + v'.toNat := by
      rw [horner_eq, value, List.length_map, List.length_take]
      rfl
    have scale : (BitVec.ofNat limbBits.width
        ((jsPowDec limbBits).getD (min (limbDigits limbBits) p.length) 0)).toNat
        = 10^(min (limbDigits limbBits) p.length) := by
      rw [BitVec.toNat_ofNat, power, Nat.mod_eq_of_lt inLimb]
    rw [scale, ← total] at product
    generalize result : mpMul1 (BitVec.ofNat limbBits.width
      ((jsPowDec limbBits).getD (min (limbDigits limbBits) p.length) 0)) tab v' = out
      at product length round
    obtain ⟨out, h⟩ := out
    dsimp only at product length
    by_cases carry : h ≠ 0#(limbBits.width)
    · have one : 1 ≤ h.toNat := by
        apply Nat.pos_of_ne_zero
        intro none_
        exact carry (BitVec.eq_of_toNat_eq none_)
      have weight : 2^(limbBits.width * tab.length) ≤ unsigned out
          + 2^(limbBits.width * tab.length) * h.toNat :=
        (Nat.le_mul_of_pos_right _ one).trans (Nat.le_add_left _ _)
      have below : limbBits.width * out.length ≤ bits := by
        rw [length]
        apply Nat.le_of_lt
        exact (Nat.pow_lt_pow_iff_right (by decide)).mp (weight.trans_lt (product ▸ small))
      refine ⟨out ++ [h], ⟨List.append_ne_nil_of_right_ne_nil _ (List.cons_ne_nil _ _), ?_⟩, ?_,
        fun fuel => ?_⟩
      · right
        rw [List.length_append, List.length_singleton, Nat.add_sub_cancel, unsigned_append, length,
          unsigned_cons, unsigned_nil, Nat.mul_zero, Nat.add_zero]
        exact weight
      · rw [unsigned_append, length, unsigned_cons, unsigned_nil, Nat.mul_zero, Nat.add_zero,
          product]
      · rw [round, if_neg zero]
        dsimp only
        rw [if_pos carry, appendLimb_eq positive estimate below, Option.bind_some]
    · have none_ : h.toNat = 0 := by rw [Decidable.not_not.mp carry]; rfl
      rw [none_, Nat.mul_zero, Nat.add_zero] at product
      refine ⟨out, leading.mono length ?_, product, fun fuel => ?_⟩
      · rw [product]
        exact le_horner (by decide) _ _
      · rw [round, if_neg zero]
        dsimp only
        rw [if_neg carry]

/-- The loop stays within the limbs, whose estimate counts the bits of the whole number. -/
theorem decimalLoop_spec {fuel : Nat} {tab : List (BitVec limbBits.width)} (leading : Leading tab)
    (digits : ∀ c ∈ p, toDigit c < 10) (enough : p.length < fuel)
    (small : horner 10 (unsigned tab) (p.map toDigit) < 2^bits) :
    ∃ tab', decimalLoop limbBits nLimbs fuel tab p = some tab' ∧ Leading tab'
      ∧ unsigned tab' = horner 10 (unsigned tab) (p.map toDigit) := by
  induction fuel generalizing tab p with
  | zero => exact absurd enough (Nat.not_lt_zero _)
  | succ fuel ih =>
      by_cases some_ : p = []
      · rw [some_]
        refine ⟨tab, ?_, leading, rfl⟩
        have group : readGroup (limbDigits limbBits) 0#(limbBits.width) []
            = (0, 0#(limbBits.width), []) := by cases limbBits <;> rfl
        rw [decimalLoop, group]
        rfl
      · have split : p.map toDigit = (p.take (limbDigits limbBits)).map toDigit
            ++ (p.drop (limbDigits limbBits)).map toDigit := by
          rw [← List.map_append, List.take_append_drop]
        rw [split, horner_append] at small ⊢
        obtain ⟨tab', leading', value, round⟩ := decimalLoop_step estimate leading some_ digits
          ((le_horner (by decide) _ _).trans_lt small)
        have shorter : (p.drop (limbDigits limbBits)).length < fuel := by
          have length := List.length_pos_iff.mpr some_
          have group_ := limbDigits_pos limbBits
          rw [List.length_drop]
          omega
        rw [round, ← value]
        exact ih leading' (fun c inside => digits c (List.mem_of_mem_drop inside)) shorter
          (value ▸ small)

theorem decimalTab_spec (digits : ∀ c ∈ p, toDigit c < 10)
    (small : horner 10 0 (p.map toDigit) < 2^bits) :
    ∃ tab, decimalTab limbBits nLimbs p = some tab ∧ tab ≠ []
      ∧ signed tab = horner 10 0 (p.map toDigit) := by
  have positive : 0 < limbBits.width := by cases limbBits <;> decide
  have start : unsigned [0#(limbBits.width)] = 0 := by simp
  have zero : Leading [0#(limbBits.width)] := ⟨List.cons_ne_nil _ _, Or.inl rfl⟩
  obtain ⟨tab, loop, leading, value⟩ := decimalLoop_spec estimate zero digits
    (Nat.lt_succ_self p.length) (start.symm ▸ small)
  rw [start] at value
  have sign : tab.getD (tab.length - 1) 0#(limbBits.width) >>> (limbBits.width - 1)
      ≠ 0#(limbBits.width) ↔ negative tab = true := jsBigintSign_ne_zero positive ⟨tab⟩
  rw [decimalTab, loop, Option.bind_some]
  by_cases high : negative tab = true
  · have half : 2^(limbBits.width * tab.length - 1) ≤ unsigned tab := by
      have range := (signed_range positive leading.1).1
      rw [signed, signWeight, if_pos high] at range
      have double_ : (2 : Int)^(limbBits.width * tab.length)
          = 2 * 2^(limbBits.width * tab.length - 1) := by
        rw [← pow_succ', Nat.sub_add_cancel (Nat.mul_pos positive
          (List.length_pos_iff.mpr leading.1))]
      push_cast at range
      have half' : (2 : Int)^(limbBits.width * tab.length - 1) ≤ unsigned tab := by linarith
      exact_mod_cast half'
    have below : limbBits.width * tab.length ≤ bits := by
      have exponent := (Nat.pow_lt_pow_iff_right (by decide)).mp (half.trans_lt (value ▸ small))
      omega
    refine ⟨tab ++ [0#(limbBits.width)], ?_, List.append_ne_nil_of_left_ne_nil leading.1 _, ?_⟩
    · rw [if_pos (sign.mpr high), appendLimb_eq positive estimate below]
    · rw [← value]
      exact signed_append_zero tab
  · refine ⟨tab, ?_, leading.1, ?_⟩
    · rw [if_neg (fun top => high (sign.mp top))]
    · rw [signed, signWeight, if_neg high, value]
      exact sub_zero _

end

end Decimal

section Binary

variable {tab : List (BitVec w)}

theorem unsigned_set {p : Nat} (inside : p < tab.length) (y : BitVec w) :
    unsigned (tab.set p y) + 2^(w * p) * (tab.getD p 0#w).toNat
      = unsigned tab + 2^(w * p) * y.toNat := by
  induction tab generalizing p with
  | nil => exact absurd inside (Nat.not_lt_zero _)
  | cons x tab ih =>
      cases p with
      | zero =>
          rw [List.set_cons_zero, List.getD_cons_zero, unsigned_cons, unsigned_cons, Nat.mul_zero,
            pow_zero]
          ring
      | succ p =>
          have tail := ih (Nat.lt_of_succ_lt_succ inside)
          rw [List.set_cons_succ, List.getD_cons_succ, unsigned_cons, unsigned_cons, Nat.mul_succ,
            Nat.add_comm (w * p), pow_add]
          calc x.toNat + 2^w * unsigned (tab.set p y) + 2^w * 2^(w * p) * (tab.getD p 0#w).toNat
              = x.toNat + 2^w * (unsigned (tab.set p y)
                  + 2^(w * p) * (tab.getD p 0#w).toNat) := by ring
            _ = x.toNat + 2^w * (unsigned tab + 2^(w * p) * y.toNat) := by rw [tail]
            _ = x.toNat + 2^w * unsigned tab + 2^w * 2^(w * p) * y.toNat := by ring

theorem orLimb_eq {p : Nat} (inside : p < tab.length) (x : BitVec w) :
    orLimb tab p x = some (tab.set p (tab.getD p 0#w ||| x)) := if_pos inside

/-- Above the bits in use the limbs are free. -/
theorem limb_room {p shift : Nat} (small : unsigned tab < 2^(w * p + shift)) :
    (tab.getD p 0#w).toNat < 2^shift := by
  rw [toNat_getD]
  apply (Nat.mod_le _ _).trans_lt
  apply Nat.div_lt_of_lt_mul
  rw [← pow_add]
  exact small

section

variable {radix log2Radix bits : Nat} (power : radix = 2^log2Radix) (positive : 0 < w)
  (limb : ∀ n, n &&& (w - 1) = n % w) (fits : log2Radix ≤ w)

include power positive limb fits

/-- A digit is added above the number of the digits before it. -/
theorem binaryStep_eq {k : Nat} (estimate : bits / w < tab.length)
    (room : (k + 1) * log2Radix ≤ bits) (small : unsigned tab < radix^k) {ch : Char}
    (digit : toDigit ch < radix) :
    ∃ tab', binaryStep radix log2Radix tab (ch, k) = some tab' ∧ tab'.length = tab.length
      ∧ unsigned tab' = unsigned tab + radix^k * toDigit ch := by
  rw [Nat.succ_mul] at room
  have position := Nat.div_add_mod (k * log2Radix) w
  have place : radix^k = 2^(w * (k * log2Radix / w) + k * log2Radix % w) := by
    rw [position, power, ← pow_mul, Nat.mul_comm]
  have shiftBound : k * log2Radix % w < w := Nat.mod_lt _ positive
  rw [place] at small ⊢
  rw [binaryStep]
  dsimp only
  rw [if_neg (Nat.not_le_of_lt digit), limb]
  generalize k * log2Radix / w = pos at *
  generalize k * log2Radix % w = shift at *
  have inside : pos < tab.length := by
    apply Nat.lt_of_le_of_lt _ estimate
    rw [Nat.le_div_iff_mul_le positive, Nat.mul_comm]
    omega
  have c : (BitVec.ofNat w (toDigit ch)).toNat = toDigit ch := by
    rw [BitVec.toNat_ofNat]
    apply Nat.mod_eq_of_lt
    exact (power ▸ digit).trans_le (Nat.pow_le_pow_right (by decide) fits)
  have column := (shlColumn_spec shiftBound (BitVec.ofNat w (toDigit ch)) (limb_room small)).1
  have first := unsigned_set inside
    (tab.getD pos 0#w ||| BitVec.ofNat w (toDigit ch) <<< shift)
  rw [BitVec.or_comm] at column
  rw [orLimb_eq inside, Option.bind_some]
  generalize next : tab.set pos (tab.getD pos 0#w ||| BitVec.ofNat w (toDigit ch) <<< shift) = tab₁
    at *
  have length₁ : tab₁.length = tab.length := by rw [← next, List.length_set]
  have both : unsigned tab₁
      + 2^(w * pos) * (2^w * (BitVec.ofNat w (toDigit ch) >>> (w - shift)).toNat)
      = unsigned tab + 2^(w * pos + shift) * toDigit ch := by
    rw [c] at column
    apply Nat.add_right_cancel (m := 2^(w * pos) * (tab.getD pos 0#w).toNat)
    calc unsigned tab₁ + 2^(w * pos) * (2^w * (BitVec.ofNat w (toDigit ch) >>> (w - shift)).toNat)
            + 2^(w * pos) * (tab.getD pos 0#w).toNat
        = unsigned tab + 2^(w * pos)
            * ((tab.getD pos 0#w ||| BitVec.ofNat w (toDigit ch) <<< shift).toNat
              + 2^w * (BitVec.ofNat w (toDigit ch) >>> (w - shift)).toNat) := by
          rw [Nat.mul_add, ← Nat.add_assoc, ← first]
          ring
      _ = unsigned tab + 2^(w * pos + shift) * toDigit ch
            + 2^(w * pos) * (tab.getD pos 0#w).toNat := by
          rw [column, pow_add]
          ring
  by_cases crosses : w < shift + log2Radix
  · have inside' : pos + 1 < tab₁.length := by
      rw [length₁]
      apply Nat.lt_of_le_of_lt _ estimate
      rw [Nat.le_div_iff_mul_le positive, Nat.mul_comm, Nat.mul_succ]
      omega
    have free : (tab₁.getD (pos + 1) 0#w).toNat = 0 := by
      have below : unsigned tab < 2^(w * (pos + 1) + 0) :=
        small.trans_le (Nat.pow_le_pow_right (by decide) (by rw [Nat.mul_succ]; omega))
      have unchanged : tab₁.getD (pos + 1) 0#w = tab.getD (pos + 1) 0#w := by
        rw [← next, List.getD_eq_getElem?_getD, List.getElem?_set_ne (by omega),
          ← List.getD_eq_getElem?_getD]
      have bound := limb_room below
      rw [unchanged]
      omega
    have second := unsigned_set inside'
      (tab₁.getD (pos + 1) 0#w ||| BitVec.ofNat w (toDigit ch) >>> (w - shift))
    rw [BitVec.toNat_or, free, Nat.mul_zero, Nat.add_zero, Nat.zero_or, Nat.mul_succ, pow_add,
      Nat.mul_assoc, both] at second
    refine ⟨_, ?_, ?_, second⟩
    · rw [if_pos crosses, orLimb_eq inside']
    · rw [List.length_set, length₁]
  · have none_ : (BitVec.ofNat w (toDigit ch) >>> (w - shift)).toNat = 0 := by
      rw [BitVec.toNat_ushiftRight, Nat.shiftRight_eq_div_pow, c]
      apply Nat.div_eq_of_lt
      exact (power ▸ digit).trans_le (Nat.pow_le_pow_right (by decide) (by omega))
    rw [none_, Nat.mul_zero, Nat.mul_zero, Nat.add_zero] at both
    exact ⟨tab₁, by rw [if_neg crosses], length₁, both⟩

theorem binarySteps_eq {k : Nat} (estimate : bits / w < tab.length) {cs : List Char}
    (room : (k + cs.length) * log2Radix ≤ bits) (small : unsigned tab < radix^k)
    (digits : ∀ c ∈ cs, toDigit c < radix) :
    ∃ tab', (cs.zipIdx k).foldlM (binaryStep radix log2Radix) tab = some tab'
      ∧ tab'.length = tab.length
      ∧ unsigned tab' = unsigned tab + radix^k * Nat.ofDigits radix (cs.map toDigit) := by
  induction cs generalizing k tab with
  | nil => exact ⟨tab, rfl, rfl, by simp⟩
  | cons c cs ih =>
      rw [List.length_cons] at room
      have digit := digits c List.mem_cons_self
      have first : (k + 1) * log2Radix ≤ bits :=
        (Nat.mul_le_mul_right _ (by omega)).trans room
      obtain ⟨tab₁, step, length, value⟩ :=
        binaryStep_eq power positive limb fits estimate first small digit
      have small' : unsigned tab₁ < radix^(k + 1) := by
        calc unsigned tab₁ = unsigned tab + radix^k * toDigit c := value
          _ < radix^k + radix^k * toDigit c := Nat.add_lt_add_right small _
          _ = radix^k * (toDigit c + 1) := by ring
          _ ≤ radix^k * radix := Nat.mul_le_mul_left _ digit
          _ = radix^(k + 1) := (pow_succ radix k).symm
      obtain ⟨tab₂, steps, length', value'⟩ := ih (k := k + 1) (length ▸ estimate)
        (by rwa [Nat.add_right_comm, Nat.add_assoc]) small'
        (fun d inside => digits d (List.mem_cons_of_mem c inside))
      refine ⟨tab₂, ?_, length'.trans length, ?_⟩
      · rw [List.zipIdx_cons, List.foldlM_cons, step]
        exact steps
      · rw [value', value, List.map_cons, Nat.ofDigits_cons, pow_succ]
        ring

theorem binaryTab_spec {nLimbs : Nat} (estimate : bits / w < nLimbs) {p : List Char}
    (room : p.length * log2Radix ≤ bits) (digits : ∀ c ∈ p, toDigit c < radix) :
    ∃ tab, binaryTab w radix log2Radix nLimbs p = some tab ∧ tab.length = nLimbs
      ∧ unsigned tab = horner radix 0 (p.map toDigit) := by
  have zero : unsigned (List.replicate nLimbs 0#w) = 0 := unsigned_replicate_zero nLimbs
  have estimate' : bits / w < (List.replicate nLimbs 0#w).length := by rwa [List.length_replicate]
  have room' : (0 + p.reverse.length) * log2Radix ≤ bits := by
    rwa [Nat.zero_add, List.length_reverse]
  have small : unsigned (List.replicate nLimbs 0#w) < radix^0 := by
    rw [zero, pow_zero]
    exact Nat.one_pos
  obtain ⟨tab, steps, length, value⟩ := binarySteps_eq power positive limb fits estimate' room' small
    (fun c inside => digits c (List.mem_reverse.mp inside))
  refine ⟨tab, steps, length.trans List.length_replicate, ?_⟩
  rw [value, zero, pow_zero, Nat.one_mul, Nat.zero_add, ← horner_reverse, List.map_reverse,
    List.reverse_reverse]

end

end Binary

section Text

def stringRadixes : List Nat := [2, 8, 10, 16]

/-- The bits that `limbEstimate` counts for `n` digits -/
def bitEstimate (radix n : Nat) : Nat :=
  if radix = 10 then (n * 27 + 7) / 8 else n * (32 - clz32 (radix - 1))

theorem limbEstimate_eq (radix n : Nat) : limbEstimate w radix n = bitEstimate radix n / w + 1 :=
  Nat.max_eq_right (Nat.le_add_left 1 _)

theorem ten_pow_le (n : Nat) : 10^n ≤ 2^((n * 27 + 7) / 8) := by
  have eighth : (10^n)^8 ≤ (2^((n * 27 + 7) / 8))^8 := by
    calc (10^n)^8 = (10^8)^n := by rw [← pow_mul, ← pow_mul, Nat.mul_comm]
      _ ≤ (2^27)^n := Nat.pow_le_pow_left (by decide) n
      _ = 2^(27 * n) := (pow_mul 2 27 n).symm
      _ ≤ 2^((n * 27 + 7) / 8 * 8) := Nat.pow_le_pow_right (by decide) (by omega)
      _ = (2^((n * 27 + 7) / 8))^8 := pow_mul 2 _ 8
  exact (Nat.pow_le_pow_iff_left (by decide)).mp eighth

theorem binary_stringRadix {radix : Nat} (member : radix ∈ stringRadixes) (binary : radix ≠ 10) :
    radix = 2^(32 - clz32 (radix - 1)) ∧ 32 - clz32 (radix - 1) ≤ 32 := by
  have table : ∀ radix ∈ stringRadixes, radix ≠ 10 →
      radix = 2^(32 - clz32 (radix - 1)) ∧ 32 - clz32 (radix - 1) ≤ 32 := by decide
  exact table radix member binary

theorem pow_le_bitEstimate {radix : Nat} (member : radix ∈ stringRadixes) (n : Nat) :
    radix^n ≤ 2^bitEstimate radix n := by
  rw [bitEstimate]
  by_cases decimal : radix = 10
  · rw [if_pos decimal, decimal]
    exact ten_pow_le n
  · have power := (binary_stringRadix member decimal).1
    rw [if_neg decimal]
    conv_lhs => rw [power, ← pow_mul, Nat.mul_comm]

theorem negative_false {tab : List (BitVec w)} (positive : 0 < w) (nonempty : tab ≠ [])
    (small : unsigned tab < 2^(w * tab.length - 1)) : ¬ negative tab = true := by
  intro high
  have range := (signed_range positive nonempty).1
  rw [signed, signWeight, if_pos high] at range
  have double_ : (2 : Int)^(w * tab.length) = 2 * 2^(w * tab.length - 1) := by
    rw [← pow_succ', Nat.sub_add_cancel (Nat.mul_pos positive (List.length_pos_iff.mpr nonempty))]
  have small' : (unsigned tab : Int) < 2^(w * tab.length - 1) := by exact_mod_cast small
  push_cast at range
  linarith

theorem fromStringTab_spec (limbBits : LimbBits) {radix : Nat} (member : radix ∈ stringRadixes) {p : List Char}
    (digits : ∀ c ∈ p, toDigit c < radix) :
    ∃ tab, fromStringTab limbBits radix (limbEstimate limbBits.width radix p.length) p = some tab
      ∧ tab ≠ [] ∧ signed tab = horner radix 0 (p.map toDigit)
      ∧ horner radix 0 (p.map toDigit)
        < 2^(limbBits.width * limbEstimate limbBits.width radix p.length - 1) := by
  have positive : 0 < limbBits.width := by cases limbBits <;> decide
  have wide : 32 ≤ limbBits.width := by cases limbBits <;> decide
  have limb (n : Nat) : n &&& (limbBits.width - 1) = n % limbBits.width := by
    cases limbBits with
    | bits32 => exact Nat.and_two_pow_sub_one_eq_mod n 5
    | bits64 => exact Nat.and_two_pow_sub_one_eq_mod n 6
  have small : horner radix 0 (p.map toDigit) < 2^bitEstimate radix p.length := by
    have digits' : ∀ d ∈ p.map toDigit, d < radix := by
      intro d inside
      obtain ⟨c, member', rfl⟩ := List.mem_map.mp inside
      exact digits c member'
    have bound := horner_lt digits'
    rw [List.length_map] at bound
    exact bound.trans_le (pow_le_bitEstimate member p.length)
  have estimate : bitEstimate radix p.length / limbBits.width
      < limbEstimate limbBits.width radix p.length := by
    rw [limbEstimate_eq]
    exact Nat.lt_succ_self _
  have room : bitEstimate radix p.length
      ≤ limbBits.width * limbEstimate limbBits.width radix p.length - 1 := by
    have above := Nat.lt_mul_div_succ (bitEstimate radix p.length) positive
    rw [limbEstimate_eq]
    omega
  have small' : horner radix 0 (p.map toDigit)
      < 2^(limbBits.width * limbEstimate limbBits.width radix p.length - 1) :=
    small.trans_le (Nat.pow_le_pow_right (by decide) room)
  rw [fromStringTab]
  by_cases decimal : radix = 10
  · rw [decimal] at digits small estimate small' ⊢
    rw [if_pos rfl]
    obtain ⟨tab, loop, nonempty, value⟩ := decimalTab_spec estimate digits small
    exact ⟨tab, loop, nonempty, value, small'⟩
  · obtain ⟨power, fits⟩ := binary_stringRadix member decimal
    obtain ⟨tab, loop, length, value⟩ := binaryTab_spec power positive limb (fits.trans wide)
      estimate (by rw [bitEstimate, if_neg decimal]) digits
    have nonempty : tab ≠ [] :=
      List.ne_nil_of_length_pos (length ▸ (Nat.zero_le _).trans_lt estimate)
    have natural := negative_false positive nonempty (by rwa [value, length])
    refine ⟨tab, ?_, nonempty, ?_, small'⟩
    · rw [if_neg decimal]
      exact loop
    · rw [signed, signWeight, if_neg natural, value]
      exact sub_zero _

theorem toDigit_zero (c : Char) : toDigit c = 0 ↔ c = '0' := by
  constructor
  · intro zero
    rw [toDigit] at zero
    split_ifs at zero with decimal
    have low : '0'.toNat ≤ c.toNat := decimal.1
    apply Char.toNat_inj.mp
    omega
  · rintro rfl
    decide

theorem horner_without_zeros (radix : Nat) (ds : List Char) :
    horner radix 0 ((ds.dropWhile (· = '0')).map toDigit) = horner radix 0 (ds.map toDigit) := by
  rw [← horner_leading_zeros (ds.map toDigit), List.dropWhile_map]
  congr 3
  funext c
  simp [toDigit_zero]

/-- The digits after the leading zeros -/
def significantDigits (ds : List Char) : Nat := (ds.dropWhile (· = '0')).length

def FromStringRefused (w radix nDigits : Nat) (error : RangeError) : Prop :=
  error = .tooLargeToAllocate
    ∧ (maxSize w * w < nDigits ∨ maxSize w < limbEstimate w radix nDigits)

theorem len_le_of_fits (positive : 0 < w) {r : JSBigInt w} (normal : Normalized r.tab) {n v : Nat}
    (some_ : 0 < n) (value : r.value = v) (small : v < 2^(w * n - 1)) : r.len ≤ n := by
  by_contra longer
  have outside := normal.not_fits positive (Nat.lt_of_not_le longer) some_
  apply outside
  have small' : (v : Int) < 2^(w * n - 1) := by exact_mod_cast small
  change Fits w n r.value
  rw [value]
  exact ⟨(Int.neg_nonpos_of_nonneg (by positivity)).trans (Int.natCast_nonneg v), small'⟩

theorem sign_of_text {radix : Nat} (member : radix ∈ stringRadixes) (isNeg : Bool) {ds : List Char}
    (digits : ∀ c ∈ ds, toDigit c < radix) :
    ((if isNeg then ['-'] else []) ++ ds).head? = some '-' ↔ isNeg = true := by
  cases isNeg with
  | true => simp
  | false =>
      have small : ∀ radix ∈ stringRadixes, radix ≤ toDigit '-' := by decide
      constructor
      · intro minus
        have inside : '-' ∈ ds := List.mem_of_mem_head? minus
        exact absurd (digits '-' inside) (Nat.not_lt_of_le (small radix member))
      · intro impossible
        exact absurd impossible Bool.false_ne_true

section

variable (limbBits : LimbBits) {radix : Nat} (member : radix ∈ stringRadixes) (isNeg : Bool)
  {ds : List Char} (digits : ∀ c ∈ ds, toDigit c < radix)

include member digits

theorem jsBigintFromString_eq :
    ∃ tab, tab ≠ [] ∧ signed tab = horner radix 0 (ds.map toDigit)
      ∧ horner radix 0 (ds.map toDigit)
        < 2^(limbBits.width * limbEstimate limbBits.width radix (significantDigits ds) - 1)
      ∧ jsBigintFromString limbBits ((if isNeg then ['-'] else []) ++ ds) radix
        = if maxSize limbBits.width * limbBits.width < significantDigits ds then
            throw (.thrown .tooLargeToAllocate)
          else (do
            jsBigintNew limbBits.width (limbEstimate limbBits.width radix (significantDigits ds))
            let r ← jsBigintNormalize ⟨tab⟩
            if isNeg then some <$> jsBigintNeg r else pure (some r)) := by
  obtain ⟨tab, loop, nonempty, value, small⟩ := fromStringTab_spec limbBits member
    (fun c inside => digits c ((List.dropWhile_sublist (· = '0')).subset inside))
  rw [horner_without_zeros] at value small
  refine ⟨tab, nonempty, value, small, ?_⟩
  have rest : (if ((if isNeg then ['-'] else []) ++ ds).head? = some '-'
      then ((if isNeg then ['-'] else []) ++ ds).tail
      else (if isNeg then ['-'] else []) ++ ds) = ds := by
    by_cases minus : isNeg = true
    · rw [if_pos ((sign_of_text member isNeg digits).mpr minus), minus]
      rfl
    · rw [if_neg (fun head => minus ((sign_of_text member isNeg digits).mp head)),
        if_neg minus, List.nil_append]
  rw [jsBigintFromString, rest]
  dsimp only
  rw [loop]
  simp only [sign_of_text member isNeg digits, significantDigits]
  rfl

theorem jsBigintFromString_denotes :
    Outcome (jsBigintFromString limbBits ((if isNeg then ['-'] else []) ++ ds) radix)
      (fun r => ∃ r', r = some r' ∧ Denotes (if isNeg then -(horner radix 0 (ds.map toDigit) : Int)
        else horner radix 0 (ds.map toDigit)) r')
      (FromStringRefused limbBits.width radix (significantDigits ds)) := by
  have positive : 0 < limbBits.width := by cases limbBits <;> decide
  have sized : stackLimbs ≤ maxSize limbBits.width := by cases limbBits <;> decide
  obtain ⟨tab, nonempty, value, small, run⟩ :=
    jsBigintFromString_eq limbBits member isNeg digits
  rw [run]
  by_cases long : maxSize limbBits.width * limbBits.width < significantDigits ds
  · rw [if_pos long]
    exact Outcome.thrown ⟨rfl, Or.inl long⟩
  · rw [if_neg long]
    apply Outcome.bind ((jsBigintNew_outcome _ _).mono (fun _ done => done)
      fun _ refused => ⟨refused.1, Or.inr refused.2⟩)
    intro _ _
    apply Outcome.bind (jsBigintNormalize_denotes positive (a := ⟨tab⟩) nonempty)
    intro r denotes
    rw [JSBigInt.value, value] at denotes
    cases isNeg with
    | false => exact Outcome.pure ⟨r, rfl, denotes⟩
    | true =>
        have negated := jsBigintNeg_denotes positive sized denotes.1.nonempty
        rw [denotes.2] at negated
        have len := len_le_of_fits positive denotes.1
          (by rw [limbEstimate_eq]; exact Nat.succ_pos _) denotes.2 small
        apply Outcome.map (negated.mono (fun _ done => done) fun _ refused =>
          ⟨refused.1, Or.inr (refused.2.trans_le len)⟩)
        intro r' denotes'
        exact ⟨r', rfl, denotes'⟩

end

theorem toDigit_digitChar {d : Nat} (small : d < 36) : toDigit (digitChar d) = d := by
  have table : ∀ d < 36, toDigit (digitChar d) = d := by decide
  exact table d small

end Text

section Conversion

def textRoundTrip (limbBits : LimbBits) (a : JSBigInt limbBits.width) (radix : Nat) :
    Allocating RangeError (Option (JSBigInt limbBits.width)) := do
  match ← jsBigintToString1 limbBits a radix with
  | none => pure none
  | some text => jsBigintFromString limbBits text radix

/-- A `BigInt` is printed as its numeral and the numeral is read back; only what needs more limbs
than a `BigInt` can have is refused. -/
structure TextConversion (limbBits : LimbBits) : Prop where
  prints (a : NormalBigInt limbBits.width) (radix : Nat) : 2 ≤ radix → radix ≤ 36 →
    Outcome (jsBigintToString1 limbBits a.toJSBigInt radix)
      (· = some (signedNumeral radix a.value)) (SizeRefused limbBits.width a.len)
  canonical (radix : Nat) (x : Int) : 2 ≤ radix → radix ≤ 36 → x ≠ 0 →
    ∃ d rest, signedNumeral radix x = (if x < 0 then ['-'] else []) ++ digitChar d :: rest
      ∧ 0 < d ∧ d < radix
  zero (radix : Nat) : signedNumeral radix 0 = ['0']
  reads (radix : Nat) (isNeg : Bool) (ds : List Char) : radix ∈ stringRadixes →
    (∀ c ∈ ds, toDigit c < radix) →
    Outcome (jsBigintFromString limbBits ((if isNeg then ['-'] else []) ++ ds) radix)
      (fun r => ∃ r', r = some r' ∧ Denotes (if isNeg then -(horner radix 0 (ds.map toDigit) : Int)
        else horner radix 0 (ds.map toDigit)) r')
      (FromStringRefused limbBits.width radix (significantDigits ds))
  refuses (radix : Nat) (isNeg : Bool) (ds : List Char) (answers : List Bool) :
    radix ∈ stringRadixes → (∀ c ∈ ds, toDigit c < radix) →
    maxSize limbBits.width * limbBits.width < significantDigits ds
      ∨ maxSize limbBits.width < limbEstimate limbBits.width radix (significantDigits ds) →
    jsBigintFromString limbBits ((if isNeg then ['-'] else []) ++ ds) radix answers
      = .error (.thrown .tooLargeToAllocate) answers
  roundTrip (a : NormalBigInt limbBits.width) (radix : Nat) : radix ∈ stringRadixes →
    Outcome (textRoundTrip limbBits a.toJSBigInt radix) (· = some a.toJSBigInt) fun error =>
      SizeRefused limbBits.width a.len error
        ∨ FromStringRefused limbBits.width radix (significantDigits
          (numeral digitChar radix a.value.natAbs)) error

theorem bigInt_text_conversion (limbBits : LimbBits) : TextConversion limbBits := by
  have positive : 0 < limbBits.width := by cases limbBits <;> decide
  have bounds : ∀ radix ∈ stringRadixes, 1 < radix ∧ radix ≤ 36 := by decide
  constructor
  case prints =>
    intro a radix low high
    exact jsBigintToString1_prints low high a.normal
  case canonical =>
    intro radix x low high nonzero
    obtain ⟨d, rest, head, some_, below⟩ :=
      numeral_head digitChar (b := radix) (Int.natAbs_pos.mpr nonzero) low
    exact ⟨d, rest, by rw [signedNumeral, head], some_, below⟩
  case zero =>
    intro radix
    rfl
  case reads =>
    intro radix isNeg ds member digits
    exact jsBigintFromString_denotes limbBits member isNeg digits
  case refuses =>
    intro radix isNeg ds answers member digits large
    obtain ⟨tab, -, -, -, run⟩ :=
      jsBigintFromString_eq limbBits member isNeg digits
    rw [run]
    by_cases long : maxSize limbBits.width * limbBits.width < significantDigits ds
    · rw [if_pos long]
      rfl
    · rw [if_neg long, jsBigintNew, if_pos (large.resolve_left long)]
      rfl
  case roundTrip =>
    intro a radix member
    obtain ⟨low, high⟩ := bounds radix member
    have digits : ∀ c ∈ numeral digitChar radix a.value.natAbs, toDigit c < radix := by
      intro c inside
      obtain ⟨d, below, rfl⟩ := mem_numeral digitChar low inside
      rw [toDigit_digitChar (by omega)]
      exact below
    have outcome := jsBigintFromString_denotes limbBits member
      (decide (a.value < 0)) digits
    rw [horner_numeral digitChar low (fun d below => toDigit_digitChar (by omega))] at outcome
    simp only [decide_eq_true_eq] at outcome
    apply Outcome.bind ((jsBigintToString1_prints low high a.normal).mono (fun _ done => done)
      fun _ refused => Or.inl refused)
    rintro _ rfl
    apply outcome.mono
    · rintro _ ⟨r, rfl, denotes⟩
      have value : (if a.value < 0 then -(a.value.natAbs : Int) else a.value.natAbs) = a.value := by
        by_cases below : a.value < 0
        · rw [if_pos below]
          omega
        · rw [if_neg below]
          omega
      rw [value] at denotes
      rw [denotes.unique positive ⟨a.normal, rfl⟩]
    · exact fun _ refused => Or.inr refused

/-- A text with more digits than a `BigInt` can have bits is refused. -/
theorem longText_refused :
    (∀ c ∈ List.replicate (2^20 + 1) '1', toDigit c < 10)
      ∧ jsBigintFromString .bits64 (List.replicate (2^20 + 1) '1') 10 []
        = .error (.thrown .tooLargeToAllocate) [] := by
  have digits : ∀ c ∈ List.replicate (2^20 + 1) '1', toDigit c < 10 := by
    intro c inside
    rw [List.eq_of_mem_replicate inside]
    decide
  refine ⟨digits, ?_⟩
  obtain ⟨_, -, -, -, run⟩ := jsBigintFromString_eq .bits64
    (show 10 ∈ stringRadixes by decide) false digits
  have long : maxSize LimbBits.bits64.width * LimbBits.bits64.width
      < significantDigits (List.replicate (2^20 + 1) '1') := by
    rw [significantDigits, List.replicate_succ, List.dropWhile_cons_of_neg (by decide),
      List.length_cons, List.length_replicate]
    decide
  rw [if_pos long] at run
  exact congrArg (· []) run

end Conversion

end PrimJs.BigInt
