import Mathlib.Data.List.GetD
import PrimJs.Regexp.CharClass

/-! Testing a character against an instruction. -/

namespace PrimJs.Regexp

open CharRange

/-- The binary search of `lre_range_match` and `lre_range32_match` over the inclusive ranges; the
indices are 32-bit, and their distance is fuel enough. -/
def rangeSearch (ranges : List (Nat × Nat)) (c : Nat) : (fuel idx_min idx_max : Nat) → Bool
  | 0, _, _ => false
  | fuel + 1, idx_min, idx_max =>
      if idx_min ≤ idx_max then
        let idx := (idx_min + idx_max) / 2
        let range := ranges.getD idx (0, 0)
        if c < range.1 then rangeSearch ranges c fuel idx_min ((idx + UINT32_MAX) % 2 ^ 32)
        else if c > range.2 then rangeSearch ranges c fuel (idx + 1) idx_max
        else true
      else false

/-- `lre_range_match`: `0xffff` for the last value means infinity. -/
def lreRangeMatch (ranges : List (Nat × Nat)) (c : Nat) : Bool :=
  let high := (ranges.getLastD (0, 0)).2
  if c < (ranges.headD (0, 0)).1 then false
  else if c ≥ 0xffff && high = 0xffff then true
  else if c > high then false
  else rangeSearch ranges c (ranges.length + 1) 0 (ranges.length - 1)

def lreRange32Match (ranges : List (Nat × Nat)) (c : Nat) : Bool :=
  if c < (ranges.headD (0, 0)).1 then false
  else if c > (ranges.getLastD (0, 0)).2 then false
  else rangeSearch ranges c (ranges.length + 1) 0 (ranges.length - 1)

/-- `lre_char_op_match`, for the flags and tables of the execution. -/
def lreCharOpMatch (u : UnicodeData) (ignore_case is_utf16 : Bool) (op : REOp) (c : Nat) : Bool :=
  let c := if ignore_case then lreCanonicalize u c is_utf16 else c
  match op with
  | .char val => c = val
  | .char32 val => c = val
  | .range ranges => lreRangeMatch ranges c
  | .range32 ranges => lreRange32Match ranges c
  | _ => false

/-- Inclusive ranges in increasing order. -/
structure Separated (ranges : List (Nat × Nat)) : Prop where
  lower_le : ∀ range ∈ ranges, range.1 ≤ range.2
  apart : ranges.Pairwise fun range later => range.2 < later.1

/-- Some range holds `c`. -/
def Covers (ranges : List (Nat × Nat)) (c : Nat) : Prop :=
  ∃ range ∈ ranges, range.1 ≤ c ∧ c ≤ range.2

variable {ranges : List (Nat × Nat)}

theorem Separated.lt_of_lt (h : Separated ranges) {i j : Nat} (hij : i < j)
    (hj : j < ranges.length) : (ranges.getD i (0, 0)).2 < (ranges.getD j (0, 0)).1 := by
  have hi : i < ranges.length := hij.trans hj
  rw [List.getD_eq_getElem _ _ hi, List.getD_eq_getElem _ _ hj]
  exact List.pairwise_iff_getElem.mp h.apart i j hi hj hij

theorem Separated.le_of_lt (h : Separated ranges) {i : Nat} (hi : i < ranges.length) :
    (ranges.getD i (0, 0)).1 ≤ (ranges.getD i (0, 0)).2 := by
  rw [List.getD_eq_getElem _ _ hi]
  exact h.lower_le _ (List.getElem_mem hi)

/-- The search finds the range of `c` in its window. -/
theorem rangeSearch_iff (h : Separated ranges) (hsize : ranges.length < 2 ^ 31) {c : Nat}
    (hfirst : (ranges.getD 0 (0, 0)).1 ≤ c) (fuel idx_min idx_max : Nat)
    (hmax : idx_max < ranges.length) (hfuel : idx_max + 1 - idx_min < fuel) :
    rangeSearch ranges c fuel idx_min idx_max = true ↔
      ∃ i, idx_min ≤ i ∧ i ≤ idx_max ∧ (ranges.getD i (0, 0)).1 ≤ c ∧
        c ≤ (ranges.getD i (0, 0)).2 := by
  induction fuel generalizing idx_min idx_max with
  | zero => omega
  | succ fuel ih =>
      rw [rangeSearch]
      split
      · next hle =>
        set idx := (idx_min + idx_max) / 2 with hidx
        have hidxlt : idx < ranges.length := by omega
        dsimp only
        split
        · next hbelow =>
          -- the ranges from the middle on start above `c`
          have hpos : 0 < idx := by
            rcases Nat.eq_zero_or_pos idx with hzero | hpos
            · rw [hzero] at hbelow
              omega
            · exact hpos
          have hpred : (idx + UINT32_MAX) % 2 ^ 32 = idx - 1 := by
            unfold UINT32_MAX
            omega
          rw [hpred, ih idx_min (idx - 1) (by omega) (by omega)]
          constructor
          · rintro ⟨i, hmin, hmax, hmem⟩
            exact ⟨i, hmin, by omega, hmem⟩
          · rintro ⟨i, hmin, hmax, hlow, hhigh⟩
            refine ⟨i, hmin, ?_, hlow, hhigh⟩
            by_contra hge
            rcases Nat.lt_or_ge idx i with hlt | hge'
            · have hbetween := h.lt_of_lt hlt (by omega)
              have hself := h.le_of_lt hidxlt
              omega
            · obtain rfl : i = idx := by omega
              omega
        · split
          · next hnotbelow habove =>
            rw [ih (idx + 1) idx_max hmax (by omega)]
            constructor
            · rintro ⟨i, hmin, hmax, hmem⟩
              exact ⟨i, by omega, hmax, hmem⟩
            · rintro ⟨i, hmin, hmax, hlow, hhigh⟩
              refine ⟨i, ?_, hmax, hlow, hhigh⟩
              by_contra hge
              rcases Nat.lt_or_ge i idx with hlt | hge'
              · have hbetween := h.lt_of_lt hlt hidxlt
                omega
              · obtain rfl : i = idx := by omega
                omega
          · next hnotbelow hnotabove =>
            exact ⟨fun _ => ⟨idx, by omega, by omega, not_lt.mp hnotbelow, not_lt.mp hnotabove⟩,
              fun _ => rfl⟩
      · next hgt =>
        constructor
        · intro hfalse
          cases hfalse
        · rintro ⟨i, hmin, hmax, -⟩
          omega

theorem covers_iff_getD {c : Nat} (hne : ranges ≠ []) :
    Covers ranges c ↔ ∃ i, 0 ≤ i ∧ i ≤ ranges.length - 1 ∧ (ranges.getD i (0, 0)).1 ≤ c ∧
      c ≤ (ranges.getD i (0, 0)).2 := by
  have hpos := List.length_pos_iff.mpr hne
  constructor
  · rintro ⟨range, hmem, hlow, hhigh⟩
    obtain ⟨i, hi, rfl⟩ := List.getElem_of_mem hmem
    exact ⟨i, Nat.zero_le _, by omega, by rwa [List.getD_eq_getElem _ _ hi],
      by rwa [List.getD_eq_getElem _ _ hi]⟩
  · rintro ⟨i, -, hi, hlow, hhigh⟩
    have hlt : i < ranges.length := by omega
    rw [List.getD_eq_getElem _ _ hlt] at hlow hhigh
    exact ⟨_, List.getElem_mem hlt, hlow, hhigh⟩

theorem headD_eq_getD (ranges : List (Nat × Nat)) :
    ranges.headD (0, 0) = ranges.getD 0 (0, 0) := by
  cases ranges <;> rfl

theorem getLastD_eq_getD (hne : ranges ≠ []) :
    ranges.getLastD (0, 0) = ranges.getD (ranges.length - 1) (0, 0) := by
  have hpos := List.length_pos_iff.mpr hne
  rw [List.getD_eq_getElem _ _ (by omega), List.getLastD_eq_getLast?,
    List.getLast?_eq_some_getLast hne, Option.getD_some, List.getLast_eq_getElem]

/-- Outside of the first and the last bound nothing is covered. -/
theorem Separated.covers_bounds (h : Separated ranges) (hne : ranges ≠ []) {c : Nat}
    (hcovers : Covers ranges c) : (ranges.headD (0, 0)).1 ≤ c ∧ c ≤ (ranges.getLastD (0, 0)).2 := by
  have hpos := List.length_pos_iff.mpr hne
  obtain ⟨i, -, hi, hlow, hhigh⟩ := (covers_iff_getD hne).mp hcovers
  rw [headD_eq_getD, getLastD_eq_getD hne]
  constructor
  · rcases Nat.eq_zero_or_pos i with rfl | hipos
    · exact hlow
    · have hbetween := h.lt_of_lt hipos (by omega)
      have hself := h.le_of_lt hpos
      omega
  · rcases Nat.lt_or_ge i (ranges.length - 1) with hlt | hge
    · have hbetween := h.lt_of_lt hlt (by omega)
      have hself := h.le_of_lt (i := ranges.length - 1) (by omega)
      omega
    · obtain rfl : i = ranges.length - 1 := by omega
      exact hhigh

section

variable (h : Separated ranges) (hne : ranges ≠ []) (hsize : ranges.length < 2 ^ 31)

include h hne hsize

/-- The search over the whole list tests membership. -/
theorem rangeSearch_all {c : Nat} (hlow : ¬c < (ranges.headD (0, 0)).1) :
    rangeSearch ranges c (ranges.length + 1) 0 (ranges.length - 1) = true ↔ Covers ranges c := by
  have hpos := List.length_pos_iff.mpr hne
  rw [headD_eq_getD] at hlow
  rw [rangeSearch_iff h hsize (not_lt.mp hlow) _ _ _ (by omega) (by omega), covers_iff_getD hne]

/-- `lre_range32_match` tests membership. -/
theorem lreRange32Match_iff (c : Nat) : lreRange32Match ranges c = true ↔ Covers ranges c := by
  unfold lreRange32Match
  split
  · next hlow =>
    refine ⟨fun hfalse => (by cases hfalse), fun hcovers => ?_⟩
    exact absurd (h.covers_bounds hne hcovers).1 (not_le.mpr hlow)
  · next hlow =>
    split
    · next hhigh =>
      refine ⟨fun hfalse => (by cases hfalse), fun hcovers => ?_⟩
      exact absurd (h.covers_bounds hne hcovers).2 (not_le.mpr hhigh)
    · exact rangeSearch_all h hne hsize hlow

/-- `lre_range_match` tests membership, a last range that ends at `0xffff` having no end. -/
theorem lreRangeMatch_iff (c : Nat) : lreRangeMatch ranges c = true ↔
      Covers ranges c ∨
        (ranges.headD (0, 0)).1 ≤ c ∧ 0xffff ≤ c ∧ (ranges.getLastD (0, 0)).2 = 0xffff := by
  unfold lreRangeMatch
  dsimp only
  split
  · next hlow =>
    refine ⟨fun hfalse => (by cases hfalse), ?_⟩
    rintro (hcovers | ⟨hle, -⟩)
    · exact absurd (h.covers_bounds hne hcovers).1 (not_le.mpr hlow)
    · omega
  · next hlow =>
    split
    · next hinfinity =>
      simp only [Bool.and_eq_true, decide_eq_true_eq] at hinfinity
      exact ⟨fun _ => .inr ⟨not_lt.mp hlow, hinfinity⟩, fun _ => rfl⟩
    · next hfinite =>
      simp only [Bool.and_eq_true, decide_eq_true_eq, not_and] at hfinite
      have hno : ¬((ranges.headD (0, 0)).1 ≤ c ∧ 0xffff ≤ c ∧
          (ranges.getLastD (0, 0)).2 = 0xffff) := fun hinf => hfinite hinf.2.1 hinf.2.2
      rw [or_iff_left hno]
      split
      · next hhigh =>
        refine ⟨fun hfalse => (by cases hfalse), fun hcovers => ?_⟩
        exact absurd (h.covers_bounds hne hcovers).2 (not_le.mpr hhigh)
      · exact rangeSearch_all h hne hsize hlow

end

end PrimJs.Regexp
