import Mathlib.Tactic
import Mathlib.Data.List.Induction
import Mathlib.Data.List.Sort
import Mathlib.Data.Set.Basic
import Mathlib.Order.Interval.Set.LinearOrder
import Mathlib.Algebra.Group.Nat.Even
import Mathlib.Algebra.Ring.Parity

/-! Sets of points given by the list of their boundaries.

The boundaries of a set alternate between entering and leaving it, so a point belongs to it
exactly when an odd number of boundaries lie at or below the point. -/

namespace PrimJs.Boundaries

variable {α : Type*} [LinearOrder α]

/-- The union of the half-open intervals between the boundaries, taken two by two. -/
def region : List α → Set α
  | low :: high :: rest => Set.Ico low high ∪ region rest
  | _ => ∅

@[simp] theorem region_nil : region ([] : List α) = ∅ := rfl

@[simp] theorem region_cons_cons (low high : α) (rest : List α) :
    region (low :: high :: rest) = Set.Ico low high ∪ region rest := rfl

/-- How many boundaries lie at or below `x`. -/
def below (x : α) (points : List α) : Nat := points.countP (· ≤ x)

@[simp] theorem below_nil (x : α) : below x [] = 0 := rfl

@[simp] theorem below_cons (x point : α) (points : List α) :
    below x (point :: points) = below x points + if point ≤ x then 1 else 0 := by
  simp [below, List.countP_cons]

@[simp] theorem below_append (x : α) (front back : List α) :
    below x (front ++ back) = below x front + below x back := by
  simp [below]

section

variable {x : α} {points : List α}

theorem below_eq_zero (hlt : ∀ point ∈ points, x < point) : below x points = 0 := by
  simpa [below, List.countP_eq_zero] using hlt

theorem below_eq_length (hle : ∀ point ∈ points, point ≤ x) : below x points = points.length := by
  simpa [below, List.countP_eq_length] using hle

theorem lt_of_mem_of_lt_head {point : α} (hsorted : (point :: points).Pairwise (· ≤ ·))
    (hlt : x < point) : ∀ q ∈ point :: points, x < q := by
  intro q hq
  rcases List.mem_cons.mp hq with rfl | hq
  · exact hlt
  · exact lt_of_lt_of_le hlt (List.rel_of_pairwise_cons hsorted hq)

end

/-- Membership is the parity of the number of boundaries passed. -/
theorem mem_region_iff_odd_below (x : α) (points : List α)
    (hsorted : points.Pairwise (· ≤ ·)) (heven : Even points.length) :
    x ∈ region points ↔ Odd (below x points) := by
  induction points using List.twoStepInduction with
  | nil => simp [region]
  | singleton _ => simp at heven
  | cons_cons low high rest ih _ =>
      have htail := (List.pairwise_cons.mp hsorted).2
      have hlowHigh : low ≤ high := List.rel_of_pairwise_cons hsorted (by simp)
      have hrest : Even rest.length := by
        simpa [Nat.even_add_one, parity_simps] using heven
      have hrecur := ih (List.pairwise_cons.mp htail).2 hrest
      by_cases hlow : x < low
      · -- nothing has been passed yet
        have hnone := below_eq_zero (lt_of_mem_of_lt_head hsorted hlow)
        have hout : below x rest = 0 := below_eq_zero fun q hq =>
          lt_of_mem_of_lt_head hsorted hlow q (by simp [hq])
        rw [hnone]
        simp [hrecur, hout, hlow.not_ge]
      · by_cases hhigh : x < high
        · have hout : below x rest = 0 := below_eq_zero fun q hq =>
            lt_of_mem_of_lt_head htail hhigh q (by simp [hq])
          simp [hout, hhigh.not_ge, hhigh, not_lt.mp hlow]
        · simp [hrecur, not_lt.mp hlow, not_lt.mp hhigh, hhigh, parity_simps]

/-- Boundaries that describe a set without empty or touching intervals. -/
structure Normal (points : List α) : Prop where
  even : Even points.length
  increasing : points.Pairwise (· < ·)

theorem Normal.sorted {points : List α} (normal : Normal points) : points.Pairwise (· ≤ ·) :=
  normal.increasing.imp le_of_lt

theorem eq_of_odd_below {l l' : List α} (h : l.Pairwise (· < ·)) (h' : l'.Pairwise (· < ·))
    (same : ∀ x, Odd (below x l) ↔ Odd (below x l')) : l = l' := by
  have at_head : ∀ {a : α} {t : List α}, (a :: t).Pairwise (· < ·) → below a (a :: t) = 1 := by
    intro a t sorted
    rw [below_cons, below_eq_zero (List.pairwise_cons.mp sorted).1, if_pos (le_refl a)]
  have before : ∀ {x a : α} {t : List α}, (a :: t).Pairwise (· < ·) → x < a → below x (a :: t) = 0 :=
    fun sorted less => below_eq_zero (lt_of_mem_of_lt_head (sorted.imp le_of_lt) less)
  induction l generalizing l' with
  | nil =>
      cases l' with
      | nil => rfl
      | cons b t' => simpa [at_head h'] using same b
  | cons a t ih =>
      cases l' with
      | nil => simpa [at_head h] using same a
      | cons b t' =>
          obtain less | rfl | more := lt_trichotomy a b
          · simpa [at_head h, before h' less] using same a
          · rw [ih (List.pairwise_cons.mp h).2 (List.pairwise_cons.mp h').2 fun x => ?_]
            by_cases passed : a ≤ x
            · have flipped : Even (below x t) ↔ Even (below x t') := by
                simpa [passed, parity_simps] using same x
              rw [← Nat.not_even_iff_odd, ← Nat.not_even_iff_odd, flipped]
            · simpa [passed] using same x
          · simpa [at_head h', before h more] using same b

/-- A set has one list of boundaries. -/
theorem Normal.unique {points points' : List α} (normal : Normal points) (normal' : Normal points')
    (same : region points = region points') : points = points' := by
  refine eq_of_odd_below normal.increasing normal'.increasing fun x => ?_
  rw [← mem_region_iff_odd_below x points normal.sorted normal.even, same,
    mem_region_iff_odd_below x points' normal'.sorted normal'.even]

/-- The end of the interval that reaches `high` once the intervals that touch it are joined,
and the boundaries left over. -/
def absorb (high : α) : List α → α × List α
  | low :: high' :: rest => if high = low then absorb high' rest else (high, low :: high' :: rest)
  | rest => (high, rest)

theorem absorb_length_le (high : α) (rest : List α) : (absorb high rest).2.length ≤ rest.length := by
  induction high, rest using absorb.induct with
  | case1 low high' rest ih =>
      rw [absorb, if_pos rfl]
      exact ih.trans (by simp; omega)
  | case2 high low high' rest hne => rw [absorb, if_neg hne]
  | case3 rest high hshort => rw [absorb.eq_2 _ _ hshort]

theorem absorb_mem (high : α) (rest : List α) : (absorb high rest).1 ∈ high :: rest := by
  induction high, rest using absorb.induct with
  | case1 low high' rest ih =>
      rw [absorb, if_pos rfl]
      exact List.mem_cons_of_mem _ (List.mem_cons_of_mem _ ih)
  | case2 high low high' rest hne =>
      rw [absorb, if_neg hne]
      exact List.mem_cons_self
  | case3 rest high hshort =>
      rw [absorb.eq_2 _ _ hshort]
      exact List.mem_cons_self

/-- Join touching intervals and drop empty ones. -/
def compress : List α → List α
  | low :: high :: rest =>
      if low = high then compress rest
      else low :: (absorb high rest).1 :: compress (absorb high rest).2
  | _ => []
  termination_by points => points.length
  decreasing_by
    · simp only [List.length_cons]
      omega
    · have hle := absorb_length_le high rest
      simp only [List.length_cons]
      omega

theorem absorb_spec (high : α) (rest : List α) (hsorted : (high :: rest).Pairwise (· ≤ ·))
    (heven : Even rest.length) :
    high ≤ (absorb high rest).1 ∧
      (∃ joined, rest = joined ++ (absorb high rest).2 ∧ Even joined.length) ∧
      (∀ q ∈ (absorb high rest).2, (absorb high rest).1 < q) ∧
      ∀ x, x ∈ Set.Ico high (absorb high rest).1 ∪ region (absorb high rest).2 ↔
        x ∈ region rest := by
  induction high, rest using absorb.induct with
  | case1 low high' rest ih =>
      have htail := (List.pairwise_cons.mp hsorted).2
      have hle : low ≤ high' := List.rel_of_pairwise_cons htail (by simp)
      obtain ⟨hreach, ⟨joined, hjoined, hjoinedEven⟩, habove, hmem⟩ :=
        ih (List.pairwise_cons.mp htail).2 (by simpa [parity_simps] using heven)
      rw [absorb, if_pos rfl]
      refine ⟨hle.trans hreach, ⟨low :: high' :: joined, ?_, ?_⟩, habove, fun x => ?_⟩
      · simpa using hjoined
      · simpa [parity_simps] using hjoinedEven
      · rw [region_cons_cons, ← Set.Ico_union_Ico_eq_Ico hle hreach, Set.union_assoc,
          Set.mem_union, hmem x, Set.mem_union]
  | case2 high low high' rest hne =>
      rw [absorb, if_neg hne]
      refine ⟨le_refl _, ⟨[], rfl, by simp⟩, fun q hq => ?_, fun x => by simp⟩
      have hlow : high < low :=
        lt_of_le_of_ne (List.rel_of_pairwise_cons hsorted (by simp)) hne
      exact lt_of_mem_of_lt_head (List.pairwise_cons.mp hsorted).2 hlow q hq
  | case3 rest high hshort =>
      match rest, hshort, heven with
      | [], _, _ => simp [absorb]
      | [_], _, heven => simp at heven
      | low :: high' :: rest, hshort, _ => exact absurd rfl (hshort low high' rest)

theorem compress_spec (points : List α) (hsorted : points.Pairwise (· ≤ ·))
    (heven : Even points.length) :
    Normal (compress points) ∧ (∀ q ∈ compress points, q ∈ points) ∧
      region (compress points) = region points := by
  induction points using compress.induct with
  | case1 low rest ih =>
      have htail := (List.pairwise_cons.mp hsorted).2
      obtain ⟨hnormal, hmem, hregion⟩ :=
        ih (List.pairwise_cons.mp htail).2 (by simpa [parity_simps] using heven)
      rw [compress, if_pos rfl]
      exact ⟨hnormal, fun q hq => by simp [hmem q hq], by simp [hregion]⟩
  | case2 low high rest hne ih =>
      have htail := (List.pairwise_cons.mp hsorted).2
      have hle : low ≤ high := List.rel_of_pairwise_cons hsorted (by simp)
      have hrestEven : Even rest.length := by simpa [parity_simps] using heven
      obtain ⟨hreach, ⟨joined, hjoined, hjoinedEven⟩, habove, hmem⟩ :=
        absorb_spec high rest htail hrestEven
      have hleftSorted : (absorb high rest).2.Pairwise (· ≤ ·) := by
        have hrestSorted := (List.pairwise_cons.mp htail).2
        rw [hjoined] at hrestSorted
        exact (List.pairwise_append.mp hrestSorted).2.1
      have hleftEven : Even (absorb high rest).2.length := by
        have hlength := congrArg List.length hjoined
        rw [List.length_append] at hlength
        rw [hlength, Nat.even_add] at hrestEven
        exact hrestEven.mp hjoinedEven
      obtain ⟨hnormal, hsub, hregion⟩ := ih hleftSorted hleftEven
      have hlow : low < (absorb high rest).1 := (lt_of_le_of_ne hle hne).trans_le hreach
      rw [compress, if_neg hne]
      refine ⟨⟨by simpa [parity_simps] using hnormal.even, ?_⟩, ?_, ?_⟩
      · refine List.pairwise_cons.mpr ⟨fun q hq => ?_, List.pairwise_cons.mpr ⟨?_, ?_⟩⟩
        · rcases List.mem_cons.mp hq with rfl | hq
          · exact hlow
          · exact hlow.trans (habove q (hsub q hq))
        · exact fun q hq => habove q (hsub q hq)
        · exact hnormal.increasing
      · intro q hq
        rcases List.mem_cons.mp hq with rfl | hq
        · simp
        · rcases List.mem_cons.mp hq with rfl | hq
          · exact List.mem_cons_of_mem _ (absorb_mem high rest)
          · rw [hjoined]
            simp [hsub q hq]
      · ext x
        have hx := hmem x
        rw [region_cons_cons, region_cons_cons, hregion, ← Set.Ico_union_Ico_eq_Ico hle hreach,
          Set.union_assoc, Set.mem_union, hx, Set.mem_union]
  | case3 points hshort =>
      match points, hshort, heven with
      | [], _, _ => exact ⟨⟨by simp [compress], by simp [compress]⟩, by simp [compress], by simp [compress]⟩
      | [_], _, heven => simp at heven
      | low :: high :: rest, hshort, _ => exact absurd rfl (hshort low high rest)

end PrimJs.Boundaries
