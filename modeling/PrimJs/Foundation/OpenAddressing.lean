import Mathlib.Tactic
import Mathlib.Data.Finset.Card
import Mathlib.Data.List.Nodup
import Mathlib.Logic.Function.Basic

/-! Tables with open addressing and linear probing: an element stands at a slot that a walk from its
home slot reaches before it meets a free one. -/

namespace PrimJs.OpenAddressing

/-- How many steps forward slot `b` is from slot `a`, in a table of `c` slots -/
def gap (c a b : Nat) : Nat := (b + c - a) % c

section Gap

variable {c a b d : Nat}

theorem gap_eq (a_ : a < c) (b_ : b < c) : gap c a b = if a ≤ b then b - a else b + c - a := by
  unfold gap
  split
  · have whole : b + c - a = b - a + c := by omega
    rw [whole, Nat.add_mod_right, Nat.mod_eq_of_lt (by omega)]
  · exact Nat.mod_eq_of_lt (by omega)

theorem next_eq (a_ : a < c) : (a + 1) % c = if a + 1 = c then 0 else a + 1 := by
  split
  next last => rw [last, Nat.mod_self]
  next => exact Nat.mod_eq_of_lt (by omega)

theorem gap_lt (some_ : 0 < c) : gap c a b < c := Nat.mod_lt _ some_

theorem next_lt (a_ : a < c) : (a + 1) % c < c := Nat.mod_lt _ (by omega)

@[simp] theorem gap_self (a_ : a < c) : gap c a a = 0 := by
  have same := gap_eq a_ a_
  rwa [if_pos le_rfl, Nat.sub_self] at same

section

variable (a_ : a < c) (b_ : b < c)

include a_ b_

theorem gap_pos (other : a ≠ b) : 0 < gap c a b := by
  have := gap_eq a_ b_
  split at this <;> omega

theorem gap_injective (d_ : d < c) (same : gap c a b = gap c a d) : b = d := by
  have := gap_eq a_ b_
  have := gap_eq a_ d_
  split at * <;> split at * <;> omega

/-- Two ways forward make one, which may go around the table once more. -/
theorem gap_add (d_ : d < c) :
    gap c a b + gap c b d = gap c a d ∨ gap c a b + gap c b d = gap c a d + c := by
  have := gap_eq a_ b_
  have := gap_eq b_ d_
  have := gap_eq a_ d_
  split at * <;> split at * <;> split at * <;> omega

theorem gap_next (inside : gap c a b + 1 < c) : gap c a ((b + 1) % c) = gap c a b + 1 := by
  have := gap_eq a_ b_
  have := gap_eq a_ (next_lt b_)
  have := next_eq b_
  split at * <;> split at * <;> split at * <;> omega

theorem gap_of_next (other : a ≠ b) : gap c ((a + 1) % c) b + 1 = gap c a b := by
  have := gap_eq a_ b_
  have := gap_eq (next_lt a_) b_
  have := next_eq a_
  split at * <;> split at * <;> split at * <;> omega

end

end Gap

variable {α : Type}

def entries (slots : Nat → Option α) (c : Nat) : List α := (List.range c).filterMap slots

/-- The slots from the home `h` up to slot `p` are occupied. -/
def Reaches (c : Nat) (slots : Nat → Option α) (h p : Nat) : Prop :=
  ∀ q < c, gap c h q < gap c h p → slots q ≠ none

/-- The table holds the elements of a set, each of them once and where a walk from its home finds
it. -/
structure Holds (c : Nat) (home : α → Nat) (slots : Nat → Option α) (S : Finset α) : Prop where
  mem : ∀ x, x ∈ S ↔ ∃ p < c, slots p = some x
  unique : ∀ x, ∀ p < c, ∀ q < c, slots p = some x → slots q = some x → p = q
  reach : ∀ x, ∀ p < c, slots p = some x → Reaches c slots (home x) p

/-- A walk from the home `h` that looks for `x` has come to slot `i`; slot `e` ahead of it is free. -/
structure Probing (c : Nat) (slots : Nat → Option α) (x : α) (h e i : Nat) : Prop where
  inside : i < c
  ahead : gap c h i + gap c i e = gap c h e
  passed : ∀ q < c, gap c h q < gap c h i → slots q ≠ none ∧ slots q ≠ some x

/-- An element is being taken out: slot `hole` counts as free, the slots between it and `i` are done,
and slot `e` ahead is free. -/
structure Erasing (c : Nat) (home : α → Nat) (slots : Nat → Option α) (S : Finset α)
    (hole i e : Nat) : Prop where
  hole_ : hole < c
  inside : i < c
  ahead : gap c hole i + gap c i e = gap c hole e
  apart : hole ≠ i
  free : slots e = none
  stale : slots hole ≠ none
  mem : ∀ x, x ∈ S ↔ ∃ p < c, p ≠ hole ∧ slots p = some x
  unique : ∀ x, ∀ p < c, p ≠ hole → ∀ q < c, q ≠ hole → slots p = some x → slots q = some x → p = q
  reach : ∀ x, ∀ p < c, p ≠ hole → slots p = some x → Reaches c slots (home x) p
  occupied : ∀ q < c, gap c hole q < gap c hole i → slots q ≠ none
  done : ∀ x, ∀ p < c, p ≠ hole → gap c hole p < gap c hole i → slots p = some x →
    gap c (home x) p ≤ gap c (home x) hole

variable {c : Nat} {home : α → Nat} {slots : Nat → Option α} {S : Finset α} {x y : α}
  {h e i p hole : Nat}

theorem mem_entries : x ∈ entries slots c ↔ ∃ p < c, slots p = some x := by
  simp [entries]

theorem holds_empty : Holds c home (fun _ => none) ∅ where
  mem := by simp
  unique := by simp
  reach := by simp

namespace Holds

variable (holds : Holds c home slots S)

include holds

theorem mem_entries_iff : x ∈ entries slots c ↔ x ∈ S := mem_entries.trans (holds.mem x).symm

theorem nodup_entries : (entries slots c).Nodup := by
  refine List.pairwise_filterMap.mpr (List.nodup_range.imp_of_mem fun p_ q_ other x atP y atQ same => ?_)
  exact other (holds.unique x _ (List.mem_range.mp p_) _ (List.mem_range.mp q_) atP (same ▸ atQ))

/-- A table with more slots than elements has a free slot. -/
theorem exists_free (room : S.card < c) : ∃ e < c, slots e = none := by
  by_contra full
  have get (p : Nat) (p_ : p < c) : ∃ x ∈ S, slots p = some x := by
    cases here : slots p with
    | none => exact absurd ⟨p, p_, here⟩ full
    | some x => exact ⟨x, (holds.mem x).mpr ⟨p, p_, here⟩, rfl⟩
  have le : (Finset.range c).card ≤ (S.map Function.Embedding.some).card := by
    refine Finset.card_le_card_of_injOn slots (fun p p_ => ?_) fun p p_ q q_ same => ?_
    · have ⟨x, inS, here⟩ := get p (Finset.mem_range.mp p_)
      exact Finset.mem_map.mpr ⟨x, inS, here.symm⟩
    · have p_ := Finset.mem_range.mp p_
      have ⟨x, _, here⟩ := get p p_
      exact holds.unique x p p_ q (Finset.mem_range.mp q_) here (same.symm.trans here)
  rw [Finset.card_range, Finset.card_map] at le
  omega

/-- A walk that meets a free slot has looked for an element that is not there. -/
theorem notMem_of_probing (home_ : home x < c) (probing : Probing c slots x (home x) e i)
    (free : slots i = none) : x ∉ S := by
  intro inS
  have ⟨p, p_, here⟩ := (holds.mem x).mp inS
  have other : p ≠ i := fun same => by simp [← same, here] at free
  have apart : gap c (home x) p ≠ gap c (home x) i :=
    fun same => other (gap_injective home_ p_ probing.inside same)
  rcases Nat.lt_or_gt_of_ne apart with before | after
  · exact (probing.passed p p_ before).2 here
  · exact holds.reach x p p_ here i probing.inside after free

theorem insert [DecidableEq α] (new : x ∉ S) (p_ : p < c) (free : slots p = none)
    (reaches : Reaches c slots (home x) p) :
    Holds c home (Function.update slots p (some x)) (insert x S) := by
  have absent : ∀ q < c, slots q ≠ some x := fun q q_ here => new ((holds.mem x).mpr ⟨q, q_, here⟩)
  have still {y : α} {q : Nat} (here : slots q = some y) :
      Function.update slots p (some x) q = some y := by
    rw [Function.update_of_ne (fun same => by simp [← same, here] at free), here]
  have still_ne {q : Nat} (here : slots q ≠ none) : Function.update slots p (some x) q ≠ none := by
    cases there : slots q with
    | none => exact absurd there here
    | some y => simp [still there]
  have old {y : α} {q : Nat} (here : Function.update slots p (some x) q = some y) :
      q = p ∧ y = x ∨ slots q = some y := by
    by_cases same : q = p
    · rw [same, Function.update_self, Option.some.injEq] at here
      exact .inl ⟨same, here.symm⟩
    · rw [Function.update_of_ne same] at here
      exact .inr here
  constructor
  · intro y
    rw [Finset.mem_insert, holds.mem]
    constructor
    · rintro (rfl | ⟨q, q_, here⟩)
      · exact ⟨p, p_, Function.update_self ..⟩
      · exact ⟨q, q_, still here⟩
    · rintro ⟨q, q_, here⟩
      exact (old here).imp (fun at_ => at_.2) fun there => ⟨q, q_, there⟩
  · intro y q q_ r r_ atQ atR
    rcases old atQ with ⟨hereQ, new_⟩ | thereQ <;> rcases old atR with ⟨hereR, new_⟩ | thereR
    · exact hereQ.trans hereR.symm
    · exact absurd (new_ ▸ thereR) (absent r r_)
    · exact absurd (new_ ▸ thereQ) (absent q q_)
    · exact holds.unique y q q_ r r_ thereQ thereR
  · intro y q q_ here r r_ before
    rcases old here with ⟨rfl, rfl⟩ | there
    · exact still_ne (reaches r r_ before)
    · exact still_ne (holds.reach y q q_ there r r_ before)

end Holds

namespace Probing

theorem start (h_ : h < c) : Probing c slots x h e h where
  inside := h_
  ahead := by rw [gap_self h_, Nat.zero_add]
  passed := by simp [gap_self h_]

theorem reaches (probing : Probing c slots x h e i) : Reaches c slots h i :=
  fun q q_ before => (probing.passed q q_ before).1

/-- A walk that goes on comes closer to the free slot. -/
theorem next (probing : Probing c slots x h e i) (h_ : h < c) (e_ : e < c) (free : slots e = none)
    (some_ : slots i ≠ none) (other : slots i ≠ some x) :
    Probing c slots x h e ((i + 1) % c) ∧ gap c ((i + 1) % c) e + 1 = gap c i e := by
  have inside := probing.inside
  have apart : i ≠ e := fun same => some_ (same ▸ free)
  have closer := gap_of_next inside e_ apart
  have ahead := probing.ahead
  have farther := gap_next h_ inside (by have := gap_lt (a := h) (b := e) (Nat.zero_lt_of_lt h_); omega)
  refine ⟨⟨next_lt inside, by omega, fun q q_ before => ?_⟩, closer⟩
  by_cases same : q = i
  · exact same ▸ ⟨some_, other⟩
  · have : gap c h q ≠ gap c h i := fun same' => same (gap_injective h_ q_ inside same')
    exact probing.passed q q_ (by omega)

end Probing

namespace Erasing

/-- The slot of an element that is taken out is the first hole. -/
theorem start [DecidableEq α] (holds : Holds c home slots S) (p_ : p < c) (here : slots p = some x)
    (e_ : e < c) (free : slots e = none) :
    Erasing c home slots (S.erase x) p ((p + 1) % c) e := by
  have stale : slots p ≠ none := by simp [here]
  have apart : p ≠ e := fun same => stale (same ▸ free)
  have self := gap_self p_
  have some_ : 0 < gap c p e := gap_pos p_ e_ apart
  have next := gap_next p_ p_ (by have := gap_lt (a := p) (b := e) (Nat.zero_lt_of_lt p_); omega)
  have closer := gap_of_next p_ e_ apart
  refine ⟨p_, next_lt p_, by omega, ?_, free, stale, fun y => ?_, ?_, ?_, ?_, ?_⟩
  · intro same
    rw [← same] at next
    omega
  · rw [Finset.mem_erase, holds.mem]
    constructor
    · rintro ⟨other, q, q_, there⟩
      refine ⟨q, q_, fun same => other ?_, there⟩
      rwa [same, here, Option.some.injEq, eq_comm] at there
    · rintro ⟨q, q_, other, there⟩
      exact ⟨fun same => other (holds.unique x q q_ p p_ (same ▸ there) here), q, q_, there⟩
  · exact fun y q q_ _ r r_ _ => holds.unique y q q_ r r_
  · exact fun y q q_ _ => holds.reach y q q_
  · intro q q_ before
    have same : gap c p q = gap c p p := by omega
    exact gap_injective p_ q_ p_ same ▸ stale
  · intro y q q_ other before
    have same : gap c p q = gap c p p := by omega
    exact absurd (gap_injective p_ q_ p_ same) other

section

variable (erasing : Erasing c home slots S hole i e)

include erasing

theorem advance (e_ : e < c) (some_ : slots i ≠ none) :
    gap c hole ((i + 1) % c) = gap c hole i + 1 ∧ gap c ((i + 1) % c) e + 1 = gap c i e := by
  have apart : i ≠ e := fun same => some_ (same ▸ erasing.free)
  have closer := gap_of_next erasing.inside e_ apart
  have ahead := erasing.ahead
  have low := gap_lt (a := hole) (b := e) (Nat.zero_lt_of_lt e_)
  exact ⟨gap_next erasing.hole_ erasing.inside (by omega), closer⟩

/-- An element that a walk reaches before the hole stays. -/
theorem keep (e_ : e < c) (here : slots i = some y)
    (before : gap c (home y) i ≤ gap c (home y) hole) :
    Erasing c home slots S hole ((i + 1) % c) e ∧ gap c ((i + 1) % c) e + 1 = gap c i e := by
  have some_ : slots i ≠ none := by simp [here]
  have ⟨farther, closer⟩ := erasing.advance e_ some_
  have ahead := erasing.ahead
  have split_ {q : Nat} (q_ : q < c) (up : gap c hole q < gap c hole ((i + 1) % c)) :
      gap c hole q < gap c hole i ∨ q = i := by
    by_cases same : gap c hole q = gap c hole i
    · exact .inr (gap_injective erasing.hole_ q_ erasing.inside same)
    · exact .inl (by omega)
  refine ⟨{ erasing with
    inside := next_lt erasing.inside
    ahead := by omega
    apart := ?_
    occupied := fun q q_ up => ?_
    done := fun x q q_ other up there => ?_ }, closer⟩
  · intro same
    have self := gap_self erasing.hole_
    rw [← same] at farther
    omega
  · rcases split_ q_ up with low | rfl
    · exact erasing.occupied q q_ low
    · exact some_
  · rcases split_ q_ up with low | rfl
    · exact erasing.done x q q_ other low there
    · rw [here, Option.some.injEq] at there
      exact there ▸ before

/-- An element that a walk reaches after the hole moves into it. -/
theorem move (e_ : e < c) (home_ : home y < c) (here : slots i = some y)
    (after : gap c (home y) hole < gap c (home y) i) :
    Erasing c home (Function.update slots hole (some y)) S i ((i + 1) % c) e ∧
      gap c ((i + 1) % c) e + 1 = gap c i e := by
  have some_ : slots i ≠ none := by simp [here]
  have ⟨farther, closer⟩ := erasing.advance e_ some_
  have apartE : i ≠ e := fun same => some_ (same ▸ erasing.free)
  have inside := erasing.inside
  have selfI := gap_self inside
  have step := gap_next inside inside (by
    have := gap_pos inside e_ apartE
    have := gap_lt (a := i) (b := e) (Nat.zero_lt_of_lt e_)
    omega)
  have still {q : Nat} (other : q ≠ hole) : Function.update slots hole (some y) q = slots q :=
    Function.update_of_ne other ..
  have same_none {q : Nat} : slots q ≠ none → Function.update slots hole (some y) q ≠ none := by
    by_cases same : q = hole
    · simp [same]
    · rw [still same]
      exact id
  have only {q : Nat} (q_ : q < c) (up : gap c i q < gap c i ((i + 1) % c)) : q = i :=
    gap_injective inside q_ inside (by omega)
  -- What stands outside the new hole stood outside the old one.
  have came {x : α} {q : Nat} (other : q ≠ i) (there : Function.update slots hole (some y) q = some x) :
      q = hole ∧ x = y ∨ q ≠ hole ∧ slots q = some x := by
    by_cases same : q = hole
    · rw [same, Function.update_self, Option.some.injEq] at there
      exact .inl ⟨same, there.symm⟩
    · rw [still same] at there
      exact .inr ⟨same, there⟩
  refine ⟨⟨inside, next_lt inside, by omega, ?_, ?_, same_none some_, fun x => ?_, ?_, ?_, ?_, ?_⟩,
    closer⟩
  · intro same
    rw [← same] at step
    omega
  · rw [still fun same => erasing.stale (same ▸ erasing.free)]
    exact erasing.free
  · rw [erasing.mem]
    constructor
    · rintro ⟨q, q_, other, there⟩
      by_cases same : q = i
      · rw [same, here, Option.some.injEq] at there
        exact ⟨hole, erasing.hole_, erasing.apart, by rw [Function.update_self, there]⟩
      · exact ⟨q, q_, same, by rw [still other, there]⟩
    · rintro ⟨q, q_, other, there⟩
      rcases came other there with ⟨_, same⟩ | ⟨other', there⟩
      · exact ⟨i, inside, erasing.apart.symm, same ▸ here⟩
      · exact ⟨q, q_, other', there⟩
  · intro x q q_ otherQ r r_ otherR atQ atR
    have unique := erasing.unique x
    rcases came otherQ atQ with ⟨holeQ, sameQ⟩ | ⟨apartQ, oldQ⟩ <;>
      rcases came otherR atR with ⟨holeR, sameR⟩ | ⟨apartR, oldR⟩
    · exact holeQ.trans holeR.symm
    · exact absurd (unique r r_ apartR i inside erasing.apart.symm oldR (sameQ ▸ here)) otherR
    · exact absurd (unique q q_ apartQ i inside erasing.apart.symm oldQ (sameR ▸ here)) otherQ
    · exact unique q q_ apartQ r r_ apartR oldQ oldR
  · intro x q q_ other there r r_ before
    rcases came other there with ⟨rfl, rfl⟩ | ⟨other', old⟩
    · exact same_none (erasing.reach x i inside erasing.apart.symm here r r_ (before.trans after))
    · exact same_none (erasing.reach x q q_ other' old r r_ before)
  · intro q q_ up
    rw [only q_ up]
    exact same_none some_
  · exact fun x q q_ other up => absurd (only q_ up) other

/-- At a free slot the hole is freed. -/
theorem close (homes : ∀ x, home x < c) (free : slots i = none) :
    Holds c home (Function.update slots hole none) S := by
  have still {q : Nat} (other : q ≠ hole) : Function.update slots hole none q = slots q :=
    Function.update_of_ne other ..
  have came {x : α} {q : Nat} (there : Function.update slots hole none q = some x) :
      q ≠ hole ∧ slots q = some x := by
    have other : q ≠ hole := fun same => by simp [same] at there
    exact ⟨other, by rwa [still other] at there⟩
  refine ⟨fun x => ?_, ?_, ?_⟩
  · rw [erasing.mem]
    constructor
    · rintro ⟨q, q_, other, there⟩
      exact ⟨q, q_, by rw [still other, there]⟩
    · rintro ⟨q, q_, there⟩
      exact ⟨q, q_, came there⟩
  · exact fun x q q_ r r_ atQ atR =>
      erasing.unique x q q_ (came atQ).1 r r_ (came atR).1 (came atQ).2 (came atR).2
  · intro x q q_ there r r_ before
    have ⟨other, old⟩ := came there
    have reach := erasing.reach x q q_ other old
    -- A walk to `q` that met the hole would also meet the free slot, or ends before it.
    have missed : r ≠ hole := by
      rintro rfl
      have hole_ := erasing.hole_
      have inside := erasing.inside
      have home_ := homes x
      have notDone : ¬ gap c r q < gap c r i := fun low => by
        have := erasing.done x q q_ other low old
        omega
      have apart : q ≠ i := fun same => by simp [← same, old] at free
      have : gap c r q ≠ gap c r i := fun same => apart (gap_injective hole_ q_ inside same)
      have low : gap c (home x) i < gap c (home x) q := by
        have := gap_lt (a := home x) (b := q) (Nat.zero_lt_of_lt q_)
        have := gap_lt (a := r) (b := q) (Nat.zero_lt_of_lt q_)
        have := gap_add home_ hole_ q_
        have := gap_add home_ hole_ inside
        omega
      exact reach i inside low free
    rw [still missed]
    exact reach r r_ before

end

end Erasing

end PrimJs.OpenAddressing
