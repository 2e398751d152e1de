import Mathlib.Data.Set.Card
import Mathlib.Order.Interval.Finset.Nat
import PrimJs.Foundation.Intervals

/-! How many points lists of intervals have. -/

namespace PrimJs

def Apart (xs : List Interval) : Prop := xs.Pairwise fun x y => Disjoint x.points y.points

variable {xs ys : List Interval} {x : Interval} {a n p : Nat}

theorem mem_covers_iff : p ∈ covers xs ↔ ∃ x ∈ xs, p ∈ x.points := Iff.rfl

theorem Separated.apart (separated : Separated xs) : Apart xs := by
  refine List.Pairwise.imp (fun {x y} below => ?_) separated
  rw [Set.disjoint_left]
  intro p ⟨_, high⟩ ⟨low, _⟩
  omega

/-- A point next to an interval of a separated list is in no other. -/
theorem Separated.eq_of_near {y : Interval} (separated : Separated xs) (first : x ∈ xs)
    (second : y ∈ xs) (low : x.start ≤ p + 1) (high : p ≤ x.stop) (inside : p ∈ y.points) :
    x = y := by
  have ⟨low', high'⟩ := inside
  have either : xs.Pairwise fun x y => x.stop < y.start ∨ y.stop < x.start :=
    List.Pairwise.imp (fun below => .inl below) separated
  have : Std.Symm fun x y : Interval => x.stop < y.start ∨ y.stop < x.start :=
    ⟨fun _ _ => Or.symm⟩
  by_contra other
  rcases either.forall first second other with below | above
  · omega
  · omega

theorem covers_finite (xs : List Interval) : (covers xs).Finite := by
  induction xs with
  | nil =>
      rw [covers_nil]
      exact Set.finite_empty
  | cons x xs ih =>
      rw [covers_cons]
      exact (Set.finite_Ico _ _).union ih

theorem apart_cons : Apart (x :: xs) ↔ Disjoint x.points (covers xs) ∧ Apart xs := by
  unfold Apart
  rw [List.pairwise_cons]
  refine and_congr_left fun _ => ⟨fun apart => ?_, fun apart y member => ?_⟩
  · refine Set.disjoint_left.mpr fun p inside covered => ?_
    have ⟨y, member, inside'⟩ := mem_covers_iff.mp covered
    exact Set.disjoint_left.mp (apart y member) inside inside'
  · refine Set.disjoint_left.mpr fun p inside inside' => ?_
    have covered : p ∈ covers xs := ⟨y, member, inside'⟩
    exact Set.disjoint_left.mp apart inside covered

theorem Apart.perm (apart : Apart xs) (same : xs.Perm ys) : Apart ys :=
  (same.pairwise_iff fun {_ _} apart => apart.symm).mp apart

theorem covers_perm (same : xs.Perm ys) : covers xs = covers ys := by
  ext p
  rw [mem_covers_iff, mem_covers_iff]
  exact exists_congr fun x => and_congr_left fun _ => same.mem_iff

theorem totalSize_perm (same : xs.Perm ys) : totalSize xs = totalSize ys :=
  (same.map Interval.size).sum_nat

theorem ncard_filter_Ico (f : Nat → Bool) (a n : Nat) :
    {p | p ∈ Set.Ico a (a + n) ∧ f p = true}.ncard = (List.range' a n).countP f := by
  have same : {p | p ∈ Set.Ico a (a + n) ∧ f p = true} =
      ↑((List.range' a n).filter f).toFinset := by
    ext p
    simp only [Set.mem_ofPred_eq, Set.mem_Ico, List.coe_toFinset, List.mem_filter,
      List.mem_range'_1]
  have nodup : ((List.range' a n).filter f).Nodup := List.Nodup.filter _ List.nodup_range'
  rw [same, Set.ncard_coe_finset, List.toFinset_card_of_nodup nodup, List.countP_eq_length_filter]

end PrimJs
