import Mathlib.Tactic
import Mathlib.Order.CompletePartialOrder
import Mathlib.Data.List.Pairwise
import Mathlib.Order.Interval.Set.Basic

/-! Lists of intervals of natural numbers that neither overlap nor touch. -/

namespace PrimJs

structure Interval where
  start : Nat
  size : Nat
  deriving DecidableEq, Repr

namespace Interval

def stop (x : Interval) : Nat := x.start + x.size

def points (x : Interval) : Set Nat := Set.Ico x.start x.stop

end Interval

def covers (xs : List Interval) : Set Nat := {p | ∃ x ∈ xs, p ∈ x.points}

def Separated (xs : List Interval) : Prop := xs.Pairwise fun x y => x.stop < y.start

def totalSize (xs : List Interval) : Nat := (xs.map Interval.size).sum

variable {xs ys old new : List Interval} {x z : Interval} {a s p : Nat}

theorem mem_points : p ∈ x.points ↔ x.start ≤ p ∧ p < x.stop := Iff.rfl

theorem mem_covers : p ∈ covers xs ↔ ∃ x ∈ xs, x.start ≤ p ∧ p < x.stop := Iff.rfl

@[simp] theorem covers_nil : covers [] = ∅ := by
  ext p
  simp [mem_covers]

theorem covers_append : covers (xs ++ ys) = covers xs ∪ covers ys := by
  ext p
  simp [mem_covers, or_and_right, exists_or]

theorem covers_cons : covers (x :: xs) = x.points ∪ covers xs := by
  ext p
  simp [mem_covers, mem_points]

theorem separated_append : Separated (xs ++ ys) ↔
    Separated xs ∧ Separated ys ∧ ∀ x ∈ xs, ∀ y ∈ ys, x.stop < y.start :=
  List.pairwise_append

theorem separated_cons : Separated (x :: xs) ↔ (∀ y ∈ xs, x.stop < y.start) ∧ Separated xs :=
  List.pairwise_cons

theorem totalSize_append : totalSize (xs ++ ys) = totalSize xs + totalSize ys := by
  simp [totalSize]

theorem totalSize_cons : totalSize (x :: xs) = x.size + totalSize xs := by
  simp [totalSize]

/-- `new` is `old` with `[a, a + s)` added: it is joined with the interval that ends at its start,
if there is one, and with the interval that starts at its end, if there is one. -/
structure Joined (a s : Nat) (old new xs : List Interval) (l : List Interval) (z : Interval)
    (r ys : List Interval) : Prop where
  before : old = xs ++ (l ++ (r ++ ys))
  after : new = xs ++ z :: ys
  left : l = [] ∧ z.start = a ∨ ∃ x, l = [x] ∧ x.stop = a ∧ z.start = x.start
  right : r = [] ∧ z.stop = a + s ∨ ∃ y, r = [y] ∧ y.start = a + s ∧ z.stop = y.stop
  low : ∀ x ∈ xs, x.stop < a
  high : ∀ y ∈ ys, a + s < y.start

namespace Joined

variable {l r : List Interval} (joined : Joined a s old new xs l z r ys)

include joined

theorem separated (apart : Separated old) : Separated new := by
  rw [joined.before, separated_append, separated_append, separated_append] at apart
  have ⟨first, ⟨_, ⟨_, last, fourth⟩, third⟩, second⟩ := apart
  rw [joined.after, separated_append, separated_cons]
  refine ⟨first, ⟨fun y member => ?_, last⟩, fun x member y later => ?_⟩
  · rcases joined.right with ⟨_, stop⟩ | ⟨y', single, _, stop⟩
    · rw [stop]
      exact joined.high y member
    · rw [stop]
      exact fourth y' (by simp [single]) y member
  · rcases List.mem_cons.mp later with same | member'
    · subst same
      rcases joined.left with ⟨_, start⟩ | ⟨x', single, _, start⟩
      · rw [start]
        exact joined.low x member
      · rw [start]
        exact second x member x' (by simp [single])
    · exact second x member y (by simp [member'])

theorem size_eq : z.size = totalSize l + s + totalSize r := by
  have left : z.start + totalSize l = a := by
    rcases joined.left with ⟨none, start⟩ | ⟨x, single, stop, start⟩
    · simp [none, start, totalSize]
    · simp only [single, start, totalSize_cons]
      unfold Interval.stop at stop
      simpa [totalSize] using stop
  have right : z.stop = a + s + totalSize r := by
    rcases joined.right with ⟨none, stop⟩ | ⟨y, single, start, stop⟩
    · simp [none, stop, totalSize]
    · simp only [single, stop, totalSize_cons, ← start]
      simp [Interval.stop, totalSize]
  unfold Interval.stop at right
  omega

theorem totalSize_eq : totalSize new = totalSize old + s := by
  have size := joined.size_eq
  rw [joined.before, joined.after]
  simp only [totalSize_append, totalSize_cons]
  omega

theorem covers_eq : covers new = covers old ∪ Set.Ico a (a + s) := by
  have points : z.points = covers l ∪ (Set.Ico a (a + s) ∪ covers r) := by
    ext p
    have size := joined.size_eq
    simp only [mem_points, Set.mem_union, Set.mem_Ico, mem_covers]
    rcases joined.left with ⟨noLeft, start⟩ | ⟨x, left, stop, start⟩ <;>
      rcases joined.right with ⟨noRight, stop'⟩ | ⟨y, right, start', stop'⟩ <;>
      simp only [*, List.mem_singleton, exists_eq_left, List.not_mem_nil, false_and,
        exists_false, or_false, false_or] <;>
      unfold Interval.stop at * <;>
      omega
  rw [joined.before, joined.after]
  simp only [covers_append, covers_cons, points]
  ext p
  simp only [Set.mem_union]
  tauto

theorem disjoint (inside : p ∈ Set.Ico a (a + s)) : p ∉ covers old := by
  have ⟨low, high⟩ := inside
  rw [joined.before]
  simp only [covers_append, Set.mem_union, not_or]
  refine ⟨?_, ?_, ?_, ?_⟩
  · intro ⟨x, member, _, below⟩
    have apart := joined.low x member
    omega
  · intro ⟨x, member, _, below⟩
    rcases joined.left with ⟨none, _⟩ | ⟨x', single, stop, _⟩
    · simp [none] at member
    · simp only [single, List.mem_singleton] at member
      rw [member] at below
      omega
  · intro ⟨y, member, above, _⟩
    rcases joined.right with ⟨none, _⟩ | ⟨y', single, start, _⟩
    · simp [none] at member
    · simp only [single, List.mem_singleton] at member
      rw [member] at above
      omega
  · intro ⟨y, member, above, _⟩
    have apart := joined.high y member
    omega

end Joined

/-- `new` is `old` without the first `s` points of its interval at `a`. -/
structure Taken (a s : Nat) (old new xs : List Interval) (x : Interval) (ys : List Interval) :
    Prop where
  before : old = xs ++ x :: ys
  after : new = xs ++ ((if x.size = s then [] else [⟨a + s, x.size - s⟩]) ++ ys)
  start : x.start = a
  enough : s ≤ x.size

namespace Taken

variable (taken : Taken a s old new xs x ys)

include taken

theorem separated (apart : Separated old) : Separated new := by
  rw [taken.before, separated_append, separated_cons] at apart
  have ⟨first, ⟨above, last⟩, below⟩ := apart
  have enough := taken.enough
  have start := taken.start
  rw [taken.after, separated_append, separated_append]
  unfold Interval.stop at *
  split
  · exact ⟨first, ⟨List.Pairwise.nil, last, by simp⟩, fun y member z later =>
      below y member z (by simpa using Or.inr later)⟩
  · refine ⟨first, ⟨List.pairwise_singleton _ _, last, fun y member z later => ?_⟩,
      fun y member z later => ?_⟩
    · have apart := above z later
      rw [List.mem_singleton.mp member]
      dsimp only
      omega
    · rcases List.mem_append.mp later with here | there
      · have apart := below y member x (by simp)
        rw [List.mem_singleton.mp here]
        dsimp only
        omega
      · exact below y member z (by simp [there])

theorem totalSize_eq : totalSize new + s = totalSize old := by
  have enough := taken.enough
  rw [taken.before, taken.after]
  split
  · simp only [totalSize_append, totalSize_cons]
    simp only [totalSize, List.map_nil, List.sum_nil]
    omega
  · simp only [totalSize_append, totalSize_cons]
    simp only [totalSize, List.map_nil, List.sum_nil]
    omega

theorem covers_eq (apart : Separated old) : covers new = covers old \ Set.Ico a (a + s) := by
  rw [taken.before, separated_append, separated_cons] at apart
  have ⟨_, ⟨above, _⟩, below⟩ := apart
  have enough := taken.enough
  have start := taken.start
  have outsideLeft : ∀ p ∈ covers xs, p ∉ Set.Ico a (a + s) := by
    intro p ⟨y, member, _, high⟩ ⟨low, _⟩
    have apart := below y member x (by simp)
    omega
  have outsideRight : ∀ p ∈ covers ys, p ∉ Set.Ico a (a + s) := by
    intro p ⟨y, member, low, _⟩ ⟨_, high⟩
    have apart := above y member
    unfold Interval.stop at apart
    omega
  have rest : covers (if x.size = s then [] else [⟨a + s, x.size - s⟩]) =
      x.points \ Set.Ico a (a + s) := by
    ext p
    split
    · simp only [mem_covers, mem_points, Set.mem_sdiff, Set.mem_Ico, List.not_mem_nil, false_and,
        exists_false, false_iff]
      unfold Interval.stop
      omega
    · simp only [mem_covers, mem_points, Set.mem_sdiff, Set.mem_Ico, List.mem_singleton,
        exists_eq_left, Interval.stop]
      omega
  rw [taken.before, taken.after]
  simp only [covers_append, covers_cons, rest]
  ext p
  have left := outsideLeft p
  have right := outsideRight p
  simp only [Set.mem_union, Set.mem_sdiff]
  tauto

theorem subset : Set.Ico a (a + s) ⊆ covers old := by
  intro p ⟨low, high⟩
  have enough := taken.enough
  have start := taken.start
  rw [taken.before]
  exact ⟨x, by simp, by omega, by unfold Interval.stop; omega⟩

end Taken

theorem covers_disjoint_of_perm {kept removed : List Interval} (apart : Separated xs)
    (same : (kept ++ removed).Perm xs) : covers kept = covers xs \ covers removed := by
  have pairs : (kept ++ removed).Pairwise fun x y => x.stop < y.start ∨ y.stop < x.start := by
    refine (same.pairwise_iff fun {x y} => Or.symm).mpr ?_
    exact apart.imp fun less => .inl less
  rw [List.pairwise_append] at pairs
  have ⟨_, _, across⟩ := pairs
  ext p
  constructor
  · intro ⟨x, member, low, high⟩
    refine ⟨⟨x, same.subset (by simp [member]), low, high⟩, fun ⟨y, removedY, low', high'⟩ => ?_⟩
    rcases across x member y removedY with before | after <;> omega
  · intro ⟨⟨x, member, low, high⟩, notRemoved⟩
    rcases List.mem_append.mp (same.symm.subset member) with inKept | inRemoved
    · exact ⟨x, inKept, low, high⟩
    · exact (notRemoved ⟨x, inRemoved, low, high⟩).elim

end PrimJs
