import Mathlib.Tactic
import Mathlib.Data.List.Nodup
import Mathlib.Data.List.Perm.Subperm

/-! Singly linked lists threaded through a partial map of links. -/

namespace PrimJs

/-- The links that start at `i` lead through the elements of the list and then to `stop`. -/
inductive Chain {α : Type} (stop : α) (next : α → Option α) : α → List α → Prop
  | nil : Chain stop next stop []
  | cons {i j : α} {rest : List α} (some_ : i ≠ stop) (link : next i = some j)
      (tail : Chain stop next j rest) : Chain stop next i (i :: rest)

namespace Chain

variable {α : Type} {stop i j p : α} {next next' : α → Option α} {xs ys rest : List α}

theorem nil_iff : Chain stop next i [] ↔ i = stop := by
  constructor
  · intro chain
    cases chain
    rfl
  · intro same
    rw [same]
    exact .nil

theorem cons_iff : Chain stop next i (p :: rest) ↔
    i = p ∧ p ≠ stop ∧ ∃ j, next p = some j ∧ Chain stop next j rest := by
  constructor
  · intro chain
    cases chain with
    | cons some_ link tail => exact ⟨rfl, some_, _, link, tail⟩
  · intro ⟨same, some_, j, link, tail⟩
    rw [same]
    exact .cons some_ link tail

theorem unique (first : Chain stop next i xs) (second : Chain stop next i ys) : xs = ys := by
  induction first generalizing ys with
  | nil =>
      cases second with
      | nil => rfl
      | cons some_ _ _ => exact absurd rfl some_
  | cons some_ link tail ih =>
      cases second with
      | nil => exact absurd rfl some_
      | cons _ link' tail' =>
          have same := Option.some.inj (link.symm.trans link')
          rw [← same] at tail'
          rw [ih tail']

theorem stop_notMem (chain : Chain stop next i xs) : stop ∉ xs := by
  induction chain with
  | nil => exact List.not_mem_nil
  | cons some_ _ _ ih =>
      rw [List.mem_cons]
      exact not_or.mpr ⟨fun same => some_ same.symm, ih⟩

/-- The chain from any of its elements on. -/
theorem suffix (chain : Chain stop next i (xs ++ ys)) : ∃ j, Chain stop next j ys := by
  induction xs generalizing i with
  | nil => exact ⟨i, chain⟩
  | cons x xs ih =>
      have ⟨_, _, j, _, tail⟩ := cons_iff.mp chain
      exact ih tail

theorem exists_link (chain : Chain stop next i xs) (member : p ∈ xs) : ∃ j, next p = some j := by
  have ⟨before, after, split_⟩ := List.append_of_mem member
  rw [split_] at chain
  have ⟨_, tail⟩ := chain.suffix
  have ⟨_, _, j, link, _⟩ := cons_iff.mp tail
  exact ⟨j, link⟩

/-- A chain that came back to an element would never end. -/
theorem nodup (chain : Chain stop next i xs) : xs.Nodup := by
  induction chain with
  | nil => exact List.nodup_nil
  | @cons i j rest some_ link tail ih =>
      refine List.nodup_cons.mpr ⟨fun again => ?_, ih⟩
      have ⟨before, after, split_⟩ := List.append_of_mem again
      have whole : Chain stop next i (i :: rest) := .cons some_ link tail
      rw [split_] at tail
      have ⟨k, inner⟩ := tail.suffix
      have ⟨start, _⟩ := cons_iff.mp inner
      rw [start] at inner
      have same := congrArg List.length (whole.unique inner)
      rw [split_] at same
      simp only [List.length_cons, List.length_append] at same
      omega

theorem congr (chain : Chain stop next i xs) (same : ∀ p ∈ xs, next' p = next p) :
    Chain stop next' i xs := by
  induction chain with
  | nil => exact .nil
  | cons some_ link tail ih =>
      refine .cons some_ ?_ (ih fun p member => same p (List.mem_cons_of_mem _ member))
      rw [same _ List.mem_cons_self]
      exact link

/-- The first part of a chain is linked to whatever follows it now. -/
theorem append_congr (chain : Chain stop next i (xs ++ p :: ys)) (tail : Chain stop next' p (p :: rest))
    (same : ∀ q ∈ xs, next' q = next q) : Chain stop next' i (xs ++ p :: rest) := by
  induction xs generalizing i with
  | nil =>
      have ⟨start, _⟩ := cons_iff.mp chain
      rw [start]
      exact tail
  | cons x xs ih =>
      have ⟨start, some_, j, link, inner⟩ := cons_iff.mp chain
      rw [start]
      refine .cons some_ ?_ (ih inner fun q member => same q (List.mem_cons_of_mem _ member))
      rw [same x List.mem_cons_self]
      exact link

theorem unlink (chain : Chain stop next i (xs ++ p :: j :: ys)) (moved : next' p = next j)
    (same : ∀ q, q ≠ p → next' q = next q) : Chain stop next' i (xs ++ p :: ys) := by
  have distinct := chain.nodup
  have ⟨_, inner⟩ := chain.suffix
  have ⟨_, some_, k, toJ, fromJ⟩ := cons_iff.mp inner
  have ⟨_, _, m, link, tail⟩ := cons_iff.mp fromJ
  have ⟨_, parts, apart⟩ := List.nodup_append.mp distinct
  have ⟨notLater, _⟩ := List.nodup_cons.mp parts
  refine chain.append_congr (.cons some_ (moved.trans link) (tail.congr fun q member => ?_))
    fun q member => ?_
  · exact same q fun again => notLater (by rw [← again]; exact List.mem_cons_of_mem _ member)
  · exact same q (apart q member p List.mem_cons_self)

theorem length_le (chain : Chain stop next i xs) (bound : List α) (inside : ∀ p ∈ xs, p ∈ bound) :
    xs.length ≤ bound.length :=
  (List.subperm_of_subset chain.nodup inside).length_le

end Chain

end PrimJs
