import Mathlib.Tactic
import Mathlib.Data.List.Nodup
import Mathlib.Logic.Function.Basic

/-! Doubly linked lists: what an insertion and a removal do to the links. -/

namespace PrimJs

variable {α : Type}

/-- The links lead forth and back through the elements of the list, which stands between `before` and
`after`. -/
def Linked (next prev : α → Option α) : Option α → List α → Option α → Prop
  | _, [], _ => True
  | before, x :: xs, after =>
      prev x = before ∧ next x = xs.head?.or after ∧ Linked next prev (some x) xs after

namespace Linked

variable {next prev next' prev' : α → Option α} {before after : Option α} {xs ys : List α} {x n : α}

theorem append_iff : Linked next prev before (xs ++ ys) after ↔
    Linked next prev before xs (ys.head?.or after) ∧
      Linked next prev (xs.getLast?.or before) ys after := by
  induction xs generalizing before with
  | nil => exact ⟨fun linked => ⟨trivial, linked⟩, fun both => both.2⟩
  | cons x xs ih =>
      have last : (x :: xs).getLast?.or before = xs.getLast?.or (some x) := by
        rw [List.getLast?_cons]
        cases xs.getLast? <;> rfl
      rw [List.cons_append, Linked, Linked, ih, List.head?_append, Option.or_assoc, last]
      tauto

theorem congr (linked : Linked next prev before xs after)
    (same : ∀ x ∈ xs, next' x = next x ∧ prev' x = prev x) : Linked next' prev' before xs after := by
  induction xs generalizing before with
  | nil => trivial
  | cons x xs ih =>
      have ⟨back, forth, rest⟩ := linked
      have ⟨sameNext, samePrev⟩ := same x List.mem_cons_self
      exact ⟨samePrev.trans back, sameNext.trans forth,
        ih rest fun y member => same y (List.mem_cons_of_mem _ member)⟩

/-- The links of a node of a list. -/
theorem links (linked : Linked next prev none (xs ++ n :: ys) none) :
    prev n = xs.getLast? ∧ next n = ys.head? := by
  have ⟨_, back, forth, _⟩ := append_iff.mp linked
  rw [Option.or_none] at back forth
  exact ⟨back, forth⟩

section Links

variable [DecidableEq α]

def setLink (links : α → Option α) : Option α → Option α → α → Option α
  | none, _ => links
  | some x, target => Function.update links x target

theorem setLink_self (links : α → Option α) (x : α) (target : Option α) :
    setLink links (some x) target x = target := Function.update_self ..

theorem setLink_of_ne {links : α → Option α} {o target : Option α} (other : o ≠ some x) :
    setLink links o target x = links x := by
  cases o with
  | none => rfl
  | some y => exact Function.update_of_ne (fun same => other (by rw [same])) _ _

section

variable (linked : Linked next prev before xs after) (nodup : xs.Nodup) (target : Option α)

include linked nodup

/-- What stands after a list is the link of its last node. -/
theorem setAfter : Linked (setLink next xs.getLast? target) prev before xs target := by
  induction xs generalizing before with
  | nil => trivial
  | cons x xs ih =>
      have ⟨back, forth, rest⟩ := linked
      have ⟨fresh, nodupRest⟩ := List.nodup_cons.mp nodup
      cases xs with
      | nil => exact ⟨back, Function.update_self .., trivial⟩
      | cons y xs =>
          have last : (x :: y :: xs).getLast? = (y :: xs).getLast? := List.getLast?_cons_cons
          have other : (y :: xs).getLast? ≠ some x := fun same => fresh (List.mem_of_getLast? same)
          rw [last]
          exact ⟨back, (setLink_of_ne other).trans forth, ih rest nodupRest⟩

theorem setBefore : Linked next (setLink prev xs.head? target) target xs after := by
  cases xs with
  | nil => trivial
  | cons x xs =>
      have ⟨_, forth, rest⟩ := linked
      have ⟨fresh, _⟩ := List.nodup_cons.mp nodup
      refine ⟨Function.update_self .., forth, rest.congr fun y member => ⟨rfl, ?_⟩⟩
      have other : y ≠ x := fun same => fresh (by rwa [same] at member)
      exact Function.update_of_ne other _ _

end

/-- A node is put between two parts of a list. -/
theorem insert (linked : Linked next prev none (xs ++ ys) none) (nodup : (xs ++ ys).Nodup)
    (fresh : n ∉ xs ++ ys) :
    Linked (setLink (Function.update next n ys.head?) xs.getLast? (some n))
      (setLink (Function.update prev n xs.getLast?) ys.head? (some n)) none (xs ++ n :: ys) none := by
  have ⟨first, second⟩ := append_iff.mp linked
  have ⟨nodupX, nodupY, apart⟩ := List.nodup_append.mp nodup
  rw [List.mem_append, not_or] at fresh
  rw [Option.or_none] at second
  have freshX : ∀ x ∈ xs, x ≠ n := fun x member same => fresh.1 (same ▸ member)
  have freshY : ∀ y ∈ ys, y ≠ n := fun y member same => fresh.2 (same ▸ member)
  have notLast : xs.getLast? ≠ some n := fun same => fresh.1 (List.mem_of_getLast? same)
  have notHead : ys.head? ≠ some n := fun same => fresh.2 (List.mem_of_head? same)
  rw [append_iff, List.head?_cons, Option.some_or, Option.or_none]
  refine ⟨?_, ?_, ?_, ?_⟩
  · refine (first.setAfter nodupX (some n)).congr fun x member => ⟨?_, ?_⟩
    · by_cases last : xs.getLast? = some x
      · rw [last]
        rw [setLink_self, setLink_self]
      · rw [setLink_of_ne last, setLink_of_ne last, Function.update_of_ne (freshX x member)]
    · rw [setLink_of_ne, Function.update_of_ne (freshX x member)]
      exact fun same => apart x member x (List.mem_of_head? same) rfl
  · rw [setLink_of_ne notHead, Function.update_self]
  · rw [setLink_of_ne notLast, Function.update_self, Option.or_none]
  · refine (second.setBefore nodupY (some n)).congr fun y member => ⟨?_, ?_⟩
    · rw [setLink_of_ne, Function.update_of_ne (freshY y member)]
      exact fun same => apart y (List.mem_of_getLast? same) y member rfl
    · by_cases head : ys.head? = some y
      · rw [head]
        rw [setLink_self, setLink_self]
      · rw [setLink_of_ne head, setLink_of_ne head, Function.update_of_ne (freshY y member)]

/-- A node is taken out. -/
theorem remove (linked : Linked next prev none (xs ++ n :: ys) none) (nodup : (xs ++ n :: ys).Nodup) :
    Linked (Function.update (setLink next xs.getLast? ys.head?) n none)
      (Function.update (setLink prev ys.head? xs.getLast?) n none) none (xs ++ ys) none := by
  have ⟨first, _, _, second⟩ := append_iff.mp linked
  have ⟨nodupX, nodupN, apart⟩ := List.nodup_append.mp nodup
  have ⟨freshY, nodupY⟩ := List.nodup_cons.mp nodupN
  have neX : ∀ x ∈ xs, x ≠ n := fun x member => apart x member n List.mem_cons_self
  have neY : ∀ y ∈ ys, y ≠ n := fun y member same => freshY (same ▸ member)
  rw [append_iff, Option.or_none, Option.or_none]
  refine ⟨(first.setAfter nodupX ys.head?).congr fun x member => ⟨?_, ?_⟩,
    (second.setBefore nodupY xs.getLast?).congr fun y member => ⟨?_, ?_⟩⟩
  · exact Function.update_of_ne (neX x member) _ _
  · rw [Function.update_of_ne (neX x member), setLink_of_ne]
    exact fun same => apart x member x (List.mem_cons_of_mem _ (List.mem_of_head? same)) rfl
  · rw [Function.update_of_ne (neY y member), setLink_of_ne]
    exact fun same => apart y (List.mem_of_getLast? same) y (List.mem_cons_of_mem _ member) rfl
  · exact Function.update_of_ne (neY y member) _ _

end Links

end Linked

end PrimJs
