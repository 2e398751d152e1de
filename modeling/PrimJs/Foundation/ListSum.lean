import Mathlib.Tactic
import Mathlib.Algebra.BigOperators.Group.List.Basic
import Mathlib.Data.List.Perm.Basic

/-! Sums over the elements of a list, and what a change of one element does to them. -/

namespace PrimJs

variable {α : Type} {l : List α} {ls : List (List α)} {f : α → Nat} {a b : α} {i : Nat}

theorem sum_map_eraseIdx (slot : l[i]? = some a) :
    ((l.eraseIdx i).map f).sum + f a = (l.map f).sum := by
  have ⟨inside, same⟩ := List.getElem?_eq_some_iff.mp slot
  have perm := (List.getElem_cons_eraseIdx_perm inside).map f
  rw [← perm.sum_nat, same, List.map_cons, List.sum_cons, Nat.add_comm]

theorem sum_map_set (slot : l[i]? = some a) :
    ((l.set i b).map f).sum + f a = (l.map f).sum + f b := by
  have ⟨inside, _⟩ := List.getElem?_eq_some_iff.mp slot
  have perm := (List.set_perm_cons_eraseIdx inside b).map f
  have erased := sum_map_eraseIdx (f := f) slot
  rw [perm.sum_nat, List.map_cons, List.sum_cons]
  omega

theorem sum_map_flatten : (ls.flatten.map f).sum = (ls.map fun l => (l.map f).sum).sum := by
  rw [List.map_flatten, List.sum_flatten, List.map_map]
  rfl

theorem sum_map_flatten_set (l' : List α) (slot : ls[i]? = some l) :
    ((ls.set i l').flatten.map f).sum + (l.map f).sum = (ls.flatten.map f).sum + (l'.map f).sum := by
  rw [sum_map_flatten, sum_map_flatten]
  exact sum_map_set slot

end PrimJs
