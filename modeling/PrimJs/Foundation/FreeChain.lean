import Mathlib.Data.List.GetD
import PrimJs.Foundation.Chain

/-! A table whose free slots are threaded by links from a current one, in which a slot that was never
used is not in the table yet. A slot that is in use has no link. -/

namespace PrimJs

def slotLink (slots : List (Option Nat)) (i : Nat) : Option Nat := slots[i]?.join

/-- The list is the free slots in the order of the links, which end where the table does. -/
structure FreeChain (slots : List (Option Nat)) (current : Nat) (free : List Nat) : Prop where
  chain : Chain slots.length (slotLink slots) current free
  members : ∀ i, i ∈ free ↔ ∃ next, slotLink slots i = some next

namespace FreeChain

variable {slots : List (Option Nat)} {i next current : Nat} {free : List Nat}

theorem slotLink_lt (link : slotLink slots i = some next) : i < slots.length := by
  by_contra outside
  rw [slotLink, List.getElem?_eq_none (Nat.le_of_not_lt outside)] at link
  cases link

theorem slotLink_append (inside : i < slots.length) (slot : Option Nat) :
    slotLink (slots ++ [slot]) i = slotLink slots i := by
  rw [slotLink, List.getElem?_append_left inside, slotLink]

theorem slotLink_concat (slots : List (Option Nat)) (slot : Option Nat) :
    slotLink (slots ++ [slot]) slots.length = slot := by
  rw [slotLink, List.getElem?_concat_length]
  rfl

theorem slotLink_set_self (inside : i < slots.length) (slot : Option Nat) :
    slotLink (slots.set i slot) i = slot := by
  rw [slotLink, List.getElem?_set_self inside]
  rfl

theorem slotLink_set_ne {j : Nat} (other : j ≠ i) (slot : Option Nat) :
    slotLink (slots.set i slot) j = slotLink slots j := by
  rw [slotLink, List.getElem?_set_ne other.symm, slotLink]

theorem set_same (link : slotLink slots i = some next) : slots.set i (some next) = slots := by
  have inside := slotLink_lt link
  rw [slotLink, List.getElem?_eq_getElem inside, Option.join_some] at link
  rw [← link, List.set_getElem_self]

theorem empty : FreeChain [] 0 [] where
  chain := .nil
  members i := by simp [slotLink]

section

variable (chain : FreeChain slots current free)

include chain

theorem nodup : free.Nodup := chain.chain.nodup

/-- The current slot is a free one, or the next that is not in the table. -/
theorem current_cases :
    (∃ next, slotLink slots current = some next) ∨ current = slots.length ∧ free = [] := by
  cases free with
  | nil => exact .inr ⟨Chain.nil_iff.mp chain.chain, rfl⟩
  | cons first rest =>
      have ⟨same, _, next, link, _⟩ := Chain.cons_iff.mp chain.chain
      rw [same]
      exact .inl ⟨next, link⟩

theorem current_le : current ≤ slots.length := by
  rcases chain.current_cases with ⟨_, link⟩ | ⟨same, _⟩
  · exact Nat.le_of_lt (slotLink_lt link)
  · exact Nat.le_of_eq same

end

theorem free_of_end (chain : FreeChain slots slots.length free) : free = [] :=
  chain.chain.unique .nil

theorem construct (chain : FreeChain slots slots.length free) :
    FreeChain (slots ++ [some (slots.length + 1)]) slots.length [slots.length] := by
  have none_ := chain.free_of_end
  refine ⟨?_, fun i => ?_⟩
  · rw [List.length_append, List.length_singleton]
    exact .cons (Nat.ne_of_lt (Nat.lt_succ_self _)) (slotLink_concat _ _) .nil
  · constructor
    · intro member
      rw [List.mem_singleton.mp member]
      exact ⟨_, slotLink_concat _ _⟩
    · intro ⟨next, link⟩
      by_cases inside : i < slots.length
      · rw [slotLink_append inside] at link
        have member := (chain.members i).mpr ⟨next, link⟩
        rw [none_] at member
        cases member
      · have bound := slotLink_lt link
        rw [List.length_append, List.length_singleton] at bound
        exact List.mem_singleton.mpr (by omega)

/-- The current slot comes into use. -/
theorem take (chain : FreeChain slots current free) (link : slotLink slots current = some next) :
    ∃ rest, free = current :: rest ∧ FreeChain (slots.set current none) next rest := by
  have inside := slotLink_lt link
  cases free with
  | nil =>
      have same := Chain.nil_iff.mp chain.chain
      omega
  | cons first rest =>
      have ⟨same, _, j, link', tail⟩ := Chain.cons_iff.mp chain.chain
      subst same
      have notRest := (List.nodup_cons.mp chain.nodup).1
      obtain rfl := Option.some.inj (link.symm.trans link')
      refine ⟨rest, rfl, ?_, fun i => ?_⟩
      · rw [List.length_set]
        refine tail.congr fun i member => slotLink_set_ne ?_ none
        exact fun same => notRest (by rwa [← same])
      · by_cases here : i = current
        · rw [here, slotLink_set_self inside]
          simpa using notRest
        · rw [slotLink_set_ne here, ← chain.members, List.mem_cons]
          simp [here]

/-- A slot that was in use becomes the current one. -/
theorem give (chain : FreeChain slots current free) (inside : i < slots.length)
    (used : slotLink slots i = none) : FreeChain (slots.set i (some current)) i (i :: free) := by
  have notFree : i ∉ free := by
    rw [chain.members, used]
    simp
  refine ⟨?_, fun j => ?_⟩
  · rw [List.length_set]
    refine .cons (Nat.ne_of_lt inside) (slotLink_set_self inside _) ?_
    refine chain.chain.congr fun j member => slotLink_set_ne ?_ _
    exact fun same => notFree (by rwa [← same])
  · by_cases here : j = i
    · rw [here, slotLink_set_self inside]
      simp
    · rw [slotLink_set_ne here, ← chain.members, List.mem_cons]
      simp [here]

end FreeChain

end PrimJs
