import Mathlib
import PrimJs.Foundation.ListSum

/-! Finite maps whose values have a size: the size of the whole map under insertion and
removal of a key. -/

namespace PrimJs

section

variable {α β : Type} (w : β → Nat)

def mapSize (m : AList fun _ : α => β) : Nat := (m.entries.map fun e => w e.2).sum

variable {w} {m m' : AList fun _ : α => β} {a : α} {b : β}

theorem mapSize_perm (same : m.entries.Perm m'.entries) : mapSize w m = mapSize w m' := by
  unfold mapSize
  exact (same.map _).sum_nat

variable [DecidableEq α]

theorem mapSize_erase (found : m.lookup a = some b) :
    mapSize w (m.erase a) + w b = mapSize w m := by
  have present : a ∈ m.entries.keys := by
    apply AList.mem_keys.mp
    rw [← AList.lookup_isSome, found]
    rfl
  have ⟨b', before, after, fresh, split, erased⟩ := List.exists_of_kerase present
  have same : b' = b := by
    have here : m.entries.dlookup a = some b' := by
      rw [split]
      apply List.mem_dlookup
      · rw [← split]
        exact m.nodupKeys
      · simp
    exact Option.some.inj (here.symm.trans found)
  change (((m.entries.kerase a).map fun e => w e.2).sum) + w b =
    (m.entries.map fun e => w e.2).sum
  rw [erased, split, same]
  simp only [List.map_append, List.sum_append, List.map_cons, List.sum_cons]
  omega

theorem mapSize_erase_absent (absent : m.lookup a = none) :
    mapSize w (m.erase a) = mapSize w m := by
  have fresh : a ∉ m.entries.keys := AList.lookup_eq_none.mp absent
  have same : m.entries.kerase a = m.entries := List.kerase_of_notMem_keys fresh
  simp only [mapSize, AList.erase, same]

theorem mapSize_insert : mapSize w (m.insert a b) = w b + mapSize w (m.erase a) := by
  simp only [mapSize, AList.entries_insert, List.map_cons, List.sum_cons]
  rfl

theorem size_le_mapSize (found : m.lookup a = some b) : w b ≤ mapSize w m := by
  have split := mapSize_erase found (w := w)
  omega

/-- Maps that agree on every key have one size. -/
theorem mapSize_congr (same : ∀ a, m.lookup a = m'.lookup a) :
    mapSize w m = mapSize w m' := by
  apply mapSize_perm
  exact List.lookup_ext m.nodupKeys m'.nodupKeys fun a b => by
    change b ∈ m.lookup a ↔ b ∈ m'.lookup a
    rw [same]

theorem lookup_erase_eq (a c : α) : (m.erase a).lookup c = if c = a then none else m.lookup c := by
  by_cases same : c = a
  · rw [if_pos same, same, AList.lookup_erase]
  · rw [if_neg same, AList.lookup_erase_ne same]

theorem lookup_insert_eq (a c : α) (b : β) :
    (m.insert a b).lookup c = if c = a then some b else m.lookup c := by
  by_cases same : c = a
  · rw [if_pos same, same, AList.lookup_insert]
  · rw [if_neg same, AList.lookup_insert_ne same]

end

end PrimJs
