import Mathlib.Tactic
import Mathlib.Data.List.Nodup

/-! Lists of key and value pairs in which every key occurs once. -/

namespace PrimJs.KeyedList

variable {κ ν : Type} [BEq κ] [LawfulBEq κ] {entries : List (κ × ν)} {k : κ} {v : ν}

theorem mem_of_lookup (found : entries.lookup k = some v) : (k, v) ∈ entries := by
  induction entries with
  | nil => cases found
  | cons entry rest ih =>
      obtain ⟨key, value⟩ := entry
      rw [List.lookup_cons] at found
      by_cases same : k = key
      · have value_ : value = v := by simpa [same] using found
        rw [same, value_]
        exact List.mem_cons_self
      · have later : rest.lookup k = some v := by
          have differ : (k == key) = false := beq_eq_false_iff_ne.mpr same
          simpa [differ] using found
        exact List.mem_cons_of_mem _ (ih later)

theorem lookup_of_mem (distinct : (entries.map Prod.fst).Nodup) (member : (k, v) ∈ entries) :
    entries.lookup k = some v := by
  induction entries with
  | nil => cases member
  | cons entry rest ih =>
      obtain ⟨key, value⟩ := entry
      rw [List.map_cons, List.nodup_cons] at distinct
      rw [List.lookup_cons]
      rcases List.mem_cons.mp member with same | inRest
      · obtain ⟨rfl, rfl⟩ := Prod.mk.inj same
        rw [beq_self_eq_true]
      · have differ : (k == key) = false := by
          refine beq_eq_false_iff_ne.mpr fun same => distinct.1 ?_
          exact List.mem_map.mpr ⟨(k, v), inRest, same⟩
        rw [differ]
        exact ih distinct.2 inRest

theorem notMem_keys_of_lookup (missing : entries.lookup k = none)
    (distinct : (entries.map Prod.fst).Nodup) : k ∉ entries.map Prod.fst := by
  intro member
  obtain ⟨⟨key, value⟩, inEntries, rfl⟩ := List.mem_map.mp member
  rw [lookup_of_mem distinct inEntries] at missing
  cases missing

theorem nodup_append_entry (distinct : (entries.map Prod.fst).Nodup)
    (missing : entries.lookup k = none) : ((entries ++ [(k, v)]).map Prod.fst).Nodup := by
  rw [List.map_append, List.nodup_append]
  refine ⟨distinct, List.nodup_singleton _, fun key member last lastMember same => ?_⟩
  rw [List.map_singleton, List.mem_singleton] at lastMember
  rw [same, lastMember] at member
  exact notMem_keys_of_lookup missing distinct member

omit [BEq κ] [LawfulBEq κ] in
theorem nodup_filter (distinct : (entries.map Prod.fst).Nodup) (keep : κ × ν → Bool) :
    ((entries.filter keep).map Prod.fst).Nodup :=
  distinct.sublist (List.Sublist.map _ List.filter_sublist)

end PrimJs.KeyedList
