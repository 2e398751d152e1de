import Mathlib.Data.Finset.Option
import PrimJs.Foundation.OperationRun
import PrimJs.Gc.PointerSet

/-! The pointer set as a finite set: what each operation does to the pointers in the table, and runs
of operations. -/

namespace PrimJs.PointerSet

open OpenAddressing

variable {c : Nat} {s : PointerSet} {S : Finset Pointer} {slots : Nat → Option Pointer}
  {ptr : Pointer} {memory : Nat → Bool} {e i p hole fuel : Nat}

def Sized (c : Nat) : Prop := ∃ k, 6 ≤ k ∧ k ≤ 60 ∧ c = 2 ^ k

def members (s : PointerSet) : Finset Pointer := (entries s.slots s.capacity).toFinset

/-- The table holds the pointers `S` and is at most half full. -/
structure Inv (s : PointerSet) (S : Finset Pointer) : Prop where
  size : s.size = S.card
  load : 2 * s.size ≤ s.capacity
  sized : s.capacity = 0 ∨ Sized s.capacity
  holds : Holds s.capacity (home s.capacity) s.slots S

/-- An operation returns as `post` says, or ends at a table there is no memory for. -/
def Ends {β : Type} (memory : Nat → Bool) (outcome : Except Stop β) (post : β → Prop) : Prop :=
  match outcome with
  | .ok result => post result
  | .error (.badAlloc capacity) => granted memory capacity = false
  | .error .endless => False

theorem Ends.bind {β γ : Type} {first : Except Stop β} {after : β → Except Stop γ}
    {mid : β → Prop} {post : γ → Prop} (ends : Ends memory first mid)
    (rest : ∀ result, mid result → Ends memory (after result) post) :
    Ends memory (first >>= after) post := by
  rcases first with (_ | capacity) | result
  · exact ends
  · exact ends
  · exact rest result ends

theorem Ends.mono {β : Type} {outcome : Except Stop β} {post post' : β → Prop}
    (ends : Ends memory outcome post) (weaker : ∀ result, post result → post' result) :
    Ends memory outcome post' := by
  rcases outcome with (_ | capacity) | result
  · exact ends
  · exact ends
  · exact weaker result ends

namespace Sized

variable (sized : Sized c)

include sized

theorem pos : 0 < c := by
  have ⟨k, _, _, power⟩ := sized
  exact power ▸ Nat.two_pow_pos k

theorem mask (n : Nat) : n &&& (c - 1) = n % c := by
  have ⟨k, _, _, power⟩ := sized
  rw [power, Nat.and_two_pow_sub_one_eq_mod]

theorem home_lt (ptr : Pointer) : home c ptr < c := by
  rw [home, sized.mask]
  exact Nat.mod_lt _ sized.pos

theorem mask_subSize {a b : Nat} (a_ : a < c) : subSize b a &&& (c - 1) = gap c a b := by
  have ⟨k, _, high, power⟩ := sized
  have whole : 2 ^ 64 = c * 2 ^ (64 - k) := by
    rw [power, ← pow_add, Nat.add_sub_cancel' (by omega)]
  have some_ := Nat.two_pow_pos (64 - k)
  have sum : b + c * 2 ^ (64 - k) - a = b + c - a + c * (2 ^ (64 - k) - 1) := by
    have split_ : c * 2 ^ (64 - k) = c * (2 ^ (64 - k) - 1) + c := by
      conv_lhs => rw [← Nat.sub_add_cancel some_, Nat.mul_add_one]
    omega
  rw [sized.mask, subSize, gap, Nat.mod_mod_of_dvd _ (whole ▸ Nat.dvd_mul_right ..), whole, sum,
    Nat.add_mul_mod_self_left]

end Sized

/-- The search finds the pointer or, when it is not in the table, the free slot for it. -/
theorem findSlotFrom_spec (sized : Sized c) (holds : Holds c (home c) slots S) (e_ : e < c)
    (free : slots e = none) (probing : Probing c slots ptr (home c ptr) e i)
    (enough : gap c i e < fuel) :
    ∃ p, findSlotFrom slots c ptr fuel i = .ok p ∧ p < c ∧ Reaches c slots (home c ptr) p ∧
      (slots p = some ptr ∧ ptr ∈ S ∨ slots p = none ∧ ptr ∉ S) := by
  have home_ := sized.home_lt ptr
  induction fuel generalizing i with
  | zero => exact absurd enough (Nat.not_lt_zero _)
  | succ fuel ih =>
      rw [findSlotFrom]
      by_cases stop : slots i = none ∨ slots i = some ptr
      · rw [if_pos stop]
        have inside := probing.inside
        refine ⟨i, rfl, inside, probing.reaches, ?_⟩
        rcases stop with none_ | here
        · exact .inr ⟨none_, holds.notMem_of_probing home_ probing none_⟩
        · exact .inl ⟨here, (holds.mem ptr).mpr ⟨i, inside, here⟩⟩
      · rw [if_neg stop, sized.mask]
        have ⟨some_, other⟩ := not_or.mp stop
        have ⟨probing', closer⟩ := probing.next home_ e_ free some_ other
        exact ih probing' (by omega)

theorem findSlot_spec (sized : Sized c) (holds : Holds c (home c) slots S) (room : S.card < c)
    (ptr : Pointer) : ∃ p, findSlot slots c ptr = .ok p ∧ p < c ∧ Reaches c slots (home c ptr) p ∧
      (slots p = some ptr ∧ ptr ∈ S ∨ slots p = none ∧ ptr ∉ S) := by
  have ⟨e, e_, free⟩ := holds.exists_free room
  exact findSlotFrom_spec sized holds e_ free (.start (sized.home_lt ptr)) (gap_lt sized.pos)

theorem shiftFrom_spec (sized : Sized c) (e_ : e < c)
    (erasing : Erasing c (home c) slots S hole i e) (enough : gap c i e < fuel) :
    ∃ slots', shiftFrom c fuel hole i slots = .ok slots' ∧ Holds c (home c) slots' S := by
  induction fuel generalizing slots hole i with
  | zero => exact absurd enough (Nat.not_lt_zero _)
  | succ fuel ih =>
      rw [shiftFrom]
      cases here : slots i with
      | none => exact ⟨_, rfl, erasing.close sized.home_lt here⟩
      | some ptr =>
          have home_ := sized.home_lt ptr
          simp only [sized.mask_subSize home_]
          rw [sized.mask]
          by_cases after : gap c (home c ptr) hole < gap c (home c ptr) i
          · rw [if_pos after]
            have ⟨erasing', closer⟩ := erasing.move e_ home_ here after
            exact ih erasing' (by omega)
          · rw [if_neg after]
            have ⟨erasing', closer⟩ := erasing.keep e_ here (Nat.le_of_not_lt after)
            exact ih erasing' (by omega)

namespace Inv

variable (inv : s.Inv S)

include inv

theorem members_eq : s.members = S := by
  ext ptr
  rw [members, List.mem_toFinset, inv.holds.mem_entries_iff]

theorem sized_of_pos (some_ : s.capacity ≠ 0) : Sized s.capacity := inv.sized.resolve_left some_

theorem room (some_ : s.capacity ≠ 0) : S.card < s.capacity := by
  have := inv.size
  have := inv.load
  omega

theorem notMem (none_ : s.capacity = 0) : ptr ∉ S := by
  rw [inv.holds.mem]
  rintro ⟨p, p_, _⟩
  omega

theorem contains (ptr : Option Pointer) :
    s.contains ptr = .ok (decide (∃ q ∈ S, ptr = some q)) := by
  rcases ptr with _ | ptr
  · simp [PointerSet.contains]
  · rw [PointerSet.contains]
    by_cases none_ : s.capacity = 0
    · have absent : ptr ∉ S := inv.notMem none_
      simp [none_, absent]
    · have ⟨p, found, _, _, cases_⟩ :=
        findSlot_spec (inv.sized_of_pos none_) inv.holds (inv.room none_) ptr
      rw [if_neg none_, found]
      rcases cases_ with ⟨here, inS⟩ | ⟨free, absent⟩
      · simp [here, inS, pure, Except.pure, bind, Except.bind]
      · simp [free, absent, pure, Except.pure, bind, Except.bind]

end Inv

/-- An entry of the old table comes into the new one. -/
theorem installEntries_spec (sized : Sized c) (ptrs : List Pointer) :
    ∀ slots T, Holds c (home c) slots T → T.card + ptrs.length < c →
      ∃ slots', ptrs.foldlM (installEntry c) slots = .ok slots' ∧
        Holds c (home c) slots' (ptrs.toFinset ∪ T) := by
  induction ptrs with
  | nil => exact fun slots T holds _ => ⟨slots, rfl, by simpa using holds⟩
  | cons ptr ptrs ih =>
      intro slots T holds room
      rw [List.length_cons] at room
      have ⟨p, found, p_, reaches, cases_⟩ := findSlot_spec sized holds (by omega) ptr
      have holds' : Holds c (home c) (Function.update slots p (some ptr)) (insert ptr T) := by
        rcases cases_ with ⟨here, inT⟩ | ⟨free, absent⟩
        · rwa [← here, Function.update_eq_self, Finset.insert_eq_of_mem inT]
        · exact holds.insert absent p_ free reaches
      have := Finset.card_insert_le ptr T
      have ⟨slots', run, final⟩ := ih _ _ holds' (by omega)
      refine ⟨slots', ?_, ?_⟩
      · rw [List.foldlM_cons, installEntry, found]
        exact run
      · rwa [List.toFinset_cons, Finset.insert_union, ← Finset.union_insert]

theorem Inv.length_entries (inv : s.Inv S) : (entries s.slots s.capacity).length = S.card := by
  rw [← List.toFinset_card_of_nodup inv.holds.nodup_entries]
  exact congrArg Finset.card inv.members_eq

/-- A larger or smaller table holds the same pointers. -/
theorem Inv.installTable (inv : s.Inv S) (sized : Sized c) (load : 2 * s.size ≤ c) :
    ∃ s', s.installTable c = .ok s' ∧ s'.Inv S ∧ s'.size = s.size ∧ s'.capacity = c := by
  have pos := sized.pos
  have room : (∅ : Finset Pointer).card + (entries s.slots s.capacity).length < c := by
    rw [inv.length_entries, ← inv.size, Finset.card_empty]
    omega
  have ⟨slots', run, holds⟩ := installEntries_spec sized _ _ _ holds_empty room
  have same : (entries s.slots s.capacity).toFinset = S := inv.members_eq
  rw [same, Finset.union_empty] at holds
  exact ⟨⟨slots', c, s.size⟩, by rw [PointerSet.installTable, run]; rfl,
    ⟨inv.size, load, .inr sized, holds⟩, rfl, rfl⟩

theorem Inv.place (inv : s.Inv S) (some_ : s.capacity ≠ 0) (room : 2 * (s.size + 1) ≤ s.capacity)
    (ptr : Pointer) : ∃ s', s.place ptr = .ok (decide (ptr ∉ S), s') ∧ s'.Inv (insert ptr S) := by
  have ⟨p, found, p_, reaches, cases_⟩ :=
    findSlot_spec (inv.sized_of_pos some_) inv.holds (inv.room some_) ptr
  rw [PointerSet.place, found]
  rcases cases_ with ⟨here, inS⟩ | ⟨free, absent⟩
  · refine ⟨s, ?_, ?_⟩
    · simp [here, inS, pure, Except.pure, bind, Except.bind]
    · rwa [Finset.insert_eq_of_mem inS]
  · refine ⟨⟨Function.update s.slots p (some ptr), s.capacity, s.size + 1⟩, ?_, ?_, room, inv.sized,
      inv.holds.insert absent p_ free reaches⟩
    · simp [free, absent, pure, Except.pure, bind, Except.bind]
    · rw [Finset.card_insert_of_notMem absent, ← inv.size]

theorem granted_le (granted_ : granted memory c = true) : c ≤ 2 ^ 61 - 1 := by
  have ⟨small, _⟩ := Bool.and_eq_true_iff.mp granted_
  have := of_decide_eq_true small
  unfold sizeMax pointerBytes at this
  omega

section

variable (inv : s.Inv S) (memory : Nat → Bool)

include inv

theorem Inv.rehash (load : 2 * s.size ≤ c) (sized : granted memory c = true → Sized c) :
    Ends memory (s.rehash memory c) fun s' => s'.Inv S ∧ s'.size = s.size ∧ s'.capacity = c := by
  rw [PointerSet.rehash]
  cases granted_ : granted memory c with
  | false => exact granted_
  | true =>
      have ⟨s', run, post⟩ := inv.installTable (sized granted_) load
      rw [if_pos rfl, run]
      exact post

/-- The capacity that a full table grows to -/
theorem Inv.grown
    (grown : c = if s.capacity = 0 then kInitialCapacity else 2 * s.capacity % 2 ^ 64) :
    s.capacity + 2 ≤ c ∧ (granted memory c = true → Sized c) := by
  split at grown
  next none_ => exact ⟨by rw [grown, none_]; decide, fun _ => ⟨6, by omega, by omega, grown⟩⟩
  next some_ =>
    have ⟨k, low, high, power⟩ := inv.sized_of_pos some_
    have bound : 2 ^ k ≤ 2 ^ 60 := Nat.pow_le_pow_right (by omega) high
    have least : 2 ^ 6 ≤ 2 ^ k := Nat.pow_le_pow_right (by omega) low
    rw [power, Nat.mod_eq_of_lt (by omega)] at grown
    refine ⟨by omega, fun granted_ => ⟨k + 1, by omega, ?_, by rw [grown, pow_succ']⟩⟩
    have small := granted_le granted_
    by_contra large
    have : 2 ^ 61 ≤ 2 ^ (k + 1) := Nat.pow_le_pow_right (by omega) (by omega)
    rw [pow_succ'] at this
    omega

/-- An insertion returns whether the pointer is new. -/
protected theorem Inv.insert (ptr : Pointer) :
    Ends memory (s.insert memory ptr) fun (b, s') => b = decide (ptr ∉ S) ∧ s'.Inv (insert ptr S) := by
  have load := inv.load
  have done {t : PointerSet} (inv : t.Inv S) (some_ : t.capacity ≠ 0)
      (room : 2 * (t.size + 1) ≤ t.capacity) : Ends memory (t.place ptr) fun (b, s') =>
        b = decide (ptr ∉ S) ∧ s'.Inv (insert ptr S) := by
    have ⟨s', run, inv'⟩ := inv.place some_ room ptr
    rw [run]
    exact ⟨rfl, inv'⟩
  rw [PointerSet.insert]
  by_cases full : s.size = s.capacity / 2
  · rw [if_pos full]
    have first : Ends memory (s.contains (some ptr)) fun b => b = decide (ptr ∈ S) := by
      rw [inv.contains]
      simp [Ends]
    refine first.bind fun b found => ?_
    by_cases inS : ptr ∈ S
    · simpa [found, inS, Ends, pure, Except.pure] using inv
    · have ⟨larger, sized⟩ := inv.grown memory rfl
      rw [found, if_neg (by simpa using inS)]
      refine (inv.rehash memory (by omega) sized).bind fun t ⟨inv', size, capacity⟩ => ?_
      exact done inv' (by omega) (by omega)
  · rw [if_neg full]
    have some_ : s.capacity ≠ 0 := by omega
    have ⟨k, low, _, power⟩ := inv.sized_of_pos some_
    have even : s.capacity = 2 * 2 ^ (k - 1) := by
      rw [power, ← pow_succ', Nat.sub_add_cancel (by omega)]
    exact done inv some_ (by omega)

end

theorem Inv.insertAll (memory : Nat → Bool) (ptrs : List Pointer) :
    ∀ {s S}, Inv s S → Ends memory (s.insertAll memory ptrs) fun s' => s'.Inv (ptrs.toFinset ∪ S) := by
  induction ptrs with
  | nil => exact fun inv => by simpa [PointerSet.insertAll, Ends, pure, Except.pure] using inv
  | cons ptr ptrs ih =>
      intro s S inv
      have first : Ends memory (s.insert memory ptr >>= fun next => pure next.2) fun s' =>
          s'.Inv (insert ptr S) :=
        (inv.insert memory ptr).bind fun _ post => post.2
      have rest := first.bind fun s' inv' => ih inv'
      rwa [PointerSet.insertAll, List.foldlM_cons, List.toFinset_cons, Finset.insert_union,
        ← Finset.union_insert]

/-- An erasure returns whether the pointer was there. -/
theorem Inv.erase (inv : s.Inv S) (ptr : Option Pointer) :
    ∃ s', s.erase ptr = .ok (decide (∃ q ∈ S, ptr = some q), s') ∧ s'.Inv (S \ ptr.toFinset) := by
  rcases ptr with _ | ptr
  · exact ⟨s, by simp [PointerSet.erase], by simpa using inv⟩
  · have alone : S \ (some ptr).toFinset = S.erase ptr := by
      rw [Option.toFinset_some, Finset.sdiff_singleton_eq_erase]
    rw [PointerSet.erase, alone]
    by_cases none_ : s.capacity = 0
    · have absent : ptr ∉ S := inv.notMem none_
      rw [if_pos none_, Finset.erase_eq_of_notMem absent]
      exact ⟨s, by simp [absent], inv⟩
    · have sized := inv.sized_of_pos none_
      have room := inv.room none_
      have ⟨p, found, p_, _, cases_⟩ := findSlot_spec sized inv.holds room ptr
      rw [if_neg none_, found]
      rcases cases_ with ⟨here, inS⟩ | ⟨free, absent⟩
      · have ⟨e, e_, free⟩ := inv.holds.exists_free room
        have erasing := Erasing.start inv.holds p_ here e_ free
        have enough : gap s.capacity ((p + 1) % s.capacity) e < s.capacity := gap_lt sized.pos
        have ⟨slots', run, holds⟩ := shiftFrom_spec sized e_ erasing enough
        have card := Finset.card_erase_of_mem inS
        have size := inv.size
        have load := inv.load
        refine ⟨⟨slots', s.capacity, s.size - 1⟩, ?_, by dsimp only; omega, by dsimp only; omega,
          inv.sized, holds⟩
        simp [here, inS, sized.mask, run, pure, Except.pure, bind, Except.bind]
      · rw [Finset.erase_eq_of_notMem absent]
        exact ⟨s, by simp [free, absent, pure, Except.pure, bind, Except.bind], inv⟩

/-- The capacities of the two loops are doubled at most until they are `2 ^ 60`. -/
theorem sized_double (sized : Sized c) (small : c < 2 ^ 60) : Sized (c * 2) := by
  have ⟨k, low, _, power⟩ := sized
  refine ⟨k + 1, by omega, ?_, by rw [power, pow_succ]⟩
  by_contra large
  have : 2 ^ 60 ≤ 2 ^ k := Nat.pow_le_pow_right (by omega) (by omega)
  omega

theorem Sized.le (sized : Sized c) : c ≤ 2 ^ 60 := by
  have ⟨k, _, high, power⟩ := sized
  exact power ▸ Nat.pow_le_pow_right (by omega) high

theorem growFrom_spec (size : Nat) (sized : Sized c) (enough : 2 ^ 60 < c * 2 ^ fuel) :
    ∃ found, growFrom size fuel c = .ok found ∧
      ∀ c', found = some c' → Sized c' ∧ size ≤ c' / 2 ∧ c ≤ c' := by
  have high := sized.le
  induction fuel generalizing c with
  | zero => omega
  | succ fuel ih =>
      rw [growFrom]
      by_cases more : size > c / 2
      · rw [if_pos more]
        by_cases last : c > sizeMax / pointerBytes / 2
        · rw [if_pos last]
          exact ⟨none, rfl, nofun⟩
        · rw [if_neg last]
          unfold sizeMax pointerBytes at last
          have double := sized_double sized (by omega)
          rw [pow_succ' 2 fuel, ← Nat.mul_assoc] at enough
          have ⟨found, run, post⟩ := ih double enough double.le
          exact ⟨found, run, fun c' same => (post c' same).imp id fun both => ⟨both.1, by omega⟩⟩
      · rw [if_neg more]
        exact ⟨some c, rfl, fun c' same => Option.some.inj same ▸ ⟨sized, by omega, le_rfl⟩⟩

theorem capacityFrom_spec (size : Nat) (sized : Sized c) (enough : 2 ^ 60 < c * 2 ^ fuel)
    (room : 2 * size ≤ 2 ^ 60) :
    ∃ c', capacityFrom size fuel c = .ok c' ∧ Sized c' ∧ 2 * size ≤ c' := by
  have high := sized.le
  induction fuel generalizing c with
  | zero => omega
  | succ fuel ih =>
      rw [capacityFrom, Nat.mod_eq_of_lt (by omega)]
      by_cases more : 2 * size > c
      · have double := sized_double sized (by omega)
        rw [if_pos more, Nat.mod_eq_of_lt (by omega)]
        rw [pow_succ' 2 fuel, ← Nat.mul_assoc] at enough
        exact ih double enough double.le
      · rw [if_neg more]
        exact ⟨c, rfl, sized, by omega⟩

theorem sized_initial : Sized kInitialCapacity := ⟨6, by decide⟩

theorem Sized.enough (sized : Sized c) : 2 ^ 60 < c * 2 ^ 64 := by
  have := sized.pos
  omega

/-- A reservation leaves the pointers; when it succeeds, there is room. -/
theorem Inv.tryReserve (inv : s.Inv S) (memory : Nat → Bool) (size : Nat) :
    ∃ b s', s.tryReserve memory size = .ok (b, s') ∧ s'.Inv S ∧
      (b = true → size ≤ s'.capacity / 2) ∧ (b = false → s' = s) := by
  rw [PointerSet.tryReserve]
  by_cases room : size ≤ s.capacity / 2
  · rw [if_pos room]
    exact ⟨true, s, rfl, inv, fun _ => room, nofun⟩
  · rw [if_neg room, tryGrow]
    have from_ : Sized (if s.capacity = 0 then kInitialCapacity else s.capacity) ∧
        s.capacity ≤ if s.capacity = 0 then kInitialCapacity else s.capacity := by
      split
      next none_ => exact ⟨sized_initial, by omega⟩
      next some_ => exact ⟨inv.sized_of_pos some_, le_rfl⟩
    have ⟨found, run, post⟩ := growFrom_spec size from_.1 from_.1.enough
    rw [run]
    cases found with
    | none => exact ⟨false, s, rfl, inv, nofun, fun _ => rfl⟩
    | some c' =>
        have ⟨sized, room', larger⟩ := post c' rfl
        have load := inv.load
        have ⟨s', installed, inv', _, capacity⟩ := inv.installTable sized (by omega)
        simp only [bind, Except.bind]
        split
        · rw [installed]
          exact ⟨true, s', rfl, inv', fun _ => capacity ▸ room', nofun⟩
        · exact ⟨false, s, rfl, inv, nofun, fun _ => rfl⟩

theorem inv_empty : empty.Inv ∅ := ⟨rfl, le_rfl, .inl rfl, holds_empty⟩

/-- The pointers that a `RetainIf` leaves: those its callback kept and those it inserted -/
def retained (keep : List Pointer → Pointer → Bool × List Pointer) :
    List Pointer → List Pointer → Finset Pointer
  | _, [] => ∅
  | asked, ptr :: rest =>
      (keep asked ptr).2.toFinset ∪ (if (keep asked ptr).1 then {ptr} else ∅) ∪
        retained keep (asked ++ [ptr]) rest

theorem retain_spec (memory : Nat → Bool) (keep : List Pointer → Pointer → Bool × List Pointer)
    (rest : List Pointer) : ∀ asked {s S}, Inv s S →
      Ends memory (retain memory keep asked rest s) fun (visited, s') =>
        visited = asked ++ rest ∧ s'.Inv (retained keep asked rest ∪ S) := by
  induction rest with
  | nil => exact fun asked s S inv => by simpa [retain, Ends, retained] using inv
  | cons ptr rest ih =>
      intro asked s S inv
      rw [retain]
      refine (inv.insertAll memory _).bind fun s' inv' => ?_
      have later := ih (asked ++ [ptr]) inv'
      have same : retained keep (asked ++ [ptr]) rest ∪
          (((keep asked ptr).2 ++ if (keep asked ptr).1 then [ptr] else []).toFinset ∪ S) =
            retained keep asked (ptr :: rest) ∪ S := by
        rw [retained]
        split <;> ext q <;> simp <;> tauto
      rwa [same, List.append_assoc] at later

theorem Inv.retainIf (inv : s.Inv S) (memory : Nat → Bool)
    (keep : List Pointer → Pointer → Bool × List Pointer) :
    Ends memory (s.retainIf memory keep) fun (visited, s') =>
      visited = entries s.slots s.capacity ∧ s'.Inv (retained keep [] visited) := by
  rw [PointerSet.retainIf]
  by_cases none_ : s.size = 0
  · rw [if_pos none_]
    have same := inv.size
    have length := inv.length_entries
    have nil : entries s.slots s.capacity = [] := List.eq_nil_of_length_eq_zero (by omega)
    exact ⟨nil.symm, inv_empty⟩
  · rw [if_neg none_]
    have load := inv.load
    have high := (inv.sized_of_pos (by omega)).le
    have ⟨c, run, sized, room⟩ :=
      capacityFrom_spec s.size sized_initial sized_initial.enough (by omega)
    rw [capacityFor, run]
    simp only [bind, Except.bind]
    split
    · have fresh : Inv ⟨fun _ => none, c, 0⟩ ∅ := ⟨rfl, Nat.zero_le c, .inr sized, holds_empty⟩
      have done := retain_spec memory keep (entries s.slots s.capacity) [] fresh
      refine done.mono fun (visited, s') ⟨same, inv'⟩ => ⟨same, ?_⟩
      rwa [Finset.union_empty, ← List.nil_append (entries s.slots s.capacity), ← same] at inv'
    next refused => simpa [Ends] using refused

theorem visit_spec (memory : Nat → Bool) (fn : List Pointer → Pointer → List Pointer)
    (rest : List Pointer) : ∀ visited {s S}, Inv s S →
      Ends memory (visit memory fn visited rest s) fun all => all = visited ++ rest := by
  induction rest with
  | nil => exact fun visited s S _ => (List.append_nil visited).symm
  | cons ptr rest ih =>
      intro visited s S inv
      refine (inv.insertAll memory _).bind fun s' inv' => ?_
      have later := ih (visited ++ [ptr]) inv'
      rwa [List.append_assoc] at later

theorem drain_spec (s : PointerSet) (memory : Nat → Bool)
    (fn : List Pointer → Pointer → List Pointer) :
    Ends memory (s.drain memory fn) fun (visited, s') =>
      visited = entries s.slots s.capacity ∧ s' = empty :=
  (visit_spec memory fn _ [] inv_empty).bind fun _ same => ⟨same, rfl⟩

/-! Runs -/

inductive Op
  | insert (ptr : Pointer)
  | erase (ptr : Option Pointer)
  | tryReserve (size : Nat)
  | retainIf (keep : List Pointer → Pointer → Bool × List Pointer)
  | drain (fn : List Pointer → Pointer → List Pointer)

inductive Result
  | flag (b : Bool)
  | visited (ptrs : List Pointer)

def apply (memory : Nat → Bool) (s : PointerSet) : Op → Except Stop (Result × PointerSet)
  | .insert ptr => return (← s.insert memory ptr).map .flag id
  | .erase ptr => return (← s.erase ptr).map .flag id
  | .tryReserve size => return (← s.tryReserve memory size).map .flag id
  | .retainIf keep => return (← s.retainIf memory keep).map .visited id
  | .drain fn => return (← s.drain memory fn).map .visited id

def Does (S : Finset Pointer) : Op → Result → Finset Pointer → Prop
  | .insert ptr, .flag b, S' => b = decide (ptr ∉ S) ∧ S' = insert ptr S
  | .erase ptr, .flag b, S' => b = decide (∃ q ∈ S, ptr = some q) ∧ S' = S \ ptr.toFinset
  | .tryReserve _, .flag _, S' => S' = S
  | .retainIf keep, .visited ptrs, S' =>
      ptrs.Nodup ∧ ptrs.toFinset = S ∧ S' = retained keep [] ptrs
  | .drain _, .visited ptrs, S' => ptrs.Nodup ∧ ptrs.toFinset = S ∧ S' = ∅
  | _, _, _ => False

/-- The table finds its pointers and no others. -/
structure Sound (s : PointerSet) : Prop where
  size : s.size = s.members.card
  load : 2 * s.size ≤ s.capacity
  holds : Holds s.capacity (home s.capacity) s.slots s.members
  contains : ∀ ptr, s.contains ptr = .ok (decide (∃ q ∈ s.members, ptr = some q))

theorem Inv.sound (inv : s.Inv s.members) : s.Sound :=
  ⟨inv.size, inv.load, inv.holds, inv.contains⟩

/-- What each operation does -/
theorem Inv.apply (inv : s.Inv S) (memory : Nat → Bool) (op : Op) :
    Ends memory (s.apply memory op) fun (result, s') =>
      s'.Inv s'.members ∧ Does S op result s'.members := by
  have visited : (entries s.slots s.capacity).Nodup ∧ (entries s.slots s.capacity).toFinset = S :=
    ⟨inv.holds.nodup_entries, inv.members_eq⟩
  have settle {s' : PointerSet} {S' : Finset Pointer} {result : Result} (inv' : s'.Inv S')
      (does : Does S op result S') : s'.Inv s'.members ∧ Does S op result s'.members := by
    rw [inv'.members_eq]
    exact ⟨inv', does⟩
  cases op with
  | insert ptr => exact (inv.insert memory ptr).bind fun _ ⟨same, inv'⟩ => settle inv' ⟨same, rfl⟩
  | erase ptr =>
      have ⟨s', run, inv'⟩ := inv.erase ptr
      rw [PointerSet.apply, run]
      exact settle inv' ⟨rfl, rfl⟩
  | tryReserve size =>
      have ⟨b, s', run, inv', _⟩ := inv.tryReserve memory size
      rw [PointerSet.apply, run]
      exact settle inv' rfl
  | retainIf keep =>
      refine (inv.retainIf memory keep).bind fun (ptrs, s') ⟨same, inv'⟩ => settle inv' ?_
      exact ⟨same ▸ visited.1, same ▸ visited.2, rfl⟩
  | drain fn =>
      refine (drain_spec s memory fn).bind fun (ptrs, s') ⟨same, gone⟩ => settle (gone ▸ inv_empty) ?_
      exact ⟨same ▸ visited.1, same ▸ visited.2, rfl⟩

/-- How a step ends; after a refused allocation the process is gone. -/
inductive Outcome
  | returned (result : Result)
  | badAlloc (capacity : Nat)
  | gone

def step : Option PointerSet → (Nat → Bool) × Op → Option (Outcome × Option PointerSet)
  | none, _ => some (.gone, none)
  | some s, (memory, op) =>
      match s.apply memory op with
      | .ok (result, s') => some (.returned result, some s')
      | .error (.badAlloc capacity) => some (.badAlloc capacity, none)
      | .error .endless => none

/-- A step does to the pointers in the table what its operation does to a finite set. -/
def Refines : Option PointerSet → (Nat → Bool) × Op → Outcome → Option PointerSet → Prop
  | some s, (_, op), .returned result, some s' => Does s.members op result s'.members
  | some _, (memory, _), .badAlloc capacity, none => granted memory capacity = false
  | none, _, .gone, none => True
  | _, _, _, _ => False

theorem step_spec (state : Option PointerSet) (op : (Nat → Bool) × Op)
    (inv : ∀ s ∈ state, s.Inv s.members) :
    ∃ outcome state', step state op = some (outcome, state') ∧
      (∀ s ∈ state', s.Inv s.members) ∧ Refines state op outcome state' := by
  have ⟨memory, op⟩ := op
  rcases state with _ | s
  · exact ⟨.gone, none, rfl, nofun, trivial⟩
  · have done := (inv s rfl).apply memory op
    rw [step]
    rcases run : s.apply memory op with (_ | capacity) | ⟨result, s'⟩
    · rw [run] at done
      exact done.elim
    · rw [run] at done
      exact ⟨.badAlloc capacity, none, rfl, nofun, done⟩
    · rw [run] at done
      refine ⟨.returned result, some s', rfl, fun t same => ?_, done.2⟩
      exact Option.some.inj same ▸ done.1

end PrimJs.PointerSet
