import PrimJs.Foundation.LinkedList
import PrimJs.Foundation.OperationRun
import PrimJs.Gc.ThreeTierList

/-! The list of three parts, and runs of operations on it. -/

namespace PrimJs

/-- The nodes of the three parts. -/
structure Tiers (α : Type) where
  first : List α
  second : List α
  third : List α

namespace Tiers

variable {α : Type} [DecidableEq α]

def nodes (t : Tiers α) : List α := t.first ++ (t.second ++ t.third)

def insert (t : Tiers α) (n : α) (value : Rat) : Tiers α :=
  if t.second = [] then ⟨[], [n], []⟩
  else if value > ThreeTierList.kFirstTierBar then { t with first := n :: t.first }
  else if value > ThreeTierList.kSecondTierBar then { t with second := n :: t.second }
  else { t with third := n :: t.third }

/-- Without the first node of the second part; the last one is replaced from the third part, or else
from the first. -/
def dropSecond (t : Tiers α) : Tiers α :=
  match t.second with
  | [] => t
  | _ :: m :: rest => { t with second := m :: rest }
  | [_] =>
      match t.third with
      | m :: rest => { t with second := [m], third := rest }
      | [] => ⟨t.first.dropLast, t.first.getLast?.toList, []⟩

def erase (t : Tiers α) (n : α) : Tiers α :=
  if n ∈ t.first then { t with first := t.first.erase n }
  else if t.second.head? = some n then t.dropSecond
  else if n ∈ t.second then { t with second := t.second.erase n }
  else { t with third := t.third.erase n }

end Tiers

namespace ThreeTierList

variable {α : Type} {l : ThreeTierList α} {t : Tiers α} {n : α} {xs ys : List α}

/-- The ends of the parts. -/
structure Ends (l : ThreeTierList α) (t : Tiers α) : Prop where
  firstHead : l.firstTierHead = t.first.head?
  secondHead : l.secondTierHead = t.second.head?
  secondTail : l.secondTierTail = t.second.getLast?
  thirdHead : l.thirdTierHead = t.third.head?
  empty : t.second = [] → t.first = [] ∧ t.third = []

/-- The list is the parts, one after the other. -/
structure Represents (l : ThreeTierList α) (t : Tiers α) : Prop where
  ends : l.Ends t
  links : Linked l.next l.prev none t.nodes none
  nodup : t.nodes.Nodup
  inList : ∀ n, l.isInList n = true ↔ n ∈ t.nodes

theorem Represents.links_at (represents : l.Represents t) (split_ : t.nodes = xs ++ n :: ys) :
    l.prev n = xs.getLast? ∧ l.next n = ys.head? := by
  have links := represents.links
  rw [split_] at links
  exact links.links

theorem dropSecond_nodes {rest : List α} (second : t.second = n :: rest) :
    t.dropSecond.nodes = t.first ++ (rest ++ t.third) := by
  unfold Tiers.dropSecond Tiers.nodes
  rw [second]
  rcases rest with _ | ⟨m, rest⟩
  · rcases third : t.third with _ | ⟨m, rest⟩
    · rcases first : t.first.getLast? with _ | last
      · rw [List.getLast?_eq_none_iff.mp first]
        rfl
      · obtain ⟨front, same⟩ := List.getLast?_eq_some_iff.mp first
        dsimp only
        rw [same, List.dropLast_concat]
        simp
    · rfl
  · rfl

theorem dropSecond_sub (t : Tiers α) :
    (∀ n ∈ t.dropSecond.first, n ∈ t.first) ∧ ∀ n ∈ t.dropSecond.third, n ∈ t.third := by
  unfold Tiers.dropSecond
  split
  · exact ⟨fun n member => member, fun n member => member⟩
  · exact ⟨fun n member => member, fun n member => member⟩
  · split
    next third =>
      refine ⟨fun n member => member, fun n member => ?_⟩
      rw [third]
      exact List.mem_cons_of_mem _ member
    next => exact ⟨fun n member => List.dropLast_subset _ member, fun n member => nomatch member⟩

variable [DecidableEq α]

theorem unlink_eq (other : l.next n ≠ some n) : l.unlink n = { l with
    next := Function.update (Linked.setLink l.next (l.prev n) (l.next n)) n none
    prev := Function.update (Linked.setLink l.prev (l.next n) (l.prev n)) n none
    isInList := Function.update l.isInList n false } := by
  unfold unlink
  cases forth : l.next n with
  | none => cases back : l.prev n <;> simp [setPrev, setNext, setInList, Linked.setLink, forth, back]
  | some after =>
      have ne : n ≠ after := fun same => other (by rw [forth, same])
      cases back : l.prev n <;>
        simp [setPrev, setNext, setInList, Linked.setLink, forth, back, Function.update_of_ne ne]

/-- A node that is taken out of the links leaves the others. -/
theorem unlink_represents (ends : l.Ends t) (links : Linked l.next l.prev none (xs ++ n :: ys) none)
    (nodup : (xs ++ n :: ys).Nodup) (inList : ∀ m, l.isInList m = true ↔ m ∈ xs ++ n :: ys)
    (rest : t.nodes = xs ++ ys) : (l.unlink n).Represents t := by
  have ⟨back, forth⟩ := links.links
  have ⟨nodupX, nodupN, apart⟩ := List.nodup_append.mp nodup
  have ⟨freshY, nodupY⟩ := List.nodup_cons.mp nodupN
  have other : l.next n ≠ some n := by
    rw [forth]
    exact fun same => freshY (List.mem_of_head? same)
  have freshX : n ∉ xs := fun member => apart n member n List.mem_cons_self rfl
  have removed := links.remove nodup
  rw [← back, ← forth] at removed
  rw [unlink_eq other]
  refine ⟨⟨ends.firstHead, ends.secondHead, ends.secondTail, ends.thirdHead, ends.empty⟩, ?_, ?_,
    fun m => ?_⟩
  · rw [rest]
    exact removed
  · rw [rest]
    exact nodup.sublist ((List.Sublist.refl xs).append (List.sublist_cons_self n ys))
  · rw [rest]
    dsimp only
    by_cases same : m = n
    · rw [same, Function.update_self, List.mem_append]
      exact iff_of_false Bool.false_ne_true (not_or.mpr ⟨freshX, freshY⟩)
    · rw [Function.update_of_ne same, inList, List.mem_append, List.mem_append, List.mem_cons]
      tauto

section

variable (represents : l.Represents t) (fresh : n ∉ t.nodes)

include represents fresh

/-- A node that is put between two parts of the nodes. -/
theorem insert_represents {l' : ThreeTierList α} (split_ : t.nodes = xs ++ ys) {t' : Tiers α}
    (ends : l'.Ends t')
    (next : l'.next = Linked.setLink (Function.update l.next n ys.head?) xs.getLast? (some n))
    (prev : l'.prev = Linked.setLink (Function.update l.prev n xs.getLast?) ys.head? (some n))
    (flags : l'.isInList = l.isInList) (whole : t'.nodes = xs ++ n :: ys) :
    (l'.setInList n true).Represents t' := by
  have links := represents.links
  have nodup := represents.nodup
  rw [split_] at links nodup fresh
  have linked := links.insert nodup fresh
  refine ⟨⟨ends.firstHead, ends.secondHead, ends.secondTail, ends.thirdHead, ends.empty⟩, ?_, ?_,
    fun m => ?_⟩
  · rw [whole, setInList]
    dsimp only
    rw [next, prev]
    exact linked
  · rw [whole, List.nodup_middle, List.nodup_cons]
    exact ⟨fresh, nodup⟩
  · rw [whole, setInList]
    dsimp only
    by_cases same : m = n
    · rw [same, Function.update_self]
      exact iff_of_true rfl (by simp)
    · rw [Function.update_of_ne same, flags, represents.inList, split_, List.mem_append,
        List.mem_append, List.mem_cons]
      tauto

/-- A node is put into the first part. -/
theorem insertFirst_spec (some_ : t.second ≠ []) :
    ∃ l', l.insertFirst n = some l' ∧
      (l'.setInList n true).Represents { t with first := n :: t.first } := by
  have ends := represents.ends
  obtain ⟨second, later, same⟩ := List.exists_cons_of_ne_nil some_
  have secondHead := ends.secondHead
  rw [same, List.head?_cons] at secondHead
  unfold insertFirst
  cases first : t.first with
  | nil =>
      have firstHead := ends.firstHead
      rw [first, List.head?_nil] at firstHead
      rw [firstHead, secondHead]
      refine ⟨_, rfl, ?_⟩
      refine insert_represents represents fresh (List.nil_append _).symm ?_ ?_ ?_ rfl ?_
      · exact ⟨rfl, ends.secondHead, ends.secondTail, ends.thirdHead, fun none_ => absurd none_ some_⟩
      · rw [Tiers.nodes, first, same]
        rfl
      · rw [Tiers.nodes, first, same]
        rfl
      · rw [Tiers.nodes, Tiers.nodes, first]
        rfl
  | cons head rest =>
      have firstHead := ends.firstHead
      rw [first, List.head?_cons] at firstHead
      rw [firstHead]
      refine ⟨_, rfl, ?_⟩
      refine insert_represents represents fresh (List.nil_append _).symm ?_ ?_ ?_ rfl ?_
      · exact ⟨rfl, ends.secondHead, ends.secondTail, ends.thirdHead, fun none_ => absurd none_ some_⟩
      · rw [Tiers.nodes, first]
        rfl
      · rw [Tiers.nodes, first]
        rfl
      · rw [Tiers.nodes, Tiers.nodes, first]
        rfl

/-- A node is put before the second part. -/
theorem insertSecond_spec (some_ : t.second ≠ []) :
    ∃ l', l.insertSecond n = some l' ∧
      (l'.setInList n true).Represents { t with second := n :: t.second } := by
  have ends := represents.ends
  obtain ⟨second, later, same⟩ := List.exists_cons_of_ne_nil some_
  have secondHead := ends.secondHead
  rw [same, List.head?_cons] at secondHead
  have links := represents.links
  rw [Tiers.nodes, same, List.cons_append] at links
  have ⟨back, _⟩ := links.links
  unfold insertSecond
  rw [secondHead]
  simp only [Option.bind_eq_bind, Option.bind_some]
  refine ⟨_, rfl, ?_⟩
  have split_ : t.nodes = t.first ++ (t.second ++ t.third) := rfl
  refine insert_represents represents fresh split_ ?_ ?_ ?_ ?_ ?_
  · refine ⟨?_, rfl, ?_, ?_, fun none_ => nomatch none_⟩
    · cases l.prev second <;> exact ends.firstHead
    · have tail := ends.secondTail
      rw [same, List.getLast?_cons_cons]
      rw [same] at tail
      cases l.prev second <;> exact tail
    · cases l.prev second <;> exact ends.thirdHead
  · rw [same, ← back, List.cons_append, List.head?_cons]
    cases l.prev second <;> rfl
  · rw [same, ← back, List.cons_append, List.head?_cons]
    cases l.prev second <;> rfl
  · cases l.prev second <;> rfl
  · rfl

/-- A node is put before the third part. -/
theorem insertThird_spec (some_ : t.second ≠ []) :
    ∃ l', l.insertThird n = some l' ∧
      (l'.setInList n true).Represents { t with third := n :: t.third } := by
  have ends := represents.ends
  have before : (t.first ++ t.second).getLast? = t.second.getLast? :=
    List.getLast?_append_of_ne_nil _ some_
  obtain ⟨tail, last⟩ := Option.isSome_iff_exists.mp (List.getLast?_isSome.mpr some_)
  have split_ : t.nodes = t.first ++ t.second ++ t.third := by rw [Tiers.nodes, List.append_assoc]
  have secondTail := ends.secondTail
  rw [last] at secondTail before
  unfold insertThird
  cases third : t.third with
  | nil =>
      have thirdHead := ends.thirdHead
      rw [third, List.head?_nil] at thirdHead
      rw [thirdHead, secondTail]
      refine ⟨_, rfl, ?_⟩
      refine insert_represents represents fresh split_ ?_ ?_ ?_ rfl ?_
      · exact ⟨ends.firstHead, ends.secondHead, ends.secondTail, rfl, fun none_ => absurd none_ some_⟩
      · rw [before, third]
        rfl
      · rw [before, third]
        rfl
      · rw [Tiers.nodes, third, List.append_assoc]
  | cons head rest =>
      have thirdHead := ends.thirdHead
      rw [third, List.head?_cons] at thirdHead
      have links := represents.links
      rw [split_, third] at links
      have ⟨back, _⟩ := links.links
      rw [before] at back
      rw [thirdHead]
      dsimp only
      rw [back]
      refine ⟨_, rfl, ?_⟩
      refine insert_represents represents fresh split_ ?_ ?_ ?_ rfl ?_
      · exact ⟨ends.firstHead, ends.secondHead, ends.secondTail, rfl, fun none_ => absurd none_ some_⟩
      · rw [before, third]
        rfl
      · rw [before, third]
        rfl
      · rw [Tiers.nodes, third, List.append_assoc]

theorem insert_spec {value : Rat} (low : 0 ≤ value) (high : value ≤ 1) :
    ∃ l', l.insert n value = some l' ∧ l'.Represents (t.insert n value) := by
  have ends := represents.ends
  have notIn : l.isInList n = false := by
    rw [← Bool.not_eq_true, represents.inList]
    exact fresh
  unfold insert Tiers.insert
  rw [notIn, if_neg Bool.false_ne_true]
  by_cases none_ : t.second = []
  · have ⟨noFirst, noThird⟩ := ends.empty none_
    have firstHead : l.firstTierHead = none := by rw [ends.firstHead, noFirst, List.head?_nil]
    have secondHead : l.secondTierHead = none := by rw [ends.secondHead, none_, List.head?_nil]
    have secondTail : l.secondTierTail = none := by rw [ends.secondTail, none_, List.getLast?_nil]
    have thirdHead : l.thirdTierHead = none := by rw [ends.thirdHead, noThird, List.head?_nil]
    rw [if_pos none_, secondHead, firstHead, thirdHead, secondTail]
    refine ⟨_, rfl, ?_⟩
    have split_ : t.nodes = [] ++ [] := by
      rw [Tiers.nodes, noFirst, none_, noThird]
      rfl
    refine insert_represents represents fresh split_ ?_ rfl rfl rfl rfl
    · exact ⟨firstHead, rfl, rfl, thirdHead, fun wrong => nomatch wrong⟩
  · have some_ : l.secondTierHead.isNone = false := by
      rw [ends.secondHead]
      obtain ⟨second, later, same⟩ := List.exists_cons_of_ne_nil none_
      rw [same]
      rfl
    rw [some_, if_neg Bool.false_ne_true, if_neg none_]
    by_cases first : value > kFirstTierBar
    · obtain ⟨l', run, result⟩ := insertFirst_spec represents fresh none_
      rw [if_pos first, if_pos high, if_pos first, run]
      exact ⟨_, rfl, result⟩
    · rw [if_neg first, if_neg first]
      by_cases second : value > kSecondTierBar
      · obtain ⟨l', run, result⟩ := insertSecond_spec represents fresh none_
        rw [if_pos second, if_pos second, run]
        exact ⟨_, rfl, result⟩
      · obtain ⟨l', run, result⟩ := insertThird_spec represents fresh none_
        rw [if_neg second, if_neg second, if_pos low, run]
        exact ⟨_, rfl, result⟩

end

/-- `EraseSecond` moves the ends of the parts away from the first node of the second part. -/
theorem eraseSecond_spec (represents : l.Represents t) (some_ : t.second ≠ []) :
    ∃ l', l.eraseSecond = some l' ∧ l'.Ends t.dropSecond ∧ l'.next = l.next ∧ l'.prev = l.prev ∧
      l'.isInList = l.isInList := by
  have ⟨firstHead, secondHead, secondTail, thirdHead, empty⟩ := represents.ends
  have nodup := represents.nodup
  unfold eraseSecond Tiers.dropSecond
  rcases second : t.second with _ | ⟨n, _ | ⟨m, rest⟩⟩
  · exact absurd second some_
  · rw [second] at secondHead secondTail
    have split_ : t.nodes = t.first ++ n :: t.third := by rw [Tiers.nodes, second]; rfl
    have ⟨back, forth⟩ := represents.links_at split_
    have alone : ¬ some n ≠ l.secondTierTail := by
      rw [secondTail]
      exact not_not.mpr rfl
    rw [secondHead, List.head?_cons]
    simp only [Option.bind_eq_bind, Option.bind_some]
    rw [if_neg alone]
    rcases third : t.third with _ | ⟨m, rest⟩
    · rw [third, List.head?_nil] at forth
      rw [forth]
      dsimp only
      refine ⟨_, rfl, ?_, rfl, rfl, rfl⟩
      rw [third, List.head?_nil] at thirdHead
      rw [back, firstHead]
      rcases first : t.first with _ | ⟨x, _ | ⟨y, rest⟩⟩
      · exact ⟨rfl, rfl, rfl, thirdHead, fun _ => ⟨rfl, rfl⟩⟩
      · exact ⟨if_pos rfl, rfl, rfl, thirdHead, fun wrong => nomatch wrong⟩
      · obtain ⟨last, same⟩ := Option.isSome_iff_exists.mp
          (List.getLast?_isSome.mpr (List.cons_ne_nil y rest))
        rw [Tiers.nodes, first] at nodup
        have other : some last ≠ some x := by
          rintro ⟨⟩
          have fresh := (List.nodup_cons.mp nodup).1
          exact fresh (List.mem_append_left _ (List.mem_of_getLast? same))
        rw [List.getLast?_cons_cons, same]
        exact ⟨if_neg other, rfl, rfl, thirdHead, fun wrong => nomatch wrong⟩
    · rw [third, List.head?_cons] at forth thirdHead
      rw [third] at split_ 
      have next : l.next m = rest.head? := (represents.links_at (by
        rw [split_, List.append_cons])).2
      rw [forth]
      dsimp only
      rw [if_pos thirdHead, next]
      refine ⟨_, rfl, ?_, rfl, rfl, rfl⟩
      exact ⟨firstHead, rfl, rfl, rfl, fun wrong => nomatch wrong⟩
  · rw [second] at secondHead secondTail
    have split_ : t.nodes = t.first ++ n :: m :: (rest ++ t.third) := by
      rw [Tiers.nodes, second]
      rfl
    have ⟨_, forth⟩ := represents.links_at split_
    rw [split_] at nodup
    have apart : some n ≠ l.secondTierTail := by
      rw [secondTail, List.getLast?_cons_cons]
      intro same
      have member : n ∈ m :: rest := List.mem_of_getLast? same.symm
      have fresh := (List.nodup_cons.mp (List.nodup_append.mp nodup).2.1).1
      exact fresh (List.mem_append_left t.third member)
    rw [secondHead, List.head?_cons]
    simp only [Option.bind_eq_bind, Option.bind_some]
    rw [if_pos apart]
    refine ⟨_, rfl, ?_, rfl, rfl, rfl⟩
    refine ⟨firstHead, forth, ?_, thirdHead, fun wrong => nomatch wrong⟩
    rw [secondTail, List.getLast?_cons_cons]

/-- `Fetch` gives the first node of the second part, if there is one. -/
theorem fetch_spec (represents : l.Represents t) :
    ∃ l', l.fetch = some (t.second.head?, l') ∧ l'.Represents t.dropSecond := by
  have ends := represents.ends
  have secondHead := ends.secondHead
  unfold fetch
  rcases second : t.second with _ | ⟨n, rest⟩
  · have ⟨noFirst, noThird⟩ := ends.empty second
    have firstHead := ends.firstHead
    have secondTail := ends.secondTail
    have thirdHead := ends.thirdHead
    rw [second] at secondHead secondTail
    rw [noFirst] at firstHead
    rw [noThird] at thirdHead
    have same : t.dropSecond = t := by rw [Tiers.dropSecond, second]
    rw [secondHead, firstHead, thirdHead, secondTail, same]
    exact ⟨l, rfl, represents⟩
  · rw [second] at secondHead
    have some_ : t.second ≠ [] := by rw [second]; exact List.cons_ne_nil _ _
    have ⟨l', run, ends', next, prev, flags⟩ := eraseSecond_spec represents some_
    have split_ : t.nodes = t.first ++ n :: (rest ++ t.third) := by rw [Tiers.nodes, second]; rfl
    have links := represents.links
    have nodup := represents.nodup
    have inList := represents.inList
    rw [split_] at links nodup inList
    rw [← next, ← prev] at links
    rw [← flags] at inList
    rw [secondHead, List.head?_cons]
    dsimp only
    rw [run]
    exact ⟨_, rfl, unlink_represents ends' links nodup inList (dropSecond_nodes second)⟩

theorem erase_middle (fresh : n ∉ xs) : (xs ++ n :: ys).erase n = xs ++ ys := by
  rw [List.erase_append_right _ fresh, List.erase_cons_head]

section

variable (represents : l.Represents t)

include represents

/-- `Erase` of a node of the first part moves its end, if need be. -/
theorem eraseEnds_first (first : t.first = xs ++ n :: ys) :
    ∃ l', l.eraseEnds n = some l' ∧ l'.Ends { t with first := xs ++ ys } ∧ l'.next = l.next ∧
      l'.prev = l.prev ∧ l'.isInList = l.isInList := by
  have ⟨firstHead, secondHead, secondTail, thirdHead, empty⟩ := represents.ends
  have split_ : t.nodes = xs ++ n :: (ys ++ (t.second ++ t.third)) := by
    rw [Tiers.nodes, first, List.append_assoc]
    rfl
  have nodup := represents.nodup
  have apart : ∀ m ∈ xs ++ n :: ys, m ∉ t.second ++ t.third := fun m member other => by
    rw [Tiers.nodes, first] at nodup
    exact (List.nodup_append.mp nodup).2.2 m member m other rfl
  have some_ : t.second ≠ [] := fun none_ => by
    have wrong := (empty none_).1
    rw [first] at wrong
    simp at wrong
  have notSecond : n ∉ t.second ∧ n ∉ t.third := by
    have other := apart n (by simp)
    rwa [List.mem_append, not_or] at other
  unfold eraseEnds
  rcases xs with _ | ⟨x, xs⟩
  · have ⟨_, forth⟩ := represents.links_at split_
    rw [firstHead, first, List.nil_append, List.head?_cons, if_pos rfl, forth]
    refine ⟨_, rfl, ⟨?_, secondHead, secondTail, thirdHead, fun none_ => absurd none_ some_⟩, rfl, rfl,
      rfl⟩
    dsimp only
    rcases ys with _ | ⟨y, ys⟩
    · have same : ([] ++ (t.second ++ t.third)).head? = l.secondTierHead := by
        rw [secondHead, List.nil_append, List.head?_append_of_ne_nil _ some_]
      rw [if_pos same]
      rfl
    · have other : (y :: ys ++ (t.second ++ t.third)).head? ≠ l.secondTierHead := by
        rw [secondHead]
        intro same
        exact apart y (by simp) (List.mem_append_left _ (List.mem_of_head? same.symm))
      rw [if_neg other]
      rfl
  · have fresh : x ≠ n := by
      rw [split_] at nodup
      exact fun same => (List.nodup_cons.mp nodup).1 (by simp [same])
    have notFirst : l.firstTierHead ≠ some n := by
      rw [firstHead, first]
      exact fun same => fresh (Option.some.inj same)
    have notHead : l.secondTierHead ≠ some n := by
      rw [secondHead]
      exact fun same => notSecond.1 (List.mem_of_head? same)
    have notTail : l.secondTierTail ≠ some n := by
      rw [secondTail]
      exact fun same => notSecond.1 (List.mem_of_getLast? same)
    have notThird : l.thirdTierHead ≠ some n := by
      rw [thirdHead]
      exact fun same => notSecond.2 (List.mem_of_head? same)
    rw [if_neg notFirst, if_neg notHead, if_neg notTail, if_neg notThird]
    refine ⟨l, rfl, ⟨?_, secondHead, secondTail, thirdHead, fun none_ => absurd none_ some_⟩, rfl, rfl,
      rfl⟩
    rw [firstHead, first]
    rfl

/-- `Erase` of a later node of the second part moves its tail, if need be. -/
theorem eraseEnds_second (some_ : xs ≠ []) (second : t.second = xs ++ n :: ys) :
    ∃ l', l.eraseEnds n = some l' ∧ l'.Ends { t with second := xs ++ ys } ∧ l'.next = l.next ∧
      l'.prev = l.prev ∧ l'.isInList = l.isInList := by
  have ⟨firstHead, secondHead, secondTail, thirdHead, empty⟩ := represents.ends
  have nodup := represents.nodup
  have split_ : t.nodes = t.first ++ xs ++ n :: (ys ++ t.third) := by
    rw [Tiers.nodes, second]
    simp
  have ⟨back, _⟩ := represents.links_at split_
  rw [split_] at nodup
  have ⟨nodupX, nodupN, apart⟩ := List.nodup_append.mp nodup
  have ⟨freshY, _⟩ := List.nodup_cons.mp nodupN
  rw [List.mem_append, not_or] at freshY
  have freshX : n ∉ t.first ∧ n ∉ xs := by
    rw [← not_or, ← List.mem_append]
    exact fun member => apart n member n List.mem_cons_self rfl
  have kept : (xs ++ ys).head? = xs.head? := List.head?_append_of_ne_nil _ some_
  have headX : t.second.head? = xs.head? := by rw [second, List.head?_append_of_ne_nil _ some_]
  have notFirst : l.firstTierHead ≠ some n := by
    rw [firstHead]
    exact fun same => freshX.1 (List.mem_of_head? same)
  have notHead : l.secondTierHead ≠ some n := by
    rw [secondHead, headX]
    exact fun same => freshX.2 (List.mem_of_head? same)
  have notThird : l.thirdTierHead ≠ some n := by
    rw [thirdHead]
    exact fun same => freshY.2 (List.mem_of_head? same)
  have wrong : xs ++ ys ≠ [] := fun none_ => some_ (List.append_eq_nil_iff.mp none_).1
  unfold eraseEnds
  rw [if_neg notFirst, if_neg notHead]
  rcases ys with _ | ⟨y, ys⟩
  · have tail : l.secondTierTail = some n := by rw [secondTail, second, List.getLast?_concat]
    rw [if_pos tail, back, List.getLast?_append_of_ne_nil _ some_]
    refine ⟨_, rfl, ⟨firstHead, ?_, ?_, thirdHead, fun none_ => absurd none_ wrong⟩, rfl, rfl, rfl⟩
    · rw [kept, ← headX]
      exact secondHead
    · rw [List.append_nil]
  · have last : t.second.getLast? = (y :: ys).getLast? := by
      rw [second, List.getLast?_append_of_ne_nil _ (List.cons_ne_nil _ _), List.getLast?_cons_cons]
    have notTail : l.secondTierTail ≠ some n := by
      rw [secondTail, last]
      exact fun same => freshY.1 (List.mem_of_getLast? same)
    rw [if_neg notTail, if_neg notThird]
    refine ⟨l, rfl, ⟨firstHead, ?_, ?_, thirdHead, fun none_ => absurd none_ wrong⟩, rfl, rfl, rfl⟩
    · rw [kept, ← headX]
      exact secondHead
    · rw [secondTail, last, List.getLast?_append_of_ne_nil _ (List.cons_ne_nil _ _)]

/-- `Erase` of a node of the third part moves its head, if need be. -/
theorem eraseEnds_third (third : t.third = xs ++ n :: ys) :
    ∃ l', l.eraseEnds n = some l' ∧ l'.Ends { t with third := xs ++ ys } ∧ l'.next = l.next ∧
      l'.prev = l.prev ∧ l'.isInList = l.isInList := by
  have ⟨firstHead, secondHead, secondTail, thirdHead, empty⟩ := represents.ends
  have nodup := represents.nodup
  have split_ : t.nodes = t.first ++ t.second ++ xs ++ n :: ys := by
    rw [Tiers.nodes, third]
    simp
  have ⟨_, forth⟩ := represents.links_at split_
  rw [split_] at nodup
  have fresh : n ∉ t.first ++ t.second ++ xs := fun member =>
    (List.nodup_append.mp nodup).2.2 n member n List.mem_cons_self rfl
  rw [List.mem_append, List.mem_append, not_or, not_or] at fresh
  have some_ : t.second ≠ [] := fun none_ => by
    have wrong := (empty none_).2
    rw [third] at wrong
    simp at wrong
  have notFirst : l.firstTierHead ≠ some n := by
    rw [firstHead]
    exact fun same => fresh.1.1 (List.mem_of_head? same)
  have notHead : l.secondTierHead ≠ some n := by
    rw [secondHead]
    exact fun same => fresh.1.2 (List.mem_of_head? same)
  have notTail : l.secondTierTail ≠ some n := by
    rw [secondTail]
    exact fun same => fresh.1.2 (List.mem_of_getLast? same)
  unfold eraseEnds
  rw [if_neg notFirst, if_neg notHead, if_neg notTail]
  rcases xs with _ | ⟨x, xs⟩
  · have head : l.thirdTierHead = some n := by rw [thirdHead, third]; rfl
    rw [if_pos head, forth]
    exact ⟨_, rfl, ⟨firstHead, secondHead, secondTail, rfl, fun none_ => absurd none_ some_⟩, rfl, rfl,
      rfl⟩
  · have notThird : l.thirdTierHead ≠ some n := by
      rw [thirdHead, third]
      exact fun same => fresh.2 (List.mem_cons.mpr (.inl (Option.some.inj same).symm))
    rw [if_neg notThird]
    refine ⟨l, rfl, ⟨firstHead, secondHead, secondTail, ?_, fun none_ => absurd none_ some_⟩, rfl, rfl,
      rfl⟩
    rw [thirdHead, third]
    rfl

/-- The parts without a node, and what `Erase` does to their ends. -/
theorem eraseEnds_spec (member : n ∈ t.nodes) :
    ∃ l' xs ys, l.eraseEnds n = some l' ∧ l'.Ends (t.erase n) ∧ l'.next = l.next ∧
      l'.prev = l.prev ∧ l'.isInList = l.isInList ∧ t.nodes = xs ++ n :: ys ∧
        (t.erase n).nodes = xs ++ ys := by
  have nodup := represents.nodup
  unfold Tiers.erase
  by_cases inFirst : n ∈ t.first
  · obtain ⟨xs, ys, first, fresh⟩ := List.eq_append_cons_of_mem inFirst
    have ⟨l', run, ends, next, prev, flags⟩ := eraseEnds_first represents first
    rw [if_pos inFirst, first, erase_middle fresh]
    refine ⟨l', xs, ys ++ (t.second ++ t.third), run, ends, next, prev, flags, ?_, ?_⟩
    · rw [Tiers.nodes, first, List.append_assoc]
      rfl
    · rw [Tiers.nodes, List.append_assoc]
  · rw [if_neg inFirst]
    by_cases inSecond : n ∈ t.second
    · obtain ⟨xs, ys, second, fresh⟩ := List.eq_append_cons_of_mem inSecond
      rcases xs with _ | ⟨x, xs⟩
      · rw [List.nil_append] at second
        have some_ : t.second ≠ [] := List.ne_nil_of_mem inSecond
        have head : t.second.head? = some n := by rw [second]; rfl
        have ⟨l', run, ends, next, prev, flags⟩ := eraseSecond_spec represents some_
        have notFirst : l.firstTierHead ≠ some n := by
          rw [represents.ends.firstHead]
          exact fun same => inFirst (List.mem_of_head? same)
        have secondHead := represents.ends.secondHead.trans head
        rw [if_pos head]
        refine ⟨l', t.first, ys ++ t.third, ?_, ends, next, prev, flags, ?_, dropSecond_nodes second⟩
        · rw [eraseEnds, if_neg notFirst, if_pos secondHead, run]
        · rw [Tiers.nodes, second]
          rfl
      · have some_ : x :: xs ≠ [] := List.cons_ne_nil _ _
        have ⟨l', run, ends, next, prev, flags⟩ := eraseEnds_second represents some_ second
        have notHead : t.second.head? ≠ some n := by
          rw [second]
          exact fun same => fresh (List.mem_cons.mpr (.inl (Option.some.inj same).symm))
        rw [if_neg notHead, if_pos inSecond, second, erase_middle fresh]
        refine ⟨l', t.first ++ x :: xs, ys ++ t.third, run, ends, next, prev, flags, ?_, ?_⟩
        · rw [Tiers.nodes, second]
          simp
        · rw [Tiers.nodes]
          simp
    · have inThird : n ∈ t.third := by
        rw [Tiers.nodes, List.mem_append, List.mem_append] at member
        exact (member.resolve_left inFirst).resolve_left inSecond
      obtain ⟨xs, ys, third, fresh⟩ := List.eq_append_cons_of_mem inThird
      have ⟨l', run, ends, next, prev, flags⟩ := eraseEnds_third represents third
      have notHead : t.second.head? ≠ some n := fun same => inSecond (List.mem_of_head? same)
      rw [if_neg notHead, if_neg inSecond, third, erase_middle fresh]
      refine ⟨l', t.first ++ t.second ++ xs, ys, run, ends, next, prev, flags, ?_, ?_⟩
      · rw [Tiers.nodes, third]
        simp
      · rw [Tiers.nodes]
        simp

theorem erase_spec (member : n ∈ t.nodes) :
    ∃ l', l.erase n = some l' ∧ l'.Represents (t.erase n) := by
  have ⟨l', xs, ys, run, ends, next, prev, flags, split_, rest⟩ := eraseEnds_spec represents member
  have links := represents.links
  have nodup := represents.nodup
  have inList := represents.inList
  have present := (inList n).mpr member
  rw [split_] at links nodup inList
  rw [← next, ← prev] at links
  rw [← flags] at inList
  rw [erase, if_pos present, run]
  exact ⟨_, rfl, unlink_represents ends links nodup inList rest⟩

end

end ThreeTierList

/-- The operations of the class; `EraseSecond` is a part of two of them. -/
inductive ThreeTierOp (α : Type) where
  | insert (n : α) (value : Rat)
  | fetch
  | erase (n : α)

/-- The list, the nodes that are in it, and the values they had when they were put in. -/
structure ThreeTierSystem (α : Type) where
  list : ThreeTierList α
  held : List α
  value : α → Rat

namespace ThreeTierSystem

open ThreeTierList (Represents kFirstTierBar kSecondTierBar)

variable {α : Type}

/-- The parts are as the list has them, they hold what was put in, and the outer parts only what
belongs there by its value. -/
structure Holds (y : ThreeTierSystem α) (t : Tiers α) : Prop where
  represents : y.list.Represents t
  held : t.nodes.Perm y.held
  first : ∀ n ∈ t.first, kFirstTierBar < y.value n
  third : ∀ n ∈ t.third, y.value n ≤ kSecondTierBar

def Consistent (y : ThreeTierSystem α) : Prop := ∃ t, y.Holds t

/-- The empty list; nodes that were never in a list may have any links. -/
def start (next prev : α → Option α) (value : α → Rat) : ThreeTierSystem α where
  list := ⟨none, none, none, none, next, prev, fun _ => false⟩
  held := []
  value := value

theorem start_holds (next prev : α → Option α) (value : α → Rat) :
    (start next prev value).Holds ⟨[], [], []⟩ where
  represents := {
    ends := ⟨rfl, rfl, rfl, rfl, fun _ => ⟨rfl, rfl⟩⟩
    links := trivial
    nodup := List.nodup_nil
    inList := fun n => by simp [start, Tiers.nodes] }
  held := List.Perm.refl _
  first := nofun
  third := nofun

variable [DecidableEq α]

def apply (y : ThreeTierSystem α) : ThreeTierOp α → Option (Option α × ThreeTierSystem α)
  | .insert n value => (y.list.insert n value).map fun list =>
      (none, ⟨list, n :: y.held, Function.update y.value n value⟩)
  | .fetch => y.list.fetch.map fun (result, list) =>
      (result, { y with list := list, held := y.held.filter fun m => result ≠ some m })
  | .erase n => (y.list.erase n).map fun list => (none, { y with list := list, held := y.held.erase n })

def Legal (y : ThreeTierSystem α) : ThreeTierOp α → Prop
  | .insert n value => n ∉ y.held ∧ 0 ≤ value ∧ value ≤ 1
  | .fetch => True
  | .erase n => n ∈ y.held

instance decidableLegal (y : ThreeTierSystem α) : ∀ op, Decidable (y.Legal op)
  | .insert .. => inferInstanceAs (Decidable (_ ∧ _))
  | .fetch => inferInstanceAs (Decidable True)
  | .erase .. => inferInstanceAs (Decidable (_ ∈ _))

/-- `Fetch` takes the head of the second part, and gives nothing only if there is nothing. -/
def Exact (y : ThreeTierSystem α) : ThreeTierOp α → Option α → ThreeTierSystem α → Prop
  | .fetch, result, y' => result = y.list.secondTierHead ∧ (result = none ↔ y.held = []) ∧
      y.held.Perm (result.toList ++ y'.held)
  | _, _, _ => True

variable {y : ThreeTierSystem α} {t : Tiers α} {op : ThreeTierOp α} {n : α}

theorem insert_holds (holds : y.Holds t) {value : Rat} (fresh : n ∉ y.held) (low : 0 ≤ value)
    (high : value ≤ 1) : ∃ list, y.list.insert n value = some list ∧
      Holds ⟨list, n :: y.held, Function.update y.value n value⟩ (t.insert n value) := by
  have ⟨represents, held, first, third⟩ := holds
  have new : n ∉ t.nodes := fun member => fresh (held.subset member)
  have ⟨list, run, result⟩ := ThreeTierList.insert_spec represents new low high
  have others : ∀ m ∈ t.nodes, Function.update y.value n value m = y.value m := fun m member => by
    have other : m ≠ n := fun same => new (by rwa [same] at member)
    exact Function.update_of_ne other _ _
  have firstKept : ∀ m ∈ t.first, kFirstTierBar < Function.update y.value n value m := fun m member => by
    rw [others m (List.mem_append_left _ member)]
    exact first m member
  have thirdKept : ∀ m ∈ t.third, Function.update y.value n value m ≤ kSecondTierBar := fun m member => by
    rw [others m (List.mem_append_right _ (List.mem_append_right _ member))]
    exact third m member
  refine ⟨list, run, result, ?_, ?_, ?_⟩
  · refine List.Perm.trans ?_ (held.cons n)
    unfold Tiers.insert Tiers.nodes
    split
    next none_ =>
      have ⟨noFirst, noThird⟩ := represents.ends.empty none_
      rw [none_, noFirst, noThird]
      exact List.Perm.refl _
    next =>
      split
      · exact List.Perm.refl _
      · split
        · exact List.perm_middle
        · rw [← List.append_assoc, ← List.append_assoc]
          exact List.perm_middle
  · unfold Tiers.insert
    split
    next => exact fun m member => nomatch member
    next =>
      split
      next bar =>
        refine List.forall_mem_cons.mpr ⟨?_, firstKept⟩
        dsimp only
        rw [Function.update_self]
        exact bar
      next => split <;> exact firstKept
  · unfold Tiers.insert
    split
    next => exact fun m member => nomatch member
    next =>
      split
      next => exact thirdKept
      next =>
        split
        next => exact thirdKept
        next bar =>
          refine List.forall_mem_cons.mpr ⟨?_, thirdKept⟩
          dsimp only
          rw [Function.update_self]
          exact not_lt.mp bar

theorem fetch_holds (holds : y.Holds t) :
    ∃ result list, y.list.fetch = some (result, list) ∧
      Holds { y with list := list, held := y.held.filter fun m => result ≠ some m } t.dropSecond ∧
        result = y.list.secondTierHead ∧ (result = none ↔ y.held = []) ∧
          y.held.Perm (result.toList ++ y.held.filter fun m => result ≠ some m) := by
  have ⟨represents, held, first, third⟩ := holds
  have ⟨list, run, result⟩ := ThreeTierList.fetch_spec represents
  have ⟨firstSub, thirdSub⟩ := ThreeTierList.dropSecond_sub t
  have nodup : y.held.Nodup := held.nodup_iff.mp represents.nodup
  have parts : y.held.Perm
      (t.second.head?.toList ++ y.held.filter fun m => t.second.head? ≠ some m) := by
    rcases second : t.second with _ | ⟨n, rest⟩
    · simp
    · have member : n ∈ y.held := held.subset (by rw [Tiers.nodes, second]; simp)
      have erased : y.held.filter (fun m => decide (some n ≠ some m)) = y.held.erase n := by
        rw [nodup.erase_eq_filter]
        refine List.filter_congr fun m _ => ?_
        by_cases same : n = m
        · simp [same]
        · simp [same, Ne.symm same]
      rw [List.head?_cons, erased]
      exact List.perm_cons_erase member
  refine ⟨_, list, run, ⟨result, ?_, fun n member => first n (firstSub n member),
    fun n member => third n (thirdSub n member)⟩, represents.ends.secondHead.symm, ?_, parts⟩
  · rcases second : t.second with _ | ⟨n, rest⟩
    · have same : t.dropSecond = t := by rw [Tiers.dropSecond, second]
      rw [same]
      simpa using held
    · rw [second] at parts
      refine List.Perm.cons_inv (a := n) (List.Perm.trans ?_ parts)
      refine List.Perm.trans ?_ held
      rw [ThreeTierList.dropSecond_nodes second, Tiers.nodes, second]
      exact List.perm_middle.symm
  · rw [List.head?_eq_none_iff]
    constructor
    · intro none_
      have ⟨noFirst, noThird⟩ := represents.ends.empty none_
      rw [Tiers.nodes, none_, noFirst, noThird] at held
      exact held.symm.eq_nil
    · intro none_
      rw [none_] at held
      have all := held.eq_nil
      rw [Tiers.nodes, List.append_eq_nil_iff, List.append_eq_nil_iff] at all
      exact all.2.1

theorem erase_holds (holds : y.Holds t) (member : n ∈ y.held) :
    ∃ list, y.list.erase n = some list ∧
      Holds { y with list := list, held := y.held.erase n } (t.erase n) := by
  have ⟨represents, held, first, third⟩ := holds
  have inTiers : n ∈ t.nodes := held.symm.subset member
  have ⟨list, run, result⟩ := ThreeTierList.erase_spec represents inTiers
  have ⟨_, xs, ys, _, _, _, _, _, split_, rest⟩ := ThreeTierList.eraseEnds_spec represents inTiers
  have ⟨firstSub, thirdSub⟩ := ThreeTierList.dropSecond_sub t
  refine ⟨list, run, result, ?_, ?_, ?_⟩
  · rw [rest]
    rw [split_] at held
    have without := held.erase n
    have fresh : n ∉ xs := by
      have nodup := represents.nodup
      rw [split_] at nodup
      exact fun inX => (List.nodup_append.mp nodup).2.2 n inX n List.mem_cons_self rfl
    rwa [ThreeTierList.erase_middle fresh] at without
  · unfold Tiers.erase
    split
    · exact fun m inside => first m (List.mem_of_mem_erase inside)
    · split
      · exact fun m inside => first m (firstSub m inside)
      · split <;> exact first
  · unfold Tiers.erase
    split
    · exact third
    · split
      · exact fun m inside => third m (thirdSub m inside)
      · split
        · exact third
        · exact fun m inside => third m (List.mem_of_mem_erase inside)

/-- What each operation keeps. -/
theorem apply_holds (consistent : y.Consistent) (legal : y.Legal op) :
    ∃ result y', y.apply op = some (result, y') ∧ y'.Consistent ∧ y.Exact op result y' := by
  obtain ⟨t, holds⟩ := consistent
  cases op with
  | insert n value =>
      have ⟨list, run, holds'⟩ := insert_holds holds legal.1 legal.2.1 legal.2.2
      rw [apply, run]
      exact ⟨_, _, rfl, ⟨_, holds'⟩, trivial⟩
  | fetch =>
      have ⟨result, list, run, holds', exact_⟩ := fetch_holds holds
      rw [apply, run]
      exact ⟨_, _, rfl, ⟨_, holds'⟩, exact_⟩
  | erase n =>
      have ⟨list, run, holds'⟩ := erase_holds holds legal
      rw [apply, run]
      exact ⟨_, _, rfl, ⟨_, holds'⟩, trivial⟩

/-- Over any operations that may be called, nothing fails, the list is its three parts with exactly
the nodes that were put in, and `Fetch` takes the head of the second. -/
theorem run_keeps_parts (next prev : α → Option α) (value : α → Rat) (ops : List (ThreeTierOp α))
    (along : OperationRun.Along apply Legal (start next prev value) ops) :
    OperationRun.Runs apply Consistent Exact (start next prev value) ops :=
  OperationRun.runs_of_along (fun _ consistent => consistent)
    (fun _ _ consistent legal => apply_holds consistent legal) ops _
    ⟨_, start_holds next prev value⟩ along

def fresh : ThreeTierSystem Nat := start (fun _ => none) (fun _ => none) fun _ => 0

theorem run_keeps_parts_fourNodes : OperationRun.Runs apply Consistent Exact fresh
    [.insert 0 (1 / 2), .insert 1 (9 / 10), .insert 2 (1 / 10), .insert 3 (2 / 5), .erase 3, .fetch,
      .erase 2, .fetch, .fetch] :=
  run_keeps_parts _ _ _ _ (by decide +kernel)

/-- A node of the value 1/2 and then one of the value 1/10. -/
def twoNodes : List (ThreeTierOp Nat) := [.insert 0 (1 / 2), .insert 1 (1 / 10)]

theorem twoNodes_runs : (OperationRun.final apply fresh twoNodes).isSome = true := by decide +kernel

def afterTwoNodes : ThreeTierSystem Nat :=
  (OperationRun.final apply fresh twoNodes).get twoNodes_runs

/-- The first node goes to the second part whatever its value is, and is fetched first. -/
theorem fetch_not_least : ¬ ∀ (ops : List (ThreeTierOp Nat)) (y : ThreeTierSystem Nat),
    OperationRun.Along apply Legal fresh ops → OperationRun.final apply fresh ops = some y →
      ∀ n y', y.apply .fetch = some (some n, y') → ∀ m ∈ y.held, y.value n ≤ y.value m := by
  intro least
  have fetched : (afterTwoNodes.apply .fetch).map Prod.fst = some (some 0) := by decide +kernel
  obtain ⟨⟨result, y'⟩, fetch, rfl⟩ := Option.map_eq_some_iff.mp fetched
  have member : 1 ∈ afterTwoNodes.held := by decide +kernel
  have ends : OperationRun.final apply fresh twoNodes = some afterTwoNodes :=
    (Option.some_get twoNodes_runs).symm
  have order := least twoNodes afterTwoNodes (by decide +kernel) ends 0 y' fetch 1 member
  exact absurd order (by decide +kernel)

end ThreeTierSystem

end PrimJs
