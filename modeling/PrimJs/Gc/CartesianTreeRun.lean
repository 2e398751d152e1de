import Mathlib.Data.List.Induction
import PrimJs.Gc.CartesianTreeInvariant

/-! Runs of the free-page tree. -/

namespace PrimJs.CartesianTree

variable {t u : CartesianTree} {a s : Nat}

/-! What each operation does to the free pages. -/

theorem mergeInsertInternal_spec (inv : t.Inv) (some_ : 0 < s) (small : a + s < 2 ^ 32)
    (settles : Settles a s t) :
    (∃ p ∈ Set.Ico a (a + s), p ∈ covers t.intervals) ∧ mergeInsertInternal t a s = (false, t) ∨
      ∃ u, mergeInsertInternal t a s = (true, u) ∧ u.Inv ∧ Adds a s t.intervals u.intervals := by
  have start : PathTo a (a + s) [] := fun f member => nomatch member
  have placed := insertLoop_spec (by exact inv) start some_ small
  unfold mergeInsertInternal
  cases found : insertLoop a s t [] with
  | none =>
      rw [found] at placed
      exact .inl ⟨placed, rfl⟩
  | some place =>
      have ⟨n, path⟩ := place
      rw [found] at placed
      have ⟨adds, leads, heap, heapPath, children, present⟩ := placed
      dsimp only
      rw [bubbleStack_settles leads small heapPath present (settles _ found)]
      have ⟨u, done, heapU, same⟩ := bubble_spec leads small heap heapPath children present
      have adds : Adds a s t.intervals u.intervals := by
        rw [same]
        exact adds
      exact .inr ⟨u, done, inv.of_adds adds some_ small heapU, adds⟩

theorem findFrom_none (heap : t.Heap) (found : findFrom s t = none) :
    t = null ∨ ∀ x ∈ t.intervals, x.size < s := by
  rcases t with _ | ⟨key1, key2, l, r⟩
  · exact .inl rfl
  · rw [findFrom] at found
    split at found
    · rename_i less
      refine .inr fun x member => ?_
      have order := size_le_cnt heap member
      simp only [cnt] at order
      omega
    · split at found <;> cases found

theorem findFrom_some (inv : t.Inv) (some_ : 0 < s) (found : findFrom s t = some (a, u)) :
    u.Heap ∧ u.cnt ≤ t.cnt ∧ ∃ xs x ys, Taken a s t.intervals u.intervals xs x ys ∧
      ∀ y ∈ xs, y.size < s := by
  induction t generalizing u with
  | null => cases found
  | node key1 key2 l r ihl ihr =>
      obtain ⟨apart, positive, bounded, heap⟩ := inv
      obtain ⟨left, right, heapL, heapR⟩ := heap
      rw [findFrom] at found
      split at found
      · cases found
      · rename_i enough
        split at found
        · rename_i a' rest deeper
          cases found
          have invL : l.Inv := {
            separated := (separated_append.mp apart).1
            positive := fun x member => positive x (by simp [intervals, member])
            bounded := fun x member => bounded x (by simp [intervals, member])
            heap := heapL }
          obtain ⟨heapRest, least, xs, x, ys, taken, smaller⟩ := ihl invL deeper
          refine ⟨⟨by omega, right, heapRest, heapR⟩, Nat.le_refl _, xs, x,
            ys ++ ⟨key1, key2⟩ :: r.intervals, ⟨?_, ?_, taken.start, taken.enough⟩, smaller⟩
          · simp [intervals, taken.before]
          · simp [intervals, taken.after]
        · rename_i notLeft
          have smaller : ∀ y ∈ l.intervals, y.size < s := by
            intro y member
            rcases findFrom_none heapL notLeft with none_ | small
            · rw [none_] at member
              cases member
            · exact small y member
          have bound : key1 + key2 < 2 ^ 32 := bounded ⟨key1, key2⟩ (by simp [intervals])
          have start : add32 key1 s = key1 + s := add32_eq (by omega)
          have same := (Option.some.inj found)
          simp only [Prod.mk.injEq] at same
          obtain ⟨place, result⟩ := same
          subst place
          rw [start] at result
          split at result
          · rename_i rest
            obtain ⟨heapU, least⟩ := heap_lowerNode (key1 + s) (key2 - s) heapL heapR
            rw [result] at heapU least
            refine ⟨heapU, by rw [cnt_node]; omega, l.intervals, ⟨key1, key2⟩, r.intervals,
              ⟨rfl, ?_, rfl, by dsimp only; omega⟩, smaller⟩
            rw [← result, intervals_lowerNode, intervals, if_neg (by dsimp only; omega)]
            rfl
          · rename_i all
            obtain ⟨heapU, least⟩ := heap_removeNode (key1 + s) (key2 - s) heapL heapR
            rw [result] at heapU least
            refine ⟨heapU, by rw [cnt_node]; omega, l.intervals, ⟨key1, key2⟩, r.intervals,
              ⟨rfl, ?_, rfl, by dsimp only; omega⟩, smaller⟩
            rw [← result, intervals_removeNode, if_pos (by dsimp only; omega)]
            rfl

theorem Inv.of_taken {xs ys : List Interval} {x : Interval} (inv : t.Inv)
    (taken : Taken a s t.intervals u.intervals xs x ys) (heap : u.Heap) : u.Inv := by
  have member : x ∈ t.intervals := by
    rw [taken.before]
    simp
  have bound := inv.bounded x member
  have enough := taken.enough
  have start := taken.start
  unfold Interval.stop at bound
  have cases_ : ∀ y ∈ u.intervals, y ∈ t.intervals ∨
      x.size ≠ s ∧ y = ⟨a + s, x.size - s⟩ := by
    intro y inNew
    rw [taken.after] at inNew
    rw [taken.before]
    simp only [List.mem_append] at inNew
    rcases inNew with first | middle | last
    · exact .inl (by simp [first])
    · split at middle
      · cases middle
      · rename_i rest
        exact .inr ⟨rest, List.mem_singleton.mp middle⟩
    · exact .inl (by simp [last])
  refine ⟨taken.separated inv.separated, fun y inNew => ?_, fun y inNew => ?_, heap⟩
  · rcases cases_ y inNew with old | ⟨rest, same⟩
    · exact inv.positive y old
    · rw [same]
      dsimp only
      omega
  · rcases cases_ y inNew with old | ⟨rest, same⟩
    · exact inv.bounded y old
    · rw [same]
      unfold Interval.stop
      dsimp only
      omega

/-! `DeleteNodeIfSatisfy`. -/

/-- Nodes are kept in order; those removed were asked about and said to be removed. -/
structure Deletes (callback : Callback) (removed : List Interval) (t : CartesianTree)
    (deletion : Deletion) : Prop where
  sublist : deletion.tree.intervals.Sublist t.intervals
  parts : (deletion.tree.intervals ++ deletion.removed).Perm (t.intervals ++ removed)
  answers : ∀ x ∈ deletion.removed, x ∈ removed ∨ ∃ asked, callback asked x = true
  heap : deletion.tree.Heap
  least : deletion.tree.cnt ≤ t.cnt

theorem prune_spec (callback : Callback) (asked removed : List Interval) (heap : t.Heap) :
    Deletes callback removed t (prune callback asked removed t) ∧
      ∀ key1 key2 l r, (prune callback asked removed t).tree = node key1 key2 l r →
        ∃ asked, callback asked ⟨key1, key2⟩ = false := by
  fun_induction prune callback asked removed t with
  | case1 asked removed =>
      exact ⟨⟨List.Sublist.refl _, List.Perm.refl _, fun x member => .inl member, heap, Nat.le_refl _⟩,
        fun _ _ _ _ wrong => by cases wrong⟩
  | case2 asked removed key1 key2 l r said ih =>
      obtain ⟨left, right, heapL, heapR⟩ := heap
      obtain ⟨heapRest, least⟩ := heap_removeNode key1 key2 heapL heapR
      have same := intervals_removeNode key1 key2 l r
      obtain ⟨deletes, answered⟩ := ih heapRest
      obtain ⟨sublist, parts, answers, heapTree, leastTree⟩ := deletes
      rw [same] at sublist parts
      refine ⟨⟨sublist.trans ?_, parts.trans ?_, fun x member => ?_, heapTree, ?_⟩, answered⟩
      · exact List.Sublist.append (List.Sublist.refl _) (List.sublist_cons_self _ _)
      · rw [intervals]
        simp only [List.append_assoc, List.cons_append]
        refine List.Perm.append_left _ ?_
        exact List.perm_middle
      · rcases answers x member with old | yes
        · rcases List.mem_cons.mp old with here | before
          · rw [here]
            exact .inr ⟨asked, said⟩
          · exact .inl before
        · exact .inr yes
      · rw [cnt_node]
        omega
  | case3 asked removed key1 key2 l r said =>
      refine ⟨⟨List.Sublist.refl _, List.Perm.refl _, fun x member => .inl member, heap,
        Nat.le_refl _⟩, fun k1 k2 l' r' same => ?_⟩
      cases same
      exact ⟨asked, by simpa using said⟩

theorem deleteFrom_spec (callback : Callback) (pending : Nat) (asked removed : List Interval)
    (heap : t.Heap) {deletion : Deletion}
    (done : deleteFrom callback pending asked removed t = some deletion) :
    Deletes callback removed t deletion ∧
      ∀ x ∈ deletion.tree.intervals, ∃ asked, callback asked x = false := by
  fun_induction deleteFrom callback pending asked removed t generalizing deletion with
  | case1 pending asked removed t asked' removed' pruned =>
      have ⟨deletes, _⟩ := prune_spec callback asked removed heap
      rw [pruned] at deletes
      obtain rfl := Option.some.inj done
      exact ⟨deletes, fun x member => nomatch member⟩
  | case2 pending asked removed t asked' removed' key1 key2 l r pruned room noLeft ihl =>
      cases done
  | case3 pending asked removed t asked' removed' key1 key2 l r pruned room left foundL noRight
      ihl ihr =>
      cases done
  | case4 pending asked removed t asked' removed' key1 key2 l r pruned room left foundL right foundR
      ihl ihr =>
      obtain rfl := Option.some.inj done
      have ⟨deletes, answered⟩ := prune_spec callback asked removed heap
      rw [pruned] at deletes answered
      have ⟨sublist, parts, answers, ⟨belowL, belowR, heapL, heapR⟩, least⟩ := deletes
      have ⟨deletesL, keptL⟩ := ihl heapL foundL
      have ⟨deletesR, keptR⟩ := ihr heapR foundR
      dsimp only at sublist parts answers least
      refine ⟨⟨?_, ?_, fun x member => ?_, ?_, least⟩, fun x member => ?_⟩
      · refine List.Sublist.trans ?_ sublist
        exact List.Sublist.append deletesL.sublist (deletesR.sublist.cons_cons _)
      · refine List.Perm.trans ?_ parts
        have partsL := deletesL.parts
        have partsR := deletesR.parts
        simp only [intervals, List.append_assoc, List.cons_append]
        refine (List.Perm.append_left _ (List.Perm.cons _ partsR)).trans ?_
        refine List.perm_middle.trans (List.Perm.trans ?_ List.perm_middle.symm)
        refine List.Perm.cons _ ?_
        have first := List.perm_append_comm_assoc left.tree.intervals r.intervals left.removed
        have second := List.Perm.append_left r.intervals partsL
        have third := List.perm_append_comm_assoc r.intervals l.intervals removed'
        exact first.trans (second.trans third)
      · rcases deletesR.answers x member with old | yes
        · rcases deletesL.answers x old with older | yes
          · exact answers x older
          · exact .inr yes
        · exact .inr yes
      · have leastL := deletesL.least
        have leastR := deletesR.least
        exact ⟨leastL.trans belowL, leastR.trans belowR, deletesL.heap, deletesR.heap⟩
      · rcases List.mem_append.mp member with inLeft | later
        · exact keptL x inLeft
        · rcases List.mem_cons.mp later with here | inRight
          · rw [here]
            exact answered key1 key2 l r rfl
          · exact keptR x inRight
  | case5 pending asked removed t asked' removed' key1 key2 l r pruned full =>
      cases done

/-! Runs. -/

inductive Op where
  | mergeInsert (a s : Nat)
  | find (s : Nat)
  | deleteNodeIfSatisfy (callback : Callback)

def Op.apply : Op → CartesianTree → CartesianTree
  | .mergeInsert a s, t => (t.mergeInsert a s).2
  | .find s, t => ((t.find s).map (·.2)).getD t
  | .deleteNodeIfSatisfy callback, t => ((t.deleteNodeIfSatisfy callback).map (·.2)).getD t

def run (ops : List Op) : CartesianTree := ops.foldl (fun t op => op.apply t) null

abbrev pages (t : CartesianTree) : Set Nat := covers t.intervals

abbrev total (t : CartesianTree) : Nat := totalSize t.intervals

def Op.Exact : Op → CartesianTree → Prop
  | .mergeInsert a s, t =>
      (s = 0 ∨ ∃ p ∈ Set.Ico a (a + s), p ∈ t.pages) ∧ t.mergeInsert a s = (false, t) ∨
        ∃ u, t.mergeInsert a s = (true, u) ∧ 0 < s ∧ Disjoint t.pages (Set.Ico a (a + s)) ∧
          u.pages = t.pages ∪ Set.Ico a (a + s) ∧ u.total = t.total + s
  | .find s, t =>
      (s = 0 ∨ ∀ x ∈ t.intervals, x.size < s) ∧ t.find s = none ∨
        ∃ a u, t.find s = some (a, u) ∧ Set.Ico a (a + s) ⊆ t.pages ∧
          u.pages = t.pages \ Set.Ico a (a + s) ∧ u.total + s = t.total
  | .deleteNodeIfSatisfy callback, t =>
      ∃ removed u, t.deleteNodeIfSatisfy callback = some (removed.length, u) ∧
        (u.intervals ++ removed).Perm t.intervals ∧ u.pages = t.pages \ covers removed ∧
          u.total + totalSize removed = t.total ∧
            (∀ x ∈ removed, ∃ asked, callback asked x = true) ∧
              ∀ x ∈ u.intervals, ∃ asked, callback asked x = false

/-- An insertion ends below `2 ^ 32`, into the empty tree it is not of size 0, and its stack gives
back what it needs; the stack of a deletion stays in its array. -/
def Op.Fits : Op → CartesianTree → Prop
  | .mergeInsert a s, t =>
      a + s < 2 ^ 32 ∧ (t = null → 0 < s) ∧ Settles a s t
  | .find _, _ => True
  | .deleteNodeIfSatisfy callback, t => (t.deleteNodeIfSatisfy callback).isSome = true

theorem mergeInsert_step (inv : t.Inv) (small : a + s < 2 ^ 32) (some_ : t = null → 0 < s)
    (settles : Settles a s t) :
    (t.mergeInsert a s).2.Inv ∧ (Op.mergeInsert a s).Exact t := by
  unfold Op.Exact
  unfold mergeInsert
  rcases t with _ | ⟨key1, key2, l, r⟩
  · have size := some_ rfl
    refine ⟨?_, .inr ⟨_, rfl, size, ?_, ?_, ?_⟩⟩
    · refine ⟨by simp [intervals, Separated], fun x member => ?_, fun x member => ?_,
        ⟨Nat.zero_le _, Nat.zero_le _, trivial, trivial⟩⟩
      · simp only [intervals, List.nil_append, List.mem_singleton] at member
        rw [member]
        exact size
      · simp only [intervals, List.nil_append, List.mem_singleton] at member
        rw [member]
        exact small
    · simp [pages, intervals]
    · simp [pages, intervals, covers_cons, Interval.points, Interval.stop]
    · simp [total, intervals, totalSize]
  · dsimp only
    by_cases zero : s = 0
    · rw [if_pos zero]
      exact ⟨inv, .inl ⟨.inl zero, rfl⟩⟩
    · rw [if_neg zero]
      rcases mergeInsertInternal_spec inv (Nat.pos_of_ne_zero zero) small settles with
        ⟨overlap, failed⟩ | ⟨u, done, invU, xs, l', z, r', ys, joined⟩
      · rw [failed]
        exact ⟨inv, .inl ⟨.inr overlap, rfl⟩⟩
      · rw [done]
        refine ⟨invU, .inr ⟨u, rfl, Nat.pos_of_ne_zero zero, ?_, joined.covers_eq,
          joined.totalSize_eq⟩⟩
        rw [Set.disjoint_right]
        exact fun p inside => joined.disjoint inside

theorem find_step (inv : t.Inv) : ((Op.find s).apply t).Inv ∧ (Op.find s).Exact t := by
  simp only [Op.Exact, Op.apply, find]
  by_cases zero : s = 0
  · rw [if_pos zero]
    exact ⟨inv, .inl ⟨.inl zero, rfl⟩⟩
  · rw [if_neg zero]
    cases found : findFrom s t with
    | none =>
        refine ⟨inv, .inl ⟨.inr fun x member => ?_, rfl⟩⟩
        rcases findFrom_none inv.heap found with empty | small
        · rw [empty] at member
          cases member
        · exact small x member
    | some taken =>
        have ⟨a, u⟩ := taken
        have ⟨heapU, _, xs, x, ys, taken, _⟩ := findFrom_some inv (Nat.pos_of_ne_zero zero) found
        exact ⟨inv.of_taken taken heapU, .inr ⟨a, u, rfl, taken.subset,
          taken.covers_eq inv.separated, taken.totalSize_eq⟩⟩

/-- `Find` succeeds exactly where an interval is large enough, and takes the pages off the start of
the first such interval. -/
theorem find_firstFit (inv : t.Inv) (some_ : 0 < s) :
    ((t.find s).isSome = true ↔ ∃ x ∈ t.intervals, s ≤ x.size) ∧
      ∀ a u, t.find s = some (a, u) → u.Inv ∧ u.pages = t.pages \ Set.Ico a (a + s) ∧
        ∃ x ∈ t.intervals, x.start = a ∧ s ≤ x.size ∧
          ∀ y ∈ t.intervals, s ≤ y.size → a ≤ y.start := by
  have search : t.find s = findFrom s t := if_neg (Nat.ne_of_gt some_)
  rw [search]
  have taken : ∀ a u, findFrom s t = some (a, u) → u.Inv ∧ u.pages = t.pages \ Set.Ico a (a + s) ∧
      ∃ x ∈ t.intervals, x.start = a ∧ s ≤ x.size ∧
        ∀ y ∈ t.intervals, s ≤ y.size → a ≤ y.start := by
    intro a u found
    have ⟨heap, _, xs, x, ys, taken, smaller⟩ := findFrom_some inv some_ found
    have whole : t.intervals = xs ++ x :: ys := taken.before
    have member : x ∈ t.intervals := by rw [whole]; simp
    refine ⟨inv.of_taken taken heap, taken.covers_eq inv.separated, x, member, taken.start,
      taken.enough, fun y inTree enough => ?_⟩
    have apart : Separated (xs ++ x :: ys) := whole ▸ inv.separated
    have ⟨above, _⟩ := separated_cons.mp (separated_append.mp apart).2.1
    rw [whole] at inTree
    rcases List.mem_append.mp inTree with before | later
    · exact absurd (smaller y before) (Nat.not_lt.mpr enough)
    · rcases List.mem_cons.mp later with rfl | after
      · exact taken.start.ge
      · calc
          a = x.start := taken.start.symm
          _ ≤ x.stop := Nat.le_add_right _ _
          _ ≤ y.start := Nat.le_of_lt (above y after)
  refine ⟨⟨fun found => ?_, fun ⟨x, member, enough⟩ => ?_⟩, taken⟩
  · obtain ⟨⟨a, u⟩, found⟩ := Option.isSome_iff_exists.mp found
    have ⟨_, _, x, member, _, enough, _⟩ := taken a u found
    exact ⟨x, member, enough⟩
  · rw [← Option.not_isNone]
    cases found : findFrom s t with
    | none =>
        rcases findFrom_none inv.heap found with empty | small
        · rw [empty] at member
          cases member
        · exact absurd (small x member) (Nat.not_lt.mpr enough)
    | some _ => rfl

/-- The second of three intervals is the first that is large enough. -/
theorem find_firstFit_second :
    ((node 4 5 (node 1 2 null null) (node 12 4 null null)).find 3).isSome = true ↔
      ∃ x ∈ (node 4 5 (node 1 2 null null) (node 12 4 null null)).intervals, 3 ≤ x.size :=
  (find_firstFit (by
    refine ⟨?_, ?_, ?_, ?_⟩
    · simp [intervals, Separated, Interval.stop]
    · simp [intervals]
    · simp [intervals, Interval.stop]
    · simp [Heap]) (by decide)).1

theorem delete_step (inv : t.Inv) (callback : Callback)
    (room : (t.deleteNodeIfSatisfy callback).isSome = true) :
    ((Op.deleteNodeIfSatisfy callback).apply t).Inv ∧ (Op.deleteNodeIfSatisfy callback).Exact t := by
  obtain ⟨result, done⟩ := Option.isSome_iff_exists.mp room
  obtain ⟨deletion, found, rfl⟩ := Option.map_eq_some_iff.mp done
  have ⟨deletes, kept⟩ := deleteFrom_spec callback 0 [] [] inv.heap found
  have ⟨sublist, parts, answers, heap, _⟩ := deletes
  rw [List.append_nil] at parts
  refine ⟨?_, _, _, done, parts, covers_disjoint_of_perm inv.separated parts, ?_, fun x member => ?_,
    kept⟩
  · rw [Op.apply, done]
    exact {
      separated := inv.separated.sublist sublist
      positive := fun x member => inv.positive x (sublist.subset member)
      bounded := fun x member => inv.bounded x (sublist.subset member)
      heap := heap }
  · have sums := (parts.map Interval.size).sum_nat
    rw [List.map_append, List.sum_append] at sums
    exact sums
  · rcases answers x member with none | yes
    · cases none
    · exact yes

theorem step_spec (inv : t.Inv) (op : Op) (fits : op.Fits t) : (op.apply t).Inv ∧ op.Exact t := by
  cases op with
  | mergeInsert a s => exact mergeInsert_step inv fits.1 fits.2.1 fits.2.2
  | find s => exact find_step inv
  | deleteNodeIfSatisfy callback => exact delete_step inv callback fits

end PrimJs.CartesianTree
