import PrimJs.Gc.CartesianTreeRun

/-! `DeleteNodeIfSatisfy` with a predicate, and the room its stack needs. -/

namespace PrimJs.CartesianTree

variable {t l r : CartesianTree} {p : Interval → Bool}

def keepRoot (p : Interval → Bool) : CartesianTree → CartesianTree
  | null => null
  | node key1 key2 l r =>
      if p ⟨key1, key2⟩ then keepRoot p (removeNode (node key1 key2 l r)) else node key1 key2 l r
termination_by t => t.nodes
decreasing_by
  rw [removeNode_nodes]
  simp only [nodes]
  omega

theorem prune_tree (p : Interval → Bool) (asked removed : List Interval) (t : CartesianTree) :
    (prune (fun _ => p) asked removed t).tree = keepRoot p t := by
  fun_induction prune (fun _ => p) asked removed t with
  | case1 => rw [keepRoot]
  | case2 asked removed key1 key2 l r said ih => rw [keepRoot, if_pos said, ih]
  | case3 asked removed key1 key2 l r said => rw [keepRoot, if_neg said]

theorem keepRoot_nodes (p : Interval → Bool) (t : CartesianTree) :
    (keepRoot p t).nodes ≤ t.nodes := by
  rw [← prune_tree p [] [] t]
  exact prune_nodes _ _ _ t

/-- The most nodes of those kept in whose left subtrees the walk is at once. -/
def stackDepth (p : Interval → Bool) (t : CartesianTree) : Nat :=
  match _kept : keepRoot p t with
  | null => 0
  | node _ _ l r => max (stackDepth p l + 1) (stackDepth p r)
termination_by t.nodes
decreasing_by
  all_goals
    have fewer := keepRoot_nodes p t
    rw [_kept] at fewer
    simp only [nodes] at fewer
    omega

theorem stackDepth_null (kept : keepRoot p t = null) : stackDepth p t = 0 := by
  rw [stackDepth]
  split
  next => rfl
  next same => cases kept.symm.trans same

theorem stackDepth_node {key1 key2 : Nat} (kept : keepRoot p t = node key1 key2 l r) :
    stackDepth p t = max (stackDepth p l + 1) (stackDepth p r) := by
  rw [stackDepth]
  split
  next same => cases kept.symm.trans same
  next same =>
    cases kept.symm.trans same
    rfl

/-- The walk ends exactly where its stack has room. -/
theorem deleteFrom_isSome_iff (p : Interval → Bool) (pending : Nat) (asked removed : List Interval)
    (t : CartesianTree) (room : pending ≤ kLocalLength) :
    (deleteFrom (fun _ => p) pending asked removed t).isSome = true ↔
      pending + stackDepth p t ≤ kLocalLength := by
  fun_induction deleteFrom (fun _ => p) pending asked removed t with
  | case1 pending asked removed t asked' removed' pruned =>
      have kept := prune_tree p asked removed t
      rw [pruned] at kept
      rw [stackDepth_null kept.symm]
      exact iff_of_true rfl room
  | case2 pending asked removed t asked' removed' key1 key2 l r pruned room' noLeft ihl =>
      have kept := prune_tree p asked removed t
      rw [pruned] at kept
      rw [stackDepth_node kept.symm]
      have left := ihl room'
      rw [noLeft] at left
      refine iff_of_false Bool.false_ne_true fun fits => ?_
      exact Bool.false_ne_true (left.mpr (by omega))
  | case3 pending asked removed t asked' removed' key1 key2 l r pruned room' left foundL noRight
      ihl ihr =>
      have kept := prune_tree p asked removed t
      rw [pruned] at kept
      rw [stackDepth_node kept.symm]
      have right := ihr room
      rw [noRight] at right
      refine iff_of_false Bool.false_ne_true fun fits => ?_
      exact Bool.false_ne_true (right.mpr (by omega))
  | case4 pending asked removed t asked' removed' key1 key2 l r pruned room' left foundL right foundR
      ihl ihr =>
      have kept := prune_tree p asked removed t
      rw [pruned] at kept
      rw [stackDepth_node kept.symm]
      have fitsL := ihl room'
      have fitsR := ihr room
      rw [foundL] at fitsL
      rw [foundR] at fitsR
      have left := fitsL.mp rfl
      have right := fitsR.mp rfl
      exact iff_of_true rfl (by omega)
  | case5 pending asked removed t asked' removed' key1 key2 l r pruned full =>
      have kept := prune_tree p asked removed t
      rw [pruned] at kept
      rw [stackDepth_node kept.symm]
      exact iff_of_false Bool.false_ne_true (by omega)

/-! Every node is asked about once. -/

def underRoot : CartesianTree → List Interval
  | null => []
  | node _ _ l r => l.intervals ++ r.intervals

theorem prune_asked (callback : Callback) (asked removed : List Interval) (t : CartesianTree) :
    ((prune callback asked removed t).asked ++ underRoot (prune callback asked removed t).tree).Perm
      (t.intervals ++ asked) := by
  fun_induction prune callback asked removed t with
  | case1 asked removed => simp [underRoot, intervals]
  | case2 asked removed key1 key2 l r _ ih =>
      rw [intervals_removeNode] at ih
      refine ih.trans ?_
      rw [intervals, List.append_assoc, List.append_assoc, List.cons_append]
      exact List.Perm.append_left _ List.perm_middle
  | case3 asked removed key1 key2 l r _ =>
      have asks : (asked ++ (l.intervals ++ r.intervals)).Perm (l.intervals ++ (r.intervals ++ asked)) :=
        (List.perm_append_comm).trans (by rw [List.append_assoc])
      rw [underRoot, intervals, List.append_assoc, List.cons_append, List.cons_append]
      exact (asks.cons _).trans List.perm_middle.symm

theorem deleteFrom_asked (callback : Callback) (pending : Nat) (asked removed : List Interval)
    (t : CartesianTree) {deletion : Deletion}
    (done : deleteFrom callback pending asked removed t = some deletion) :
    deletion.asked.Perm (t.intervals ++ asked) := by
  fun_induction deleteFrom callback pending asked removed t generalizing deletion with
  | case1 pending asked removed t asked' removed' pruned =>
      have asks := prune_asked callback asked removed t
      rw [pruned] at asks
      obtain rfl := Option.some.inj done
      simpa [underRoot] using asks
  | case2 => cases done
  | case3 => cases done
  | case4 pending asked removed t asked' removed' key1 key2 l r pruned room left foundL right foundR
      ihl ihr =>
      have asks := prune_asked callback asked removed t
      rw [pruned] at asks
      obtain rfl := Option.some.inj done
      refine List.Perm.trans ?_ asks
      have asksL := ihl foundL
      have asksR := ihr foundR
      dsimp only [underRoot] at *
      calc
        right.asked.Perm (r.intervals ++ left.asked) := asksR
        List.Perm _ (left.asked ++ r.intervals) := List.perm_append_comm
        List.Perm _ (l.intervals ++ asked' ++ r.intervals) := asksL.append_right _
        List.Perm _ (asked' ++ l.intervals ++ r.intervals) := List.perm_append_comm.append_right _
        List.Perm _ (asked' ++ (l.intervals ++ r.intervals)) := by rw [List.append_assoc]
  | case5 => cases done

/-- What `DeleteNodeIfSatisfy` is to do with a predicate. -/
def Removes (p : Interval → Bool) (t : CartesianTree) : Prop :=
  ∃ deletion, deleteFrom (fun _ => p) 0 [] [] t = some deletion ∧
    t.deleteNodeIfSatisfy (fun _ => p) = some (t.intervals.countP p, deletion.tree) ∧
      deletion.asked.Perm t.intervals ∧
        deletion.tree.intervals = t.intervals.filter (fun x => !p x) ∧ deletion.tree.Inv

theorem removes_of_done (inv : t.Inv) {deletion : Deletion}
    (done : deleteFrom (fun _ => p) 0 [] [] t = some deletion) : Removes p t := by
  have ⟨deletes, keeps⟩ := deleteFrom_spec (fun _ => p) 0 [] [] inv.heap done
  have asked := deleteFrom_asked (fun _ => p) 0 [] [] t done
  have ⟨sublist, parts, answers, heap, _⟩ := deletes
  rw [List.append_nil] at asked parts
  have yes : ∀ x ∈ deletion.removed, p x = true := fun x member => by
    rcases answers x member with wrong | ⟨_, said⟩
    · cases wrong
    · exact said
  have no : ∀ x ∈ deletion.tree.intervals, p x = false := fun x member => by
    have ⟨_, said⟩ := keeps x member
    exact said
  have none_ : deletion.tree.intervals.countP p = 0 :=
    List.countP_eq_zero.mpr fun x member => by rw [no x member]; exact Bool.false_ne_true
  have all : deletion.removed.countP p = deletion.removed.length := List.countP_eq_length.mpr yes
  have count : deletion.removed.length = t.intervals.countP p := by
    rw [← parts.countP_eq, List.countP_append, none_, all, Nat.zero_add]
  refine ⟨deletion, done, ?_, asked, ?_, ?_⟩
  · rw [deleteNodeIfSatisfy, done, Option.map_some, count]
  · have within : deletion.tree.intervals.Sublist (t.intervals.filter fun x => !p x) := by
      have kept : deletion.tree.intervals.filter (fun x => !p x) = deletion.tree.intervals :=
        List.filter_eq_self.mpr fun x member => by rw [no x member]; rfl
      rw [← kept]
      exact sublist.filter _
    refine within.eq_of_length ?_
    have lengths := parts.length_eq
    have split_ : t.intervals.length =
        t.intervals.countP p + t.intervals.countP fun x => !p x := by
      rw [List.length_eq_countP_add_countP p]
      simp
    rw [List.length_append, count] at lengths
    rw [← List.countP_eq_length_filter]
    omega
  · exact {
      separated := inv.separated.sublist sublist
      positive := fun x member => inv.positive x (sublist.subset member)
      bounded := fun x member => inv.bounded x (sublist.subset member)
      heap := heap }

/-- It does so exactly where the stack has room for the walk. -/
theorem removes_iff (inv : t.Inv) (p : Interval → Bool) :
    Removes p t ↔ stackDepth p t ≤ kLocalLength := by
  have room := deleteFrom_isSome_iff p 0 [] [] t (Nat.zero_le _)
  rw [Nat.zero_add] at room
  rw [← room]
  constructor
  · rintro ⟨deletion, done, _⟩
    rw [done]
    rfl
  · intro ends
    obtain ⟨deletion, done⟩ := Option.isSome_iff_exists.mp ends
    exact removes_of_done inv done

/-- Pages that were given back from the last to the first, every other one. -/
def leftChain : Nat → CartesianTree
  | 0 => null
  | n + 1 => node (2 * n) 1 (leftChain n) null

theorem mem_leftChain (n : Nat) : ∀ x ∈ (leftChain n).intervals, x.size = 1 ∧ x.stop < 2 * n := by
  induction n with
  | zero => exact fun x member => nomatch member
  | succ n ih =>
      intro x member
      rcases List.mem_append.mp member with before | last
      · have ⟨size, stop⟩ := ih x before
        exact ⟨size, by omega⟩
      · obtain rfl := List.mem_singleton.mp last
        exact ⟨rfl, by unfold Interval.stop; dsimp only; omega⟩

theorem leftChain_inv {n : Nat} (few : 2 * n ≤ 2 ^ 32) : (leftChain n).Inv where
  separated := by
    clear few
    induction n with
    | zero => exact List.Pairwise.nil
    | succ n ih =>
        refine separated_append.mpr ⟨ih, List.pairwise_singleton _ _, fun x member y last => ?_⟩
        obtain rfl := List.mem_singleton.mp last
        exact (mem_leftChain n x member).2
  positive x member := (mem_leftChain n x member).1 ▸ Nat.one_pos
  bounded x member := (mem_leftChain n x member).2.trans_le few
  heap := by
    clear few
    induction n with
    | zero => trivial
    | succ n ih =>
        refine ⟨?_, Nat.zero_le _, ih, trivial⟩
        cases n with
        | zero => exact Nat.zero_le _
        | succ n => exact Nat.le_refl _

theorem stackDepth_leftChain (n : Nat) : stackDepth (fun _ => false) (leftChain n) = n := by
  induction n with
  | zero => exact stackDepth_null (by rw [leftChain, keepRoot])
  | succ n ih =>
      have kept : keepRoot (fun _ => false) (leftChain (n + 1)) = node (2 * n) 1 (leftChain n) null := by
        rw [leftChain, keepRoot, if_neg Bool.false_ne_true]
      have leaf : stackDepth (fun _ => false) null = 0 := stackDepth_null (by rw [keepRoot])
      rw [stackDepth_node kept, ih, leaf, Nat.max_zero]

theorem removes_iff_threePages :
    Removes (fun _ => false) (leftChain 3) ↔ stackDepth (fun _ => false) (leftChain 3) ≤ kLocalLength :=
  removes_iff (leftChain_inv (by decide)) _

/-- One node more than the array has room for, all on the way down to the left. -/
theorem removes_overflows : ¬ ∀ (t : CartesianTree) (p : Interval → Bool), t.Inv → Removes p t := by
  intro claim
  have inv : (leftChain (kLocalLength + 1)).Inv := leftChain_inv (by decide)
  have fits := (removes_iff inv _).mp (claim _ (fun _ => false) inv)
  rw [stackDepth_leftChain] at fits
  exact Nat.not_succ_le_self _ fits

end PrimJs.CartesianTree
