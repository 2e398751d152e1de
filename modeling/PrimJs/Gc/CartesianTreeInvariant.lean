import PrimJs.Gc.CartesianTree

/-! What the operations of the tree keep: its intervals from left to right, their order, and the
heap on their sizes. -/

namespace PrimJs.CartesianTree

def intervals : CartesianTree → List Interval
  | null => []
  | node key1 key2 l r => l.intervals ++ ⟨key1, key2⟩ :: r.intervals

def Heap : CartesianTree → Prop
  | null => True
  | node _ key2 l r => l.cnt ≤ key2 ∧ r.cnt ≤ key2 ∧ l.Heap ∧ r.Heap

/-- The children of the root are at most of size `c`. -/
def ChildrenAtMost (c : Nat) : CartesianTree → Prop
  | null => True
  | node _ _ l r => l.cnt ≤ c ∧ r.cnt ≤ c

structure Inv (t : CartesianTree) : Prop where
  separated : Separated t.intervals
  positive : ∀ x ∈ t.intervals, 0 < x.size
  bounded : ∀ x ∈ t.intervals, x.stop < 2 ^ 32
  heap : t.Heap

variable {t l r : CartesianTree} {key1 key2 a s m c : Nat} {path : List Frame} {f : Frame}

theorem inv_null : Inv null where
  separated := List.Pairwise.nil
  positive _ member := nomatch member
  bounded _ member := nomatch member
  heap := trivial

theorem heap_null : Heap null := trivial

@[simp] theorem cnt_null : cnt null = 0 := rfl

@[simp] theorem cnt_node (key1 key2 : Nat) (l r : CartesianTree) :
    (node key1 key2 l r).cnt = key2 := rfl

theorem add32_eq (small : key1 + key2 < 2 ^ 32) : add32 key1 key2 = key1 + key2 :=
  Nat.mod_eq_of_lt small

/-- `RemoveNode` removes the root and nothing else. -/
theorem intervals_removeNode (key1 key2 : Nat) (l r : CartesianTree) :
    (removeNode (node key1 key2 l r)).intervals = l.intervals ++ r.intervals := by
  generalize same : node key1 key2 l r = t
  fun_induction removeNode t generalizing l r <;> cases same
  · simp [intervals]
  · rename_i ih
    simp [intervals, ih _ _ rfl]
  · rename_i ih
    simp [intervals, ih _ _ rfl]
  · rename_i ih
    simp [intervals, ih _ _ rfl]
  · rename_i ih
    simp [intervals, ih _ _ rfl]

theorem heap_removeNode (key1 key2 : Nat) (left : l.Heap) (right : r.Heap) :
    (removeNode (node key1 key2 l r)).Heap ∧
      (removeNode (node key1 key2 l r)).cnt ≤ max l.cnt r.cnt := by
  generalize same : node key1 key2 l r = t
  fun_induction removeNode t generalizing l r <;> cases same
  · exact ⟨trivial, Nat.zero_le _⟩
  · rename_i k1 k2 l' r' ih
    obtain ⟨below, below', heapL, heapR⟩ := right
    obtain ⟨heap, least⟩ := ih heap_null heapL rfl
    simp only [cnt, Heap] at *
    exact ⟨⟨by omega, below', heap, heapR⟩, by omega⟩
  · rename_i k1 k2 l' r' ih
    obtain ⟨below, below', heapL, heapR⟩ := left
    obtain ⟨heap, least⟩ := ih heapR heap_null rfl
    simp only [cnt, Heap] at *
    exact ⟨⟨below, by omega, heapL, heap⟩, by omega⟩
  · rename_i less ih
    obtain ⟨below, below', heapL, heapR⟩ := right
    obtain ⟨heap, least⟩ := ih left heapL rfl
    simp only [cnt, Heap] at *
    exact ⟨⟨by omega, below', heap, heapR⟩, by omega⟩
  · rename_i notLess ih
    obtain ⟨below, below', heapL, heapR⟩ := left
    obtain ⟨heap, least⟩ := ih heapR right rfl
    simp only [cnt, Heap] at *
    exact ⟨⟨below, by omega, heapL, heap⟩, by omega⟩

@[simp] theorem intervals_lowerNode (t : CartesianTree) :
    (lowerNode t).intervals = t.intervals := by
  fun_induction lowerNode t <;> simp_all [intervals]

/-- `LowerNode` mends a heap whose root may be too small. -/
theorem heap_lowerNode (key1 key2 : Nat) (left : l.Heap) (right : r.Heap) :
    (lowerNode (node key1 key2 l r)).Heap ∧
      (lowerNode (node key1 key2 l r)).cnt ≤ max key2 (max l.cnt r.cnt) := by
  generalize same : node key1 key2 l r = t
  fun_induction lowerNode t generalizing l r with
  | case1 | case3 =>
      rename_i ih
      cases same
      obtain ⟨below, below', heapL, heapR⟩ := right
      obtain ⟨heap, least⟩ := ih left heapL rfl
      simp only [cnt, Heap] at *
      exact ⟨⟨by omega, below', heap, heapR⟩, by omega⟩
  | case2 =>
      rename_i ih
      cases same
      obtain ⟨below, below', heapL, heapR⟩ := left
      obtain ⟨heap, least⟩ := ih heapR right rfl
      simp only [cnt, Heap] at *
      exact ⟨⟨below, by omega, heapL, heap⟩, by omega⟩
  | case4 =>
      cases same
      exact ⟨⟨by simp only [cnt]; omega, by simp only [cnt]; omega, left, right⟩, Nat.le_max_left _ _⟩
  | case5 =>
      rename_i ih
      cases same
      obtain ⟨below, below', heapL, heapR⟩ := left
      obtain ⟨heap, least⟩ := ih heapR heap_null rfl
      simp only [cnt, Heap] at *
      exact ⟨⟨below, by omega, heapL, heap⟩, by omega⟩
  | case6 =>
      cases same
      exact ⟨⟨by simp only [cnt]; omega, Nat.zero_le _, left, right⟩, Nat.le_max_left _ _⟩
  | case7 =>
      rename_i ih
      cases same
      obtain ⟨below, below', heapL, heapR⟩ := right
      obtain ⟨heap, least⟩ := ih heap_null heapL rfl
      simp only [cnt, Heap] at *
      exact ⟨⟨by omega, below', heap, heapR⟩, by omega⟩
  | case8 =>
      cases same
      exact ⟨⟨Nat.zero_le _, by simp only [cnt]; omega, left, right⟩, Nat.le_max_left _ _⟩
  | case9 t notBoth notLeft notRight =>
      subst same
      rcases l with _ | ⟨k1, k2, l, r'⟩ <;> rcases r with _ | ⟨k1', k2', l', r⟩
      · exact ⟨⟨Nat.zero_le _, Nat.zero_le _, trivial, trivial⟩, Nat.le_max_left _ _⟩
      · exact (notRight _ _ _ _ _ _ rfl).elim
      · exact (notLeft _ _ _ _ _ _ rfl).elim
      · exact (notBoth _ _ _ _ _ _ _ _ _ _ rfl).elim

/-- No interval is larger than the root. -/
theorem size_le_cnt {x : Interval} (heap : t.Heap) (member : x ∈ t.intervals) : x.size ≤ t.cnt := by
  induction t with
  | null => cases member
  | node key1 key2 l r ihl ihr =>
      have ⟨left, right, heapL, heapR⟩ := heap
      simp only [cnt]
      rcases List.mem_append.mp member with inLeft | later
      · exact (ihl heapL inLeft).trans left
      · rcases List.mem_cons.mp later with here | inRight
        · rw [here]
        · exact (ihr heapR inRight).trans right

/-! The path from the root. -/

def beforePath : List Frame → List Interval
  | [] => []
  | f :: path =>
      beforePath path ++ if f.toLeft then [] else f.other.intervals ++ [⟨f.key1, f.key2⟩]

def afterPath : List Frame → List Interval
  | [] => []
  | f :: path =>
      (if f.toLeft then ⟨f.key1, f.key2⟩ :: f.other.intervals else []) ++ afterPath path

theorem intervals_plugAll (path : List Frame) (t : CartesianTree) :
    (plugAll path t).intervals = beforePath path ++ (t.intervals ++ afterPath path) := by
  induction path generalizing t with
  | nil => simp [plugAll, beforePath, afterPath]
  | cons f path ih =>
      rw [plugAll, ih, beforePath, afterPath, Frame.plug]
      split <;> simp [intervals]

/-- The path leads to where an interval from `a` to `m` belongs. -/
def PathTo (a m : Nat) (path : List Frame) : Prop :=
  ∀ f ∈ path, if f.toLeft then m < f.key1 else f.key1 + f.key2 < a

theorem PathTo.low (leads : PathTo a m path) (apart : Separated (beforePath path)) {x : Interval}
    (member : x ∈ beforePath path) : x.stop < a := by
  induction path with
  | nil => cases member
  | cons f path ih =>
      have here := leads f (by simp)
      rw [beforePath] at member apart
      have ⟨first, last, _⟩ := separated_append.mp apart
      rcases List.mem_append.mp member with earlier | inFrame
      · exact ih (fun g inPath => leads g (by simp [inPath])) first earlier
      · split at inFrame
        · cases inFrame
        · rename_i toRight
          rw [if_neg toRight] at here last
          rcases List.mem_append.mp inFrame with inOther | same
          · have below := (separated_append.mp last).2.2 x inOther ⟨f.key1, f.key2⟩ (by simp)
            dsimp only at below
            omega
          · rw [List.mem_singleton.mp same]
            exact here

theorem PathTo.high (leads : PathTo a m path) (apart : Separated (afterPath path)) {y : Interval}
    (member : y ∈ afterPath path) : m < y.start := by
  induction path with
  | nil => cases member
  | cons f path ih =>
      have here := leads f (by simp)
      rw [afterPath] at member apart
      have ⟨first, last, _⟩ := separated_append.mp apart
      rcases List.mem_append.mp member with inFrame | later
      · split at inFrame
        · rename_i toLeft
          rw [if_pos toLeft] at here first
          rcases List.mem_cons.mp inFrame with same | inOther
          · rw [same]
            exact here
          · have above := (separated_cons.mp first).1 y inOther
            unfold Interval.stop at above
            dsimp only at above
            omega
        · cases inFrame
      · exact ih (fun g inPath => leads g (by simp [inPath])) last later

def HeapPath : List Frame → Prop
  | [] => True
  | f :: path => f.other.Heap ∧ f.other.cnt ≤ f.key2 ∧ (∀ g ∈ path.head?, f.key2 ≤ g.key2) ∧
      HeapPath path

@[simp] theorem cnt_plug (f : Frame) (t : CartesianTree) : (f.plug t).cnt = f.key2 := by
  unfold Frame.plug
  split <;> rfl

theorem heap_plug : (f.plug t).Heap ↔
    t.Heap ∧ t.cnt ≤ f.key2 ∧ f.other.Heap ∧ f.other.cnt ≤ f.key2 := by
  unfold Frame.plug
  split <;> simp only [Heap] <;> tauto

theorem heap_plugAll : (plugAll path t).Heap ↔
    t.Heap ∧ HeapPath path ∧ ∀ f ∈ path.head?, t.cnt ≤ f.key2 := by
  induction path generalizing t with
  | nil => simp [plugAll, HeapPath]
  | cons f path ih =>
      rw [plugAll, ih, heap_plug, cnt_plug, HeapPath]
      simp only [List.head?_cons, Option.mem_def, Option.some.injEq, forall_eq']
      tauto

/-! Joining with a neighbour. -/

/-- What `MergeAt` finds behind `m` in the right subtree. -/
theorem takeNext_some {size : Nat} {rest : CartesianTree} (apart : Separated t.intervals)
    (heap : t.Heap) (found : takeNext m t = some (size, rest)) :
    rest.Heap ∧ rest.cnt ≤ t.cnt ∧ ∃ absorbed, t.intervals = absorbed ++ rest.intervals ∧
      size = totalSize absorbed ∧ (absorbed = [] ∨ ∃ y, absorbed = [y] ∧ y.start = m) ∧
        ∀ y ∈ rest.intervals, m < y.start := by
  induction t generalizing size rest with
  | null =>
      cases found
      exact ⟨trivial, Nat.le_refl _, [], rfl, rfl, .inl rfl, fun y member => nomatch member⟩
  | node key1 key2 l r ihl ihr =>
      obtain ⟨left, right, heapL, heapR⟩ := heap
      obtain ⟨apartL, apartR, across⟩ := separated_append.mp apart
      obtain ⟨above, _⟩ := separated_cons.mp apartR
      rw [takeNext] at found
      split at found
      · rename_i here
        split at found
        · cases found
        · rename_i leaf
          have none : l = null := not_not.mp leaf
          subst none
          cases found
          obtain ⟨heapRest, least⟩ := heap_removeNode key1 key2 heap_null heapR
          have same := intervals_removeNode key1 key2 null r
          refine ⟨heapRest, ?_, [⟨key1, key2⟩], ?_, ?_, .inr ⟨_, rfl, here⟩, fun y member => ?_⟩
          · change _ ≤ key2
            rw [cnt_null] at least
            omega
          · rw [same]
            simp [intervals]
          · simp [totalSize]
          · rw [same] at member
            have order := above y (by simpa [intervals] using member)
            unfold Interval.stop at order
            dsimp only at order
            omega
      · split at found
        · cases found
        · obtain ⟨⟨size', rest'⟩, deeper, same⟩ := Option.map_eq_some_iff.mp found
          cases same
          obtain ⟨heapRest, least, absorbed, split_, total, single, behind⟩ := ihl apartL heapL deeper
          refine ⟨⟨by omega, right, heapRest, heapR⟩, Nat.le_refl _, absorbed, ?_, total, single,
            fun y member => ?_⟩
          · rw [intervals, split_, intervals, List.append_assoc]
          · rcases List.mem_append.mp member with inRest | later
            · exact behind y inRest
            · rcases List.mem_cons.mp later with here | inRight
              · rw [here]
                dsimp only
                omega
              · have order := above y inRight
                unfold Interval.stop at order
                dsimp only at order
                omega

theorem takeNext_none (positive : ∀ x ∈ t.intervals, 0 < x.size) (apart : Separated t.intervals)
    (found : takeNext m t = none) : ∃ x ∈ t.intervals, x.start < m := by
  induction t with
  | null => cases found
  | node key1 key2 l r ihl ihr =>
      have ⟨apartL, _, across⟩ := separated_append.mp apart
      rw [takeNext] at found
      split at found
      · rename_i here
        split at found
        · rename_i some_
          -- the left child of the node at `m` ends before it
          rcases l with _ | ⟨k1, k2, l', r'⟩
          · exact (some_ rfl).elim
          · have member : (⟨k1, k2⟩ : Interval) ∈ (node k1 k2 l' r').intervals := by simp [intervals]
            have order := across _ member ⟨key1, key2⟩ (by simp)
            unfold Interval.stop at order
            dsimp only at order
            exact ⟨_, List.mem_append_left _ member, by dsimp only; omega⟩
        · cases found
      · split at found
        · rename_i before
          exact ⟨⟨key1, key2⟩, by simp [intervals], before⟩
        · have ⟨x, member, less⟩ := ihl (fun x member => positive x (by simp [intervals, member]))
            apartL (Option.map_eq_none_iff.mp found)
          exact ⟨x, by simp [intervals, member], less⟩

/-- What `MergeAt` finds before `a` in the left subtree. -/
theorem takePrevious_some {start size : Nat} {rest : CartesianTree} (apart : Separated t.intervals)
    (bounded : ∀ x ∈ t.intervals, x.stop < 2 ^ 32) (heap : t.Heap)
    (found : takePrevious a t = some (start, size, rest)) :
    rest.Heap ∧ rest.cnt ≤ t.cnt ∧ ∃ absorbed, t.intervals = rest.intervals ++ absorbed ∧
      size = totalSize absorbed ∧ (absorbed = [] ∧ start = a ∨
        ∃ x, absorbed = [x] ∧ x.stop = a ∧ start = x.start) ∧ ∀ x ∈ rest.intervals, x.stop < a := by
  induction t generalizing start size rest with
  | null =>
      cases found
      exact ⟨trivial, Nat.le_refl _, [], rfl, rfl, .inl ⟨rfl, rfl⟩, fun x member => nomatch member⟩
  | node key1 key2 l r ihl ihr =>
      obtain ⟨left, right, heapL, heapR⟩ := heap
      obtain ⟨apartL, apartR, across⟩ := separated_append.mp apart
      obtain ⟨above, apartRight⟩ := separated_cons.mp apartR
      have small : key1 + key2 < 2 ^ 32 := bounded ⟨key1, key2⟩ (by simp [intervals])
      rw [takePrevious, add32_eq small] at found
      have before : ∀ x ∈ l.intervals, x.stop < key1 := fun x member =>
        across x member ⟨key1, key2⟩ (by simp)
      split at found
      · rename_i here
        split at found
        · cases found
        · rename_i leaf
          have none : r = null := not_not.mp leaf
          subst none
          cases found
          obtain ⟨heapRest, least⟩ := heap_removeNode key1 key2 heapL heap_null
          have same := intervals_removeNode key1 key2 l null
          refine ⟨heapRest, ?_, [⟨key1, key2⟩], ?_, ?_, .inr ⟨_, rfl, here, rfl⟩,
            fun x member => ?_⟩
          · change _ ≤ key2
            rw [cnt_null] at least
            omega
          · rw [same]
            simp [intervals]
          · simp [totalSize]
          · rw [same] at member
            have order := before x (by simpa [intervals] using member)
            omega
      · split at found
        · cases found
        · obtain ⟨⟨start', size', rest'⟩, deeper, same⟩ := Option.map_eq_some_iff.mp found
          cases same
          obtain ⟨heapRest, least, absorbed, split_, total, single, below⟩ := ihr apartRight
            (fun x member => bounded x (by simp [intervals, member])) heapR deeper
          refine ⟨⟨left, by omega, heapL, heapRest⟩, Nat.le_refl _, absorbed, ?_, total, single,
            fun x member => ?_⟩
          · rw [intervals, split_, intervals, List.append_assoc, List.cons_append]
          · rcases List.mem_append.mp member with inLeft | later
            · have order := before x inLeft
              omega
            · rcases List.mem_cons.mp later with here | inRest
              · rw [here]
                unfold Interval.stop
                dsimp only
                omega
              · exact below x inRest

theorem takePrevious_none (positive : ∀ x ∈ t.intervals, 0 < x.size)
    (apart : Separated t.intervals) (bounded : ∀ x ∈ t.intervals, x.stop < 2 ^ 32)
    (found : takePrevious a t = none) : ∃ x ∈ t.intervals, a < x.stop := by
  induction t with
  | null => cases found
  | node key1 key2 l r ihl ihr =>
      have ⟨_, apartR, _⟩ := separated_append.mp apart
      have ⟨above, apartRight⟩ := separated_cons.mp apartR
      have small : key1 + key2 < 2 ^ 32 := bounded ⟨key1, key2⟩ (by simp [intervals])
      rw [takePrevious, add32_eq small] at found
      split at found
      · rename_i here
        split at found
        · rename_i some_
          rcases r with _ | ⟨k1, k2, l', r'⟩
          · exact (some_ rfl).elim
          · have member : (⟨k1, k2⟩ : Interval) ∈ (node k1 k2 l' r').intervals := by simp [intervals]
            have order := above _ member
            refine ⟨_, List.mem_append_right _ (List.mem_cons_of_mem _ member), ?_⟩
            unfold Interval.stop at *
            dsimp only at *
            omega
        · cases found
      · split at found
        · rename_i before
          exact ⟨⟨key1, key2⟩, by simp [intervals], before⟩
        · have ⟨x, member, less⟩ := ihr (fun x member => positive x (by simp [intervals, member]))
            apartRight (fun x member => bounded x (by simp [intervals, member]))
            (Option.map_eq_none_iff.mp found)
          exact ⟨x, by simp [intervals, member], less⟩

/-! Insertion. -/

/-- The interval list `new` is `old` with `[a, a + s)` added. -/
def Adds (a s : Nat) (old new : List Interval) : Prop :=
  ∃ xs l z r ys, Joined a s old new xs l z r ys

theorem Inv.of_adds {u : CartesianTree} (inv : t.Inv) (adds : Adds a s t.intervals u.intervals)
    (some_ : 0 < s) (small : a + s < 2 ^ 32) (heap : u.Heap) : u.Inv := by
  have ⟨xs, l, z, r, ys, joined⟩ := adds
  have size := joined.size_eq
  have kept : ∀ x ∈ u.intervals, x ∈ t.intervals ∨ x = z := by
    intro x member
    rw [joined.after] at member
    rw [joined.before]
    rcases List.mem_append.mp member with first | later
    · exact .inl (by simp [first])
    · rcases List.mem_cons.mp later with same | last
      · exact .inr same
      · exact .inl (by simp [last])
  refine ⟨joined.separated inv.separated, fun x member => ?_, fun x member => ?_, heap⟩
  · rcases kept x member with old | new
    · exact inv.positive x old
    · rw [new]
      omega
  · rcases kept x member with old | new
    · exact inv.bounded x old
    · rw [new]
      rcases joined.right with ⟨_, stop⟩ | ⟨y, single, _, stop⟩
      · omega
      · rw [stop]
        refine inv.bounded y ?_
        rw [joined.before, single]
        simp

/-- The state between the two loops: `n` holds the new interval, and only its size may be wrong
for its place. -/
structure Placed (whole n : CartesianTree) (a s : Nat) (path : List Frame) : Prop where
  adds : Adds a s whole.intervals (plugAll path n).intervals
  leads : PathTo a (a + s) path
  heap : n.Heap
  heapPath : HeapPath path
  children : ∀ f ∈ path.head?, ChildrenAtMost f.key2 n
  some : n ≠ null

section

variable {size : Nat} {rest : CartesianTree} (inv : (plugAll path (node key1 key2 l r)).Inv)
  (leads : PathTo a (a + s) path)

include inv leads

/-- `a` touches the end of the node. -/
theorem placed_next (some_ : 0 < s) (small : a + s < 2 ^ 32) (touches : a = key1 + key2)
    (found : takeNext (a + s) r = some (size, rest)) :
    Placed (plugAll path (node key1 key2 l r)) (node key1 (add32 (add32 key2 s) size) l rest) a s
      path := by
  have ⟨apart, positive, bounded, heap⟩ := inv
  have ⟨⟨left, right, heapL, heapR⟩, heapPath, head⟩ := heap_plugAll.mp heap
  rw [intervals_plugAll, intervals] at apart bounded
  have ⟨apartBefore, apartRest, acrossBefore⟩ := separated_append.mp apart
  have ⟨apartNode, apartAfter, acrossAfter⟩ := separated_append.mp apartRest
  have ⟨apartL, apartNodeR, acrossL⟩ := separated_append.mp apartNode
  have ⟨above, apartR⟩ := separated_cons.mp apartNodeR
  have ⟨heapRest, least, absorbed, split_, total, single, behind⟩ := takeNext_some apartR heapR found
  have stop : key1 + (key2 + s + size) < 2 ^ 32 := by
    rcases single with none | ⟨y, one, start⟩
    · simp only [none, totalSize, List.map_nil, List.sum_nil] at total
      omega
    · have bound := bounded y (by simp [split_, one])
      simp only [one, totalSize, List.map_cons, List.map_nil, List.sum_cons, List.sum_nil] at total
      unfold Interval.stop at bound
      omega
  have inner : add32 key2 s = key2 + s := add32_eq (by omega)
  have exact_ : add32 (add32 key2 s) size = key2 + s + size := by rw [inner, add32_eq (by omega)]
  rw [exact_]
  refine ⟨⟨beforePath path ++ l.intervals, [⟨key1, key2⟩], ⟨key1, key2 + s + size⟩, absorbed,
    rest.intervals ++ afterPath path, ?_, ?_, ?_, ?_, fun x member => ?_, fun y member => ?_⟩, leads,
    ⟨by omega, by omega, heapL, heapRest⟩, heapPath, fun f here => ?_, fun wrong => by cases wrong⟩
  · simp [intervals_plugAll, intervals, split_]
  · simp [intervals_plugAll, intervals]
  · exact .inr ⟨_, rfl, touches.symm, rfl⟩
  · rcases single with none | ⟨y, one, start⟩
    · refine .inl ⟨none, ?_⟩
      simp only [none, totalSize, List.map_nil, List.sum_nil] at total
      unfold Interval.stop
      dsimp only
      omega
    · refine .inr ⟨y, one, start, ?_⟩
      simp only [one, totalSize, List.map_cons, List.map_nil, List.sum_cons, List.sum_nil] at total
      unfold Interval.stop
      dsimp only
      omega
  · rcases List.mem_append.mp member with inBefore | inLeft
    · exact leads.low apartBefore inBefore
    · have order := acrossL x inLeft ⟨key1, key2⟩ (by simp)
      dsimp only at order
      omega
  · rcases List.mem_append.mp member with inRest | inAfter
    · exact behind y inRest
    · exact leads.high apartAfter inAfter
  · have most := head f here
    simp only [cnt] at most
    exact ⟨by omega, by omega⟩

/-- `a + s` touches the start of the node. -/
theorem placed_previous {start : Nat} (touches : a + s = key1)
    (found : takePrevious a l = some (start, size, rest)) :
    Placed (plugAll path (node key1 key2 l r)) (node start (add32 (add32 key2 s) size) rest r) a s
      path := by
  have ⟨apart, positive, bounded, heap⟩ := inv
  have ⟨⟨left, right, heapL, heapR⟩, heapPath, head⟩ := heap_plugAll.mp heap
  rw [intervals_plugAll, intervals] at apart bounded
  have ⟨apartBefore, apartRest, acrossBefore⟩ := separated_append.mp apart
  have ⟨apartNode, apartAfter, acrossAfter⟩ := separated_append.mp apartRest
  have ⟨apartL, apartNodeR, acrossL⟩ := separated_append.mp apartNode
  have ⟨above, apartR⟩ := separated_cons.mp apartNodeR
  have ⟨heapRest, least, absorbed, split_, total, single, below⟩ := takePrevious_some apartL
    (fun x member => bounded x (by simp [member])) heapL found
  have bound : key1 + key2 < 2 ^ 32 := bounded ⟨key1, key2⟩ (by simp)
  have startEq : start + size = a := by
    rcases single with ⟨none, start⟩ | ⟨x, one, stop, start⟩
    · simp only [none, totalSize, List.map_nil, List.sum_nil] at total
      omega
    · simp only [one, totalSize, List.map_cons, List.map_nil, List.sum_cons, List.sum_nil] at total
      unfold Interval.stop at stop
      omega
  have inner : add32 key2 s = key2 + s := add32_eq (by omega)
  have exact_ : add32 (add32 key2 s) size = key2 + s + size := by rw [inner, add32_eq (by omega)]
  rw [exact_]
  refine ⟨⟨beforePath path ++ rest.intervals, absorbed, ⟨start, key2 + s + size⟩, [⟨key1, key2⟩],
    r.intervals ++ afterPath path, ?_, ?_, ?_, ?_, fun x member => ?_, fun y member => ?_⟩, leads,
    ⟨by omega, by omega, heapRest, heapR⟩, heapPath, fun f here => ?_, fun wrong => by cases wrong⟩
  · simp [intervals_plugAll, intervals, split_]
  · simp [intervals_plugAll, intervals]
  · rcases single with ⟨none, here⟩ | ⟨x, one, stop, here⟩
    · exact .inl ⟨none, here⟩
    · exact .inr ⟨x, one, stop, here⟩
  · refine .inr ⟨_, rfl, touches.symm, ?_⟩
    unfold Interval.stop
    dsimp only
    omega
  · rcases List.mem_append.mp member with inBefore | inRest
    · exact leads.low apartBefore inBefore
    · exact below x inRest
  · rcases List.mem_append.mp member with inRight | inAfter
    · have order := above y inRight
      unfold Interval.stop at order
      dsimp only at order
      omega
    · exact leads.high apartAfter inAfter
  · have most := head f here
    simp only [cnt] at most
    exact ⟨by omega, by omega⟩

end

/-- The first loop puts the interval at its place, or finds that it overlaps another one. -/
theorem insertLoop_spec (inv : (plugAll path t).Inv) (leads : PathTo a (a + s) path) (some_ : 0 < s)
    (small : a + s < 2 ^ 32) :
    match insertLoop a s t path with
    | none => ∃ p ∈ Set.Ico a (a + s), p ∈ covers (plugAll path t).intervals
    | some (n, path') => Placed (plugAll path t) n a s path' := by
  have sum : add32 a s = a + s := add32_eq small
  induction t generalizing path with
  | null =>
      have ⟨apart, _, _, heap⟩ := inv
      have ⟨_, heapPath, _⟩ := heap_plugAll.mp heap
      rw [intervals_plugAll] at apart
      have ⟨apartBefore, apartRest, _⟩ := separated_append.mp apart
      rw [insertLoop]
      refine ⟨⟨beforePath path, [], ⟨a, s⟩, [], afterPath path, ?_, ?_, .inl ⟨rfl, rfl⟩,
        .inl ⟨rfl, rfl⟩, fun x member => leads.low apartBefore member,
        fun y member => leads.high apartRest member⟩, leads,
        ⟨Nat.zero_le _, Nat.zero_le _, trivial, trivial⟩, heapPath,
        fun f _ => ⟨Nat.zero_le _, Nat.zero_le _⟩, fun wrong => by cases wrong⟩
      · simp [intervals_plugAll, intervals]
      · simp [intervals_plugAll, intervals]
  | node key1 key2 l r ihl ihr =>
      have ⟨apart, positive, bounded, heap⟩ := inv
      rw [intervals_plugAll, intervals] at apart positive bounded
      have ⟨_, apartRest, _⟩ := separated_append.mp apart
      have ⟨apartNode, _, _⟩ := separated_append.mp apartRest
      have ⟨apartL, apartNodeR, acrossL⟩ := separated_append.mp apartNode
      have ⟨above, apartR⟩ := separated_cons.mp apartNodeR
      have bound : key1 + key2 < 2 ^ 32 := bounded ⟨key1, key2⟩ (by simp)
      have covered : ∀ x : Interval, x ∈ l.intervals ∨ x = ⟨key1, key2⟩ ∨ x ∈ r.intervals →
          ∀ p, x.start ≤ p → p < x.stop →
            p ∈ covers (plugAll path (node key1 key2 l r)).intervals := by
        intro x member p low high
        refine ⟨x, ?_, low, high⟩
        rw [intervals_plugAll, intervals]
        simp only [List.mem_append, List.mem_cons]
        tauto
      rw [insertLoop]
      unfold mergeAt
      rw [add32_eq bound, sum]
      dsimp only
      by_cases next : a = key1 + key2
      · rw [if_pos next]
        cases found : takeNext (a + s) r with
        | none =>
            have ⟨x, member, less⟩ := takeNext_none (fun x member => positive x (by simp [member]))
              apartR found
            have order := above x member
            have size := positive x (by simp [member])
            unfold Interval.stop at order
            dsimp only at order
            exact ⟨x.start, ⟨by omega, less⟩, covered x (.inr (.inr member)) _ (Nat.le_refl _)
              (by unfold Interval.stop; omega)⟩
        | some taken =>
            have ⟨size, rest⟩ := taken
            exact placed_next inv leads some_ small next found
      · rw [if_neg next]
        by_cases previous : a + s = key1
        · rw [if_pos previous]
          cases found : takePrevious a l with
          | none =>
              have ⟨x, member, less⟩ := takePrevious_none
                (fun x member => positive x (by simp [member])) apartL
                (fun x member => bounded x (by simp [member])) found
              have order := acrossL x member ⟨key1, key2⟩ (by simp)
              have size := positive x (by simp [member])
              dsimp only at order
              exact ⟨x.stop - 1, ⟨by omega, by omega⟩, covered x (.inl member) _
                (by unfold Interval.stop; omega) (by omega)⟩
          | some taken =>
              have ⟨start, size, rest⟩ := taken
              exact placed_previous inv leads previous found
        · rw [if_neg previous]
          dsimp only
          by_cases left : a + s < key1
          · rw [if_pos left]
            refine ihl inv fun f member => ?_
            rcases List.mem_cons.mp member with here | inPath
            · rw [here]
              exact left
            · exact leads f inPath
          · rw [if_neg left]
            by_cases right : key1 + key2 < a
            · rw [if_pos right]
              refine ihr inv fun f member => ?_
              rcases List.mem_cons.mp member with here | inPath
              · rw [here]
                exact right
              · exact leads f inPath
            · rw [if_neg right]
              have size : 0 < key2 := positive ⟨key1, key2⟩ (by simp)
              exact ⟨max a key1, ⟨by omega, by omega⟩, covered ⟨key1, key2⟩ (.inr (.inl rfl)) _
                (Nat.le_max_right _ _) (by unfold Interval.stop; dsimp only; omega)⟩

/-- The second loop mends the heap and keeps the intervals. -/
theorem bubble_spec (leads : PathTo a (a + s) path) (small : a + s < 2 ^ 32) (heap : t.Heap)
    (heapPath : HeapPath path) (children : ∀ f ∈ path.head?, ChildrenAtMost f.key2 t)
    (some_ : t ≠ null) : ∃ u, bubble a s t path = (true, u) ∧ u.Heap ∧
      u.intervals = (plugAll path t).intervals := by
  have sum : add32 a s = a + s := add32_eq small
  induction path generalizing t with
  | nil => exact ⟨t, rfl, heap, rfl⟩
  | cons f path ih =>
      obtain ⟨heapOther, least, order, heapRest⟩ := heapPath
      have here := leads f (by simp)
      have further : PathTo a (a + s) path := fun g member => leads g (by simp [member])
      have kids := children f rfl
      have settled : t.cnt ≤ f.key2 → (plugAll path (f.plug t)).Heap := by
        intro fits
        refine heap_plugAll.mpr ⟨heap_plug.mpr ⟨heap, fits, heapOther, least⟩, heapRest, ?_⟩
        rw [cnt_plug]
        exact order
      rcases t with _ | ⟨k1, k2, l, r⟩
      · exact (some_ rfl).elim
      · obtain ⟨heapLeft, heapRight, heapL, heapR⟩ := heap
        obtain ⟨kidL, kidR⟩ := kids
        obtain ⟨toLeft, key1, key2, other⟩ := f
        dsimp only at *
        rw [bubble, sum]
        dsimp only
        cases toLeft with
        | true =>
            rw [if_pos rfl] at here
            rw [if_pos here, if_pos rfl]
            split
            · rename_i larger
              simp only [cnt] at larger
              refine (ih (t := node k1 k2 l (node key1 key2 r other)) further
                ⟨heapLeft, by simp only [cnt]; omega, heapL, kidR, least, heapR, heapOther⟩ heapRest
                (fun g member => ?_) (fun wrong => by cases wrong)).imp fun u spec => ?_
              · have up := order g member
                exact ⟨by omega, up⟩
              · obtain ⟨done, heapU, same⟩ := spec
                refine ⟨done, heapU, ?_⟩
                rw [same, plugAll, intervals_plugAll, intervals_plugAll]
                simp [Frame.plug, intervals]
            · rename_i fits
              exact ⟨_, rfl, settled (by omega), rfl⟩
        | false =>
            rw [if_neg (by decide)] at here
            rw [if_neg (by omega), add32_eq (by omega), if_pos here]
            simp only [Bool.false_eq_true, if_false]
            split
            · rename_i larger
              simp only [cnt] at larger
              refine (ih (t := node k1 k2 (node key1 key2 other l) r) further
                ⟨by simp only [cnt]; omega, heapRight, ⟨least, kidL, heapOther, heapL⟩, heapR⟩ heapRest
                (fun g member => ?_) (fun wrong => by cases wrong)).imp fun u spec => ?_
              · have up := order g member
                exact ⟨up, by omega⟩
              · obtain ⟨done, heapU, same⟩ := spec
                refine ⟨done, heapU, ?_⟩
                rw [same, plugAll, intervals_plugAll, intervals_plugAll]
                simp [Frame.plug, intervals]
            · rename_i fits
              exact ⟨_, rfl, settled (by omega), rfl⟩

/-! The stack of the second loop. -/

theorem pushLinks_spec (sud : SingleUseDeque Nat) (n : Nat) :
    (pushLinks sud n).Inv ∧ (pushLinks sud n).content = List.range n ∧
      (pushLinks sud n).front = 0 := by
  induction n with
  | zero => exact ⟨LocalDeque.inv_ofSud _ _, LocalDeque.content_ofSud _ _, rfl⟩
  | succ n ih =>
      obtain ⟨inv, content, front⟩ := ih
      obtain ⟨inv', more⟩ := LocalDeque.push_spec inv n
      refine ⟨inv', ?_, (LocalDeque.push_front n).trans front⟩
      rw [pushLinks, more, content, List.range_succ]

/-- A path of at most one link more than the array has room for is given back link by link. -/
theorem bubbleStack_eq {stack : LocalDeque Nat} (inv : stack.Inv) (front : stack.front = 0)
    (content : stack.content = List.range path.length) (short : path.length ≤ kLocalLength + 1) :
    bubbleStack a s path.length t path stack = bubble a s t path := by
  induction path generalizing t stack with
  | nil => rfl
  | cons f path ih =>
      have some_ : stack.content ≠ [] := by simp [content]
      have notEmpty : stack.empty = false := by
        rw [← Bool.not_eq_true, LocalDeque.empty_iff inv]
        exact some_
      have fits : stack.PopFits := by
        refine LocalDeque.popFits_of_length front ?_
        rw [content, List.length_range]
        exact short
      obtain ⟨inv', last⟩ := LocalDeque.pop_spec inv some_ fits
      rw [content, List.length_cons, List.range_succ] at last
      obtain ⟨rest, top⟩ := List.append_inj' last rfl
      have top : stack.getTop = path.length := (List.singleton_inj.mp top).symm
      have next : ∀ u, bubbleStack a s path.length u path stack.pop = bubble a s u path := fun u =>
        ih inv' (LocalDeque.pop_front.trans front) rest.symm (by
          rw [List.length_cons] at short
          omega)
      rw [List.length_cons, bubbleStack, notEmpty, top, List.length_cons, Nat.sub_self]
      simp only [Bool.false_eq_true, if_false, List.take_zero, plugAll, List.drop_zero, next]
      rw [bubble]

theorem plugAll_append (path path' : List Frame) (t : CartesianTree) :
    plugAll (path ++ path') t = plugAll path' (plugAll path t) := by
  induction path generalizing t with
  | nil => rfl
  | cons f path ih => exact ih (f.plug t)

/-- A subtree further up the path is no larger than its parent either. -/
theorem cnt_plugAll_take (heapPath : HeapPath path) (fits : ∀ f ∈ path.head?, t.cnt ≤ f.key2) (k : Nat) :
    ∀ f ∈ (path.drop k).head?, (plugAll (path.take k) t).cnt ≤ f.key2 := by
  induction k generalizing path t with
  | zero => exact fits
  | succ k ih =>
      cases path with
      | nil => exact fun f member => nomatch member
      | cons g path =>
          have ⟨_, _, order, heapRest⟩ := heapPath
          exact ih heapRest (by rwa [cnt_plug])

/-- A step of the loop ends it at a parent that is no smaller. -/
theorem step_still {R : Type} (here : if f.toLeft then a + s < f.key1 else f.key1 + f.key2 < a)
    (small : a + s < 2 ^ 32) (fit : t.cnt ≤ f.key2) (left right stop wrong : R) :
    (if add32 a s < f.key1 then
      if f.key2 < (if f.toLeft then t else f.other).cnt then left else stop
    else if add32 f.key1 f.key2 < a then
      if f.key2 < (if f.toLeft then f.other else t).cnt then right else stop
    else wrong) = stop := by
  have sum : add32 a s = a + s := add32_eq small
  rw [sum]
  by_cases toLeft : f.toLeft = true
  · rw [if_pos toLeft] at here
    rw [if_pos here, if_pos toLeft, if_neg (Nat.not_lt.mpr fit)]
  · rw [if_neg toLeft] at here
    rw [if_neg (by omega), add32_eq (by omega), if_pos here, if_neg toLeft,
      if_neg (Nat.not_lt.mpr fit)]

/-- A node that is no larger than its parent stays where it is. -/
theorem bubble_still (leads : PathTo a (a + s) path) (small : a + s < 2 ^ 32)
    (fits : ∀ f ∈ path.head?, t.cnt ≤ f.key2) : bubble a s t path = (true, plugAll path t) := by
  cases path with
  | nil => rfl
  | cons f path => exact step_still (leads f (by simp)) small (fits f rfl) _ _ _ _

/-- So it does whatever link the stack gives. -/
theorem bubbleStack_still {stack : LocalDeque Nat} (inv : stack.Inv)
    (below : ∀ depth ∈ stack.content, depth < path.length) (leads : PathTo a (a + s) path)
    (small : a + s < 2 ^ 32) (heapPath : HeapPath path) (fits : ∀ f ∈ path.head?, t.cnt ≤ f.key2) :
    bubbleStack a s path.length t path stack = (true, plugAll path t) := by
  cases length : path.length with
  | zero => rfl
  | succ fuel =>
      rw [bubbleStack]
      by_cases none_ : stack.empty = true
      · rw [if_pos none_]
      · rw [if_neg none_]
        have some_ : stack.content ≠ [] := fun wrong =>
          none_ ((LocalDeque.empty_iff inv).mpr wrong)
        have top := below _ (List.mem_of_getLast? (LocalDeque.getLast?_content inv some_))
        dsimp only
        generalize skips : path.length - (stack.getTop + 1) = skipped
        have least := cnt_plugAll_take heapPath fits skipped
        have whole : plugAll (path.drop skipped) (plugAll (path.take skipped) t) = plugAll path t := by
          rw [← plugAll_append, List.take_append_drop]
        cases rest : path.drop skipped with
        | nil =>
            have none_ := congrArg List.length rest
            rw [List.length_drop, List.length_nil] at none_
            omega
        | cons f above =>
            have here := leads f (List.mem_of_mem_drop (rest ▸ List.mem_cons_self))
            have fit := least f (by rw [rest]; rfl)
            rw [rest] at whole
            rw [← whole]
            exact step_still here small fit _ _ _ _

theorem cnt_rotateLeft_plug (some_ : t ≠ null) (toLeft : f.toLeft = true) :
    (rotateLeft (f.plug t)).cnt = t.cnt := by
  rcases t with _ | ⟨key1, key2, l, r⟩
  · exact absurd rfl some_
  · rw [Frame.plug, if_pos toLeft]
    rfl

theorem cnt_rotateRight_plug (some_ : t ≠ null) (toRight : f.toLeft = false) :
    (rotateRight (f.plug t)).cnt = t.cnt := by
  rcases t with _ | ⟨key1, key2, l, r⟩
  · exact absurd rfl some_
  · rw [Frame.plug, toRight, if_neg Bool.false_ne_true]
    rfl

/-- The stack does for the loop what the path would, where it gives all links back or the node
rises one level at most. -/
theorem bubbleStack_settles (leads : PathTo a (a + s) path) (small : a + s < 2 ^ 32)
    (heapPath : HeapPath path) (present : t ≠ null)
    (settles : path.length ≤ kLocalLength + 1 ∨ ∀ f ∈ path.tail.head?, t.cnt ≤ f.key2)
    (sud : SingleUseDeque Nat) :
    bubbleStack a s path.length t path (pushLinks sud path.length) = bubble a s t path := by
  have ⟨inv, content, front⟩ := pushLinks_spec sud path.length
  rcases settles with short | still
  · exact bubbleStack_eq inv front content short
  · cases path with
    | nil => rfl
    | cons f path =>
        generalize pushLinks sud (f :: path).length = stack at *
        have some_ : stack.content ≠ [] := by simp [content]
        have notEmpty : stack.empty = false := by
          rw [← Bool.not_eq_true, LocalDeque.empty_iff inv]
          exact some_
        have top : stack.getTop = path.length := by
          have last := LocalDeque.getLast?_content inv some_
          rw [content, List.length_cons, List.range_succ, List.getLast?_concat] at last
          exact (Option.some.inj last).symm
        have ⟨inv', rest, fewer⟩ := LocalDeque.pop_prefix inv some_
        have below : ∀ depth ∈ stack.pop.content, depth < path.length := by
          intro depth member
          rw [content, List.prefix_iff_eq_take, List.take_range] at rest
          rw [content, List.length_range, List.length_cons] at fewer
          rw [rest, List.mem_range, List.length_cons] at member
          omega
        have further : PathTo a (a + s) path := fun g member => leads g (by simp [member])
        have next : ∀ u : CartesianTree, u.cnt = t.cnt →
            bubbleStack a s path.length u path stack.pop = bubble a s u path := by
          intro u same
          rw [← same] at still
          rw [bubbleStack_still inv' below further small heapPath.2.2.2 still,
            bubble_still further small still]
        rw [List.length_cons, bubbleStack, notEmpty, top, List.length_cons, Nat.sub_self, bubble]
        simp only [Bool.false_eq_true, if_false, List.take_zero, plugAll, List.drop_zero]
        have here := leads f (by simp)
        rw [add32_eq small]
        by_cases toLeft : f.toLeft = true
        · rw [if_pos toLeft] at here
          rw [if_pos here, if_pos here, next _ (cnt_rotateLeft_plug present toLeft)]
        · rw [if_neg toLeft] at here
          have toRight := Bool.eq_false_iff.mpr toLeft
          have notLeft : ¬ a + s < f.key1 := by omega
          have stop : add32 f.key1 f.key2 = f.key1 + f.key2 := add32_eq (by omega)
          rw [stop, if_neg notLeft, if_neg notLeft, if_pos here, if_pos here,
            next _ (cnt_rotateRight_plug present toRight)]

/-- Where the search for the place of `(a, s)` goes deeper than the stack can give back, the node
rises one level at most. -/
def Settles (a s : Nat) (t : CartesianTree) : Prop :=
  ∀ place ∈ insertLoop a s t [], place.2.length ≤ kLocalLength + 1 ∨
    ∀ f ∈ place.2.tail.head?, place.1.cnt ≤ f.key2

instance (a s : Nat) (t : CartesianTree) : Decidable (Settles a s t) :=
  inferInstanceAs (Decidable (∀ place ∈ insertLoop a s t [], _))

section

variable (small : a + s < 2 ^ 32) (bounded : ∀ x ∈ t.intervals, x.stop < 2 ^ 32)
  (apart : ∀ x ∈ t.intervals, x.stop ≠ a ∧ a + s ≠ x.start)

include small bounded apart

/-- An interval that meets no other becomes a leaf below nodes of the tree. -/
theorem insertLoop_leaf (large : ∀ x ∈ t.intervals, c ≤ x.size) (above : ∀ f ∈ path, c ≤ f.key2)
    {place : CartesianTree × List Frame} (found : place ∈ insertLoop a s t path) :
    place.1.cnt = s ∧ ∀ f ∈ place.2, c ≤ f.key2 := by
  induction t generalizing path with
  | null =>
      obtain rfl := Option.some.inj found
      exact ⟨rfl, above⟩
  | node key1 key2 l r ihl ihr =>
      have bound : key1 + key2 < 2 ^ 32 := bounded ⟨key1, key2⟩ (by simp [intervals])
      have ⟨notNext, notPrevious⟩ := apart ⟨key1, key2⟩ (by simp [intervals])
      have enough : c ≤ key2 := large ⟨key1, key2⟩ (by simp [intervals])
      have miss : mergeAt key1 key2 l r a s = .miss := by
        unfold mergeAt
        rw [add32_eq bound, add32_eq small]
        exact (if_neg (Ne.symm notNext)).trans (if_neg notPrevious)
      have longer : ∀ toLeft other, ∀ f ∈ (⟨toLeft, key1, key2, other⟩ : Frame) :: path,
          c ≤ f.key2 := by
        intro toLeft other f member
        rcases List.mem_cons.mp member with rfl | inPath
        · exact enough
        · exact above f inPath
      rw [insertLoop, miss] at found
      dsimp only at found
      split at found
      · exact ihl (fun x member => bounded x (by simp [intervals, member]))
          (fun x member => apart x (by simp [intervals, member]))
          (fun x member => large x (by simp [intervals, member])) (longer true r) found
      · split at found
        · exact ihr (fun x member => bounded x (by simp [intervals, member]))
            (fun x member => apart x (by simp [intervals, member]))
            (fun x member => large x (by simp [intervals, member])) (longer false l) found
        · cases found

/-- So it settles if no other is smaller. -/
theorem settles_of_apart (large : ∀ x ∈ t.intervals, s ≤ x.size) : Settles a s t := by
  intro place found
  have none_ : ∀ f ∈ ([] : List Frame), s ≤ f.key2 := fun f member => nomatch member
  have ⟨size, above⟩ := insertLoop_leaf small bounded apart large none_ found
  refine .inr fun f member => ?_
  rw [size]
  exact above f (List.mem_of_mem_tail (List.mem_of_mem_head? member))

end

end PrimJs.CartesianTree
