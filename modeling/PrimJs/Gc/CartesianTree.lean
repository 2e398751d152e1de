import PrimJs.Foundation.Intervals
import PrimJs.Gc.LocalDeque

/-! `CartesianTree<uint32_t, uint32_t>`, the set of free page intervals: a search tree on the start
of an interval and a heap on its size. Keys are `uint32_t`. -/

namespace PrimJs

inductive CartesianTree where
  | null
  | node (key1 key2 : Nat) (l r : CartesianTree)
  deriving DecidableEq, Repr

namespace CartesianTree

def add32 (a b : Nat) : Nat := (a + b) % 2 ^ 32

/-- `key2` of the root, read where there is one. -/
def cnt : CartesianTree → Nat
  | null => 0
  | node _ key2 _ _ => key2

def nodes : CartesianTree → Nat
  | null => 0
  | node _ _ l r => l.nodes + r.nodes + 1

def rotateLeft : CartesianTree → CartesianTree
  | node key1 key2 (node k1 k2 l r) right => node k1 k2 l (node key1 key2 r right)
  | t => t

def rotateRight : CartesianTree → CartesianTree
  | node key1 key2 left (node k1 k2 l r) => node k1 k2 (node key1 key2 left l) r
  | t => t

/-- `RemoveNode`: the node is rotated below the larger of its children until it is a leaf. -/
def removeNode : CartesianTree → CartesianTree
  | null => null
  | node _ _ null null => null
  | node key1 key2 null (node k1 k2 l r) => node k1 k2 (removeNode (node key1 key2 null l)) r
  | node key1 key2 (node k1 k2 l r) null => node k1 k2 l (removeNode (node key1 key2 r null))
  | node key1 key2 (node k1 k2 l r) (node k1' k2' l' r') =>
      if k2 < k2' then node k1' k2' (removeNode (node key1 key2 (node k1 k2 l r) l')) r'
      else node k1 k2 l (removeNode (node key1 key2 r (node k1' k2' l' r')))
termination_by t => t.nodes
decreasing_by all_goals (simp only [nodes]; omega)

/-- `LowerNode`: the node is rotated down until no child is larger. -/
def lowerNode : CartesianTree → CartesianTree
  | node key1 key2 (node k1 k2 l r) (node k1' k2' l' r') =>
      if key2 < k2 then
        if k2 < k2' then node k1' k2' (lowerNode (node key1 key2 (node k1 k2 l r) l')) r'
        else node k1 k2 l (lowerNode (node key1 key2 r (node k1' k2' l' r')))
      else if key2 < k2' then node k1' k2' (lowerNode (node key1 key2 (node k1 k2 l r) l')) r'
      else node key1 key2 (node k1 k2 l r) (node k1' k2' l' r')
  | node key1 key2 (node k1 k2 l r) null =>
      if key2 < k2 then node k1 k2 l (lowerNode (node key1 key2 r null))
      else node key1 key2 (node k1 k2 l r) null
  | node key1 key2 null (node k1 k2 l r) =>
      if key2 < k2 then node k1 k2 (lowerNode (node key1 key2 null l)) r
      else node key1 key2 null (node k1 k2 l r)
  | t => t
termination_by t => t.nodes
decreasing_by all_goals (simp only [nodes]; omega)

inductive MergeResult where
  | success (merged : CartesianTree)
  | miss
  | error

/-- The walk of `MergeAt` to the node that starts at `m`: its size, 0 if there is none, and the
subtree without it; `none` is `kError`. -/
def takeNext (m : Nat) : CartesianTree → Option (Nat × CartesianTree)
  | null => some (0, null)
  | node key1 key2 l r =>
      if key1 = m then
        if l ≠ null then none else some (key2, removeNode (node key1 key2 l r))
      else if key1 < m then none
      else (takeNext m l).map fun (size, rest) => (size, node key1 key2 rest r)

/-- The walk to the node that ends at `a`: its start and size, `a` and 0 if there is none. -/
def takePrevious (a : Nat) : CartesianTree → Option (Nat × Nat × CartesianTree)
  | null => some (a, 0, null)
  | node key1 key2 l r =>
      if add32 key1 key2 = a then
        if r ≠ null then none else some (key1, key2, removeNode (node key1 key2 l r))
      else if a < add32 key1 key2 then none
      else (takePrevious a r).map fun (start, size, rest) => (start, size, node key1 key2 l rest)

def mergeAt (key1 key2 : Nat) (l r : CartesianTree) (a s : Nat) : MergeResult :=
  let m := add32 a s
  if a = add32 key1 key2 then
    match takeNext m r with
    | none => .error
    | some (size, rest) => .success (node key1 (add32 (add32 key2 s) size) l rest)
  else if m = key1 then
    match takePrevious a l with
    | none => .error
    | some (start, size, rest) => .success (node start (add32 (add32 key2 s) size) rest r)
  else .miss

/-- A step of the path from the root: a node, and which of its children the path leads to. -/
structure Frame where
  toLeft : Bool
  key1 : Nat
  key2 : Nat
  other : CartesianTree

def Frame.plug (f : Frame) (t : CartesianTree) : CartesianTree :=
  if f.toLeft then node f.key1 f.key2 t f.other else node f.key1 f.key2 f.other t

def plugAll : List Frame → CartesianTree → CartesianTree
  | [], t => t
  | f :: path, t => plugAll path (f.plug t)

/-- The loop that puts `(a, s)` at its place: the node that holds it and the path to it. -/
def insertLoop (a s : Nat) : CartesianTree → List Frame → Option (CartesianTree × List Frame)
  | null, path => some (node a s null null, path)
  | node key1 key2 l r, path =>
      match mergeAt key1 key2 l r a s with
      | .success merged => some (merged, path)
      | .error => none
      | .miss =>
          if add32 a s < key1 then insertLoop a s l (⟨true, key1, key2, r⟩ :: path)
          else if add32 key1 key2 < a then insertLoop a s r (⟨false, key1, key2, l⟩ :: path)
          else none

/-- The loop that moves the node up the path while it is larger than its parent, on a stack that
gives the links of the path back one by one. -/
def bubble (a s : Nat) : CartesianTree → List Frame → Bool × CartesianTree
  | t, [] => (true, t)
  | t, f :: path =>
      if add32 a s < f.key1 then
        if f.key2 < (if f.toLeft then t else f.other).cnt then
          bubble a s (rotateLeft (f.plug t)) path
        else (true, plugAll path (f.plug t))
      else if add32 f.key1 f.key2 < a then
        if f.key2 < (if f.toLeft then f.other else t).cnt then
          bubble a s (rotateRight (f.plug t)) path
        else (true, plugAll path (f.plug t))
      else (false, plugAll path (f.plug t))

/-- `pnStack` after the links of a path were pushed, by the depth of their nodes; `sud` may have been
used before. -/
def pushLinks (sud : SingleUseDeque Nat) : Nat → LocalDeque Nat
  | 0 => .ofSud sud fun _ => 0
  | depth + 1 => (pushLinks sud depth).push depth

/-- The same loop on `pnStack`; the nodes of links that the stack does not give back stay as they
are. -/
def bubbleStack (a s : Nat) :
    Nat → CartesianTree → List Frame → LocalDeque Nat → Bool × CartesianTree
  | 0, t, path, _ => (true, plugAll path t)
  | fuel + 1, t, path, stack =>
      if stack.empty then (true, plugAll path t)
      else
        let skipped := path.length - (stack.getTop + 1)
        let t := plugAll (path.take skipped) t
        match path.drop skipped with
        | [] => (false, t)
        | f :: above =>
            if add32 a s < f.key1 then
              if f.key2 < (if f.toLeft then t else f.other).cnt then
                bubbleStack a s fuel (rotateLeft (f.plug t)) above stack.pop
              else (true, plugAll above (f.plug t))
            else if add32 f.key1 f.key2 < a then
              if f.key2 < (if f.toLeft then f.other else t).cnt then
                bubbleStack a s fuel (rotateRight (f.plug t)) above stack.pop
              else (true, plugAll above (f.plug t))
            else (false, plugAll above (f.plug t))

/-- What the tree's `sud` holds from earlier insertions does not matter. -/
def unusedSud : SingleUseDeque Nat := ⟨fun _ => 0, 0, -1⟩

def mergeInsertInternal (t : CartesianTree) (a s : Nat) : Bool × CartesianTree :=
  match insertLoop a s t [] with
  | none => (false, t)
  | some (n, path) => bubbleStack a s path.length n path (pushLinks unusedSud path.length)

def mergeInsert (t : CartesianTree) (a s : Nat) : Bool × CartesianTree :=
  match t with
  | null => (true, node a s null null)
  | t => if s = 0 then (false, t) else mergeInsertInternal t a s

def findFrom (s : Nat) : CartesianTree → Option (Nat × CartesianTree)
  | null => none
  | node key1 key2 l r =>
      if key2 < s then none
      else match findFrom s l with
        | some (a, rest) => some (a, node key1 key2 rest r)
        | none =>
            let shrunk := node (add32 key1 s) (key2 - s) l r
            some (key1, if key2 - s ≠ 0 then lowerNode shrunk else removeNode shrunk)

/-- `Find`: the start of an interval of `s` pages, which leave the tree. -/
def find (t : CartesianTree) (s : Nat) : Option (Nat × CartesianTree) :=
  if s = 0 then none else findFrom s t

/-- A `callback`, which may depend on the nodes it was asked about before, the last one first. -/
abbrev Callback := List Interval → Interval → Bool

/-- What `DeleteNodeIfSatisfy` did: the nodes asked about, those removed, and the tree. -/
structure Deletion where
  asked : List Interval
  removed : List Interval
  tree : CartesianTree

theorem removeNode_nodes (t : CartesianTree) : (removeNode t).nodes = t.nodes - 1 := by
  fun_induction removeNode t <;> simp_all only [nodes] <;> omega

/-- The inner loop: the root is removed as long as the callback says so. -/
def prune (callback : Callback) (asked removed : List Interval) : CartesianTree → Deletion
  | null => ⟨asked, removed, null⟩
  | node key1 key2 l r =>
      if callback asked ⟨key1, key2⟩ then
        prune callback (⟨key1, key2⟩ :: asked) (⟨key1, key2⟩ :: removed)
          (removeNode (node key1 key2 l r))
      else ⟨⟨key1, key2⟩ :: asked, removed, node key1 key2 l r⟩
termination_by t => t.nodes
decreasing_by
  rw [removeNode_nodes]
  simp only [nodes]
  omega

theorem prune_nodes (callback : Callback) (asked removed : List Interval) (t : CartesianTree) :
    (prune callback asked removed t).tree.nodes ≤ t.nodes := by
  fun_induction prune callback asked removed t with
  | case1 => exact Nat.le_refl _
  | case2 asked removed key1 key2 l r _ ih =>
      rw [removeNode_nodes] at ih
      omega
  | case3 => exact Nat.le_refl _

/-- The rest of the walk, left children first, with `pending` nodes on the stack. The stack has no
overflow store, so that the array is all the room it has. -/
def deleteFrom (callback : Callback) (pending : Nat) (asked removed : List Interval)
    (t : CartesianTree) : Option Deletion :=
  match _pruned : prune callback asked removed t with
  | ⟨asked', removed', null⟩ => some ⟨asked', removed', null⟩
  | ⟨asked', removed', node key1 key2 l r⟩ =>
      if pending < kLocalLength then
        match deleteFrom callback (pending + 1) asked' removed' l with
        | none => none
        | some left =>
            match deleteFrom callback pending left.asked left.removed r with
            | none => none
            | some right =>
                some ⟨right.asked, right.removed, node key1 key2 left.tree right.tree⟩
      else none
termination_by t.nodes
decreasing_by
  all_goals
    have fewer := prune_nodes callback asked removed t
    rw [_pruned] at fewer
    simp only [nodes] at fewer
    omega

/-- `DeleteNodeIfSatisfy`, whose explicit stack is the recursion here: the number of nodes it
removed, and the tree; `none` when `Push` goes to the missing overflow store. -/
def deleteNodeIfSatisfy (t : CartesianTree) (callback : Callback) : Option (Nat × CartesianTree) :=
  (deleteFrom callback 0 [] [] t).map fun deletion => (deletion.removed.length, deletion.tree)

end CartesianTree

end PrimJs
