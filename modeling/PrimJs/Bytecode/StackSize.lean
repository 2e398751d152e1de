import Mathlib.Algebra.Order.BigOperators.Group.Finset
import Mathlib.Logic.Relation
import PrimJs.Bytecode.Bytes
import PrimJs.Bytecode.Opcode

/-! The stack size of a function: the traversal that computes it, and the paths through the code. -/

namespace PrimJs.StackSize

inductive StackError
  | stackOverflow
  | bufferOverflow
  | invalidOpcode
  | stackUnderflow
deriving DecidableEq

def jsStackSizeMax : Int := 65535

/-- What `stack_level_tab` holds for a position that was not visited -/
def notVisited : Int := 0xffff

/-- `StackSizeState`; the levels are `uint16_t`. -/
structure State where
  stackLenMax : Int
  stackLevelTab : Nat → Int

/-! One instruction -/

section Instruction

variable (buf : List UInt8) (pos : Nat)

def opAt : Nat := byteAt buf pos

/-- How many values the instruction pops; a call pops a variable number of arguments. -/
def nPop : Int :=
  let op := opAt buf pos
  let oi := shortOpcodeInfo op
  if oi.fmt = .npop then oi.nPop + getU16 buf (pos + 1)
  else if oi.fmt = .npopx then oi.nPop + op - opCall0
  else oi.nPop

def after (depth : Int) : Int := depth + (shortOpcodeInfo (opAt buf pos)).nPush - nPop buf pos

def check (depth : Int) : Except StackError Int :=
  let op := opAt buf pos
  if op = 0 ∨ opCount ≤ op then .error .invalidOpcode
  else if buf.length < pos + opSize op then .error .bufferOverflow
  else if depth < nPop buf pos then .error .stackUnderflow
  else .ok (after buf pos depth)

/-- The position where the instruction may go on besides the one behind it, and the depth there -/
def branch (depth : Int) : Option (Int × Int) :=
  let op := opAt buf pos
  let depth := after buf pos depth
  if op = opIfTrue8 ∨ op = opIfFalse8 then some (pos + 1 + toInt8 (byteAt buf (pos + 1)), depth)
  else if op = opIfTrue ∨ op = opIfFalse ∨ op = opCatch then
    some (pos + 1 + toInt32 (getU32 buf (pos + 1)), depth)
  else if op = opGosub then some (pos + 1 + toInt32 (getU32 buf (pos + 1)), depth + 1)
  else if op = opWithGetVar ∨ op = opWithDeleteVar then
    some (pos + 5 + toInt32 (getU32 buf (pos + 5)), depth + 1)
  else if op = opWithMakeRef ∨ op = opWithGetRef ∨ op = opWithGetRefUndef then
    some (pos + 5 + toInt32 (getU32 buf (pos + 5)), depth + 2)
  else if op = opWithPutVar then some (pos + 5 + toInt32 (getU32 buf (pos + 5)), depth - 1)
  else none

/-- Where the instruction goes on, if it does -/
def follow : Option Int :=
  let op := opAt buf pos
  if op = opTailCall ∨ op = opTailCallMethod ∨ op = opReturn ∨ op = opReturnUndef ∨
      op = opReturnAsync ∨ op = opThrow ∨ op = opThrowVar ∨ op = opRet then none
  else if op = opGoto then some (pos + 1 + toInt32 (getU32 buf (pos + 1)))
  else if op = opGoto16 then some (pos + 1 + toInt16 (getU16 buf (pos + 1)))
  else if op = opGoto8 then some (pos + 1 + toInt8 (byteAt buf (pos + 1)))
  else some (pos + opSize op)

end Instruction

/-! The traversal -/

/-- The new maximum at the start of `compute_stack_size_rec` and behind an instruction -/
def raise (s : State) (depth : Int) : Except StackError State :=
  if s.stackLenMax < depth then
    if jsStackSizeMax < depth then .error .stackOverflow
    else .ok { s with stackLenMax := depth }
  else .ok s

/-- The loop of `compute_stack_size_rec`. The two recursive calls are the one for the branch and the
next round of the loop. -/
def explore (buf : List UInt8) : Nat → State → Int → Int → Option (Except StackError State)
  | 0, _, _, _ => none
  | fuel + 1, s, pos, depth =>
      if pos < 0 ∨ buf.length ≤ pos then some (.error .bufferOverflow)
      else if s.stackLevelTab pos.toNat ≠ notVisited ∧ depth ≤ s.stackLevelTab pos.toNat then
        some (.ok s)
      else
        let s := { s with stackLevelTab := Function.update s.stackLevelTab pos.toNat (depth % 2 ^ 16) }
        match (check buf pos.toNat depth).bind (raise s) with
        | .error e => some (.error e)
        | .ok s =>
            let branched : Option (Except StackError State) :=
              match branch buf pos.toNat depth with
              | none => some (.ok s)
              | some (target, depth') =>
                  match raise s depth' with
                  | .error e => some (.error e)
                  | .ok s => explore buf fuel s target depth'
            match branched with
            | some (.ok s) =>
                match follow buf pos.toNat with
                | none => some (.ok s)
                | some next => explore buf fuel s next (after buf pos.toNat depth)
            | ended => ended

/-- `compute_stack_size`: the state at the end holds the result. -/
def computeStackSize (buf : List UInt8) (fuel : Nat) : Option (Except StackError State) :=
  explore buf fuel ⟨0, fun _ => notVisited⟩ 0 0

/-! Paths through the code -/

/-- A point of a path: the position, the depth of the stack, and for each `gosub` so far the position
and the depth behind it -/
structure Point where
  pos : Int
  depth : Int
  returns : List (Int × Int)

/-- A step of a path. A `ret` goes behind a `gosub` that was run before. -/
inductive Step (buf : List UInt8) : Point → Point → Prop
  | follow {p : Point} {next : Int} (op : opAt buf p.pos.toNat ≠ opGosub)
      (next_ : follow buf p.pos.toNat = some next) :
      Step buf p { p with pos := next, depth := after buf p.pos.toNat p.depth }
  | branch {p : Point} {target depth : Int} (op : opAt buf p.pos.toNat ≠ opGosub)
      (target_ : branch buf p.pos.toNat p.depth = some (target, depth)) :
      Step buf p { p with pos := target, depth := depth }
  | gosub {p : Point} {next target depth : Int} (op : opAt buf p.pos.toNat = opGosub)
      (next_ : StackSize.follow buf p.pos.toNat = some next)
      (target_ : StackSize.branch buf p.pos.toNat p.depth = some (target, depth)) :
      Step buf p ⟨target, depth, (next, after buf p.pos.toNat p.depth) :: p.returns⟩
  | ret {p : Point} {next depth : Int} (op : opAt buf p.pos.toNat = opRet)
      (next_ : (next, depth) ∈ p.returns) :
      Step buf p { p with pos := next, depth := after buf p.pos.toNat p.depth }

def Point.entry : Point := ⟨0, 0, []⟩

abbrev Path (buf : List UInt8) : Point → Prop := Relation.ReflTransGen (Step buf) .entry

/-- A `ret` finds the depth that the stack has behind the `gosub`. -/
def Balanced (buf : List UInt8) (p q : Point) : Prop :=
  opAt buf p.pos.toNat = opRet → (q.pos, q.depth) ∈ p.returns

abbrev BalancedPath (buf : List UInt8) : Point → Prop :=
  Relation.ReflTransGen (fun p q => Step buf p q ∧ Balanced buf p q) .entry

/-- The positions that the traversal goes to from an instruction, with the depths there -/
def successors (buf : List UInt8) (pos : Nat) (depth : Int) : List (Int × Int) :=
  (branch buf pos depth).toList ++ (follow buf pos).toList.map (·, after buf pos depth)

/-- The traversal can go from one position and depth to another. -/
structure Leads (buf : List UInt8) (a b : Int × Int) : Prop where
  low : 0 ≤ a.1
  high : a.1 < buf.length
  depth : a.2 ≤ jsStackSizeMax
  checked : check buf a.1.toNat a.2 = .ok (after buf a.1.toNat a.2)
  next : b ∈ successors buf a.1.toNat a.2

/-- No instruction is reached at the depth that is taken for that of a position not visited. -/
def Shallow (buf : List UInt8) : Prop :=
  ∀ pos, ¬ Relation.ReflTransGen (Leads buf) (0, 0) (pos, notVisited)

/-! The traversal ends. -/

section Traversal

variable {buf : List UInt8} {s s' : State} {pos depth : Int} {fuel : Nat}

theorem raise_ok (raised : raise s depth = .ok s') :
    s'.stackLevelTab = s.stackLevelTab ∧ depth ≤ s'.stackLenMax ∧ s.stackLenMax ≤ s'.stackLenMax ∧
      (s.stackLenMax ≤ jsStackSizeMax → s'.stackLenMax ≤ jsStackSizeMax) := by
  unfold raise at raised
  split at raised
  · split at raised
    · cases raised
    · cases raised
      exact ⟨rfl, le_rfl, by dsimp only; omega, fun _ => by dsimp only; omega⟩
  · cases raised
    exact ⟨rfl, by omega, le_rfl, id⟩

variable {n : Nat}

theorem check_ok {d : Int} (checked : check buf n depth = .ok d) :
    d = after buf n depth ∧ nPop buf n ≤ depth ∧ opAt buf n ≠ 0 ∧ opAt buf n < opCount ∧
      n + opSize (opAt buf n) ≤ buf.length := by
  unfold check at checked
  dsimp only at checked
  split at checked
  · cases checked
  · split at checked
    · cases checked
    · split at checked
      · cases checked
      · cases checked
        exact ⟨rfl, by omega, by omega, by omega, by omega⟩

theorem branch_add (buf : List UInt8) (n : Nat) (d k : Int) :
    branch buf n (d + k) = (branch buf n d).map fun b => (b.1, b.2 + k) := by
  have moved : after buf n (d + k) = after buf n d + k := by
    unfold after
    omega
  simp only [branch, moved]
  split
  · rfl
  · split
    · rfl
    · split
      · simp [add_right_comm]
      · split
        · simp [add_right_comm]
        · split
          · simp [add_right_comm]
          · split
            · simp only [Option.map_some, Option.some.injEq, Prod.mk.injEq, true_and]
              omega
            · rfl

/-- The only branch below the depth behind its instruction is that of `with_put_var`, which pushes a
value. -/
theorem branch_nonneg {target d : Int} (behind : 0 ≤ after buf n depth)
    (enough : nPop buf n ≤ depth) (branched : branch buf n depth = some (target, d)) : 0 ≤ d := by
  unfold branch at branched
  dsimp only at branched
  split at branched
  · cases branched
    exact behind
  · split at branched
    · cases branched
      exact behind
    · split at branched
      · cases branched
        omega
      · split at branched
        · cases branched
          omega
        · split at branched
          · cases branched
            omega
          · split at branched
            next put =>
              cases branched
              have pushes : (shortOpcodeInfo opWithPutVar).nPush = 1 := by decide
              unfold after
              rw [put, pushes]
              omega
            next => cases branched

theorem after_nonneg (enough : nPop buf n ≤ depth) : 0 ≤ after buf n depth := by
  unfold after
  omega

theorem successors_nonneg {b : Int × Int} (enough : nPop buf n ≤ depth)
    (next : b ∈ successors buf n depth) : 0 ≤ b.2 := by
  have behind := after_nonneg enough
  rcases List.mem_append.mp next with branched | followed
  · exact branch_nonneg behind enough (Option.mem_toList.mp branched)
  · obtain ⟨_, _, rfl⟩ := List.mem_map.mp followed
    exact behind

abbrev Reached (buf : List UInt8) (pos depth : Int) : Prop :=
  Relation.ReflTransGen (Leads buf) (0, 0) (pos, depth)

theorem Reached.nonneg (reached : Reached buf pos depth) : 0 ≤ depth := by
  have every {b : Int × Int} (reached : Relation.ReflTransGen (Leads buf) (0, 0) b) : 0 ≤ b.2 := by
    induction reached with
    | refl => exact le_rfl
    | tail _ leads _ =>
        have ⟨_, enough, _⟩ := check_ok leads.checked
        exact successors_nonneg enough leads.next
  exact every reached

def room (level : Int) : Nat := if level = notVisited then 65536 else (65535 - level).toNat

def slack (buf : List UInt8) (s : State) : Nat :=
  ∑ p ∈ Finset.range buf.length, room (s.stackLevelTab p)

theorem room_lt {level : Int} (low : 0 ≤ depth) (high : depth ≤ jsStackSizeMax)
    (shallow : depth ≠ notVisited) (deeper : ¬ (level ≠ notVisited ∧ depth ≤ level)) :
    room depth < room level := by
  unfold jsStackSizeMax at high
  unfold notVisited at *
  unfold room notVisited
  rw [if_neg shallow]
  split <;> omega

/-- The state that `explore` records its position in -/
def visit (s : State) (pos : Nat) (depth : Int) : State :=
  { s with stackLevelTab := Function.update s.stackLevelTab pos (depth % 2 ^ 16) }

theorem visit_level (low : 0 ≤ depth) (high : depth ≤ jsStackSizeMax) (n : Nat) :
    (visit s n depth).stackLevelTab = Function.update s.stackLevelTab n depth := by
  unfold jsStackSizeMax at high
  rw [visit, Int.emod_eq_of_lt low (by omega)]

theorem slack_visit (buf : List UInt8) (inside : n < buf.length) (low : 0 ≤ depth)
    (high : depth ≤ jsStackSizeMax) (shallow : depth ≠ notVisited)
    (deeper : ¬ (s.stackLevelTab n ≠ notVisited ∧ depth ≤ s.stackLevelTab n)) :
    slack buf (visit s n depth) < slack buf s := by
  have less := room_lt low high shallow deeper
  unfold slack
  rw [visit_level low high]
  refine Finset.sum_lt_sum (fun p _ => ?_) ⟨n, Finset.mem_range.mpr inside, ?_⟩
  · by_cases same : p = n
    · rw [same, Function.update_self]
      exact less.le
    · rw [Function.update_of_ne same]
  · rwa [Function.update_self]

/-- One round of the loop -/
theorem explore_succ (fuel : Nat) (s : State) (pos depth : Int) : explore buf (fuel + 1) s pos depth =
    if pos < 0 ∨ buf.length ≤ pos then some (.error .bufferOverflow)
    else if s.stackLevelTab pos.toNat ≠ notVisited ∧ depth ≤ s.stackLevelTab pos.toNat then
      some (.ok s)
    else
      match (check buf pos.toNat depth).bind (raise (visit s pos.toNat depth)) with
      | .error e => some (.error e)
      | .ok s =>
          let branched : Option (Except StackError State) :=
            match branch buf pos.toNat depth with
            | none => some (.ok s)
            | some (target, depth') =>
                match raise s depth' with
                | .error e => some (.error e)
                | .ok s => explore buf fuel s target depth'
          match branched with
          | some (.ok s) =>
              match follow buf pos.toNat with
              | none => some (.ok s)
              | some next => explore buf fuel s next (after buf pos.toNat depth)
          | ended => ended := rfl

/-- The instruction is in order, and the state behind it is recorded. -/
theorem checked_raise (run : (check buf n depth).bind (raise s) = .ok s') :
    check buf n depth = .ok (after buf n depth) ∧ raise s (after buf n depth) = .ok s' := by
  cases checked : check buf n depth with
  | error e => rw [checked] at run; cases run
  | ok d =>
      have ⟨same, _⟩ := check_ok checked
      rw [checked] at run
      exact ⟨by rw [← same], same ▸ run⟩

/-- A state behind another one of the traversal -/
structure Later (buf : List UInt8) (s s' : State) : Prop where
  slack : slack buf s' ≤ slack buf s
  more : s.stackLenMax ≤ s'.stackLenMax
  max : s'.stackLenMax ≤ jsStackSizeMax

theorem Later.trans {s'' : State} (first : Later buf s s') (second : Later buf s' s'') :
    Later buf s s'' :=
  ⟨second.slack.trans first.slack, first.more.trans second.more, second.max⟩

theorem Later.of_raise (raised : raise s depth = .ok s') (max : s.stackLenMax ≤ jsStackSizeMax) :
    Later buf s s' := by
  have ⟨same, _, more, still⟩ := raise_ok raised
  exact ⟨by rw [StackSize.slack, same]; exact le_rfl, more, still max⟩

/-- The traversal ends: each round makes the level of a position larger. -/
theorem explore_ends (shallow : Shallow buf) : ∀ (fuel : Nat) {s : State} {pos depth : Int},
    s.stackLenMax ≤ jsStackSizeMax → depth ≤ s.stackLenMax → Reached buf pos depth →
    slack buf s < fuel → ∃ ended, explore buf fuel s pos depth = some ended ∧
      ∀ s', ended = .ok s' → Later buf s s' := by
  intro fuel
  induction fuel with
  | zero => exact fun _ _ _ enough => absurd enough (Nat.not_lt_zero _)
  | succ fuel ih =>
      intro s pos depth max inMax reached enough
      rw [explore_succ]
      by_cases outside : pos < 0 ∨ buf.length ≤ pos
      · rw [if_pos outside]
        exact ⟨_, rfl, nofun⟩
      rw [if_neg outside]
      by_cases known : s.stackLevelTab pos.toNat ≠ notVisited ∧ depth ≤ s.stackLevelTab pos.toNat
      · rw [if_pos known]
        exact ⟨_, rfl, fun s' same => Except.ok.inj same ▸ ⟨le_rfl, le_rfl, max⟩⟩
      rw [if_neg known]
      have low := reached.nonneg
      have high := inMax.trans max
      have shallow_ : depth ≠ notVisited := fun same => shallow pos (same ▸ reached)
      have less := slack_visit buf (by omega) low high shallow_ known
      cases run : (check buf pos.toNat depth).bind (raise (visit s pos.toNat depth)) with
      | error e => exact ⟨_, rfl, nofun⟩
      | ok s₁ =>
          have ⟨checked, raised⟩ := checked_raise run
          have ⟨_, behind, _⟩ := raise_ok raised
          have later : Later buf (visit s pos.toNat depth) s₁ := .of_raise raised max
          have leads (b : Int × Int) (next : b ∈ successors buf pos.toNat depth) :
              Reached buf b.1 b.2 :=
            reached.tail ⟨by dsimp only; omega, by dsimp only; omega, high, checked, next⟩
          have first : ∃ ended : Except StackError State,
              (match branch buf pos.toNat depth with
                | none => some (.ok s₁)
                | some (target, depth') =>
                    match raise s₁ depth' with
                    | .error e => some (.error e)
                    | .ok s => explore buf fuel s target depth') = some ended ∧
              ∀ s', ended = .ok s' → Later buf s₁ s' := by
            cases branched : branch buf pos.toNat depth with
            | none => exact ⟨_, rfl, fun s' same => Except.ok.inj same ▸ ⟨le_rfl, le_rfl, later.max⟩⟩
            | some b =>
                cases run' : raise s₁ b.2 with
                | error e => exact ⟨.error e, by dsimp only; rw [run'], nofun⟩
                | ok s₂ =>
                    have later₂ : Later buf s₁ s₂ := .of_raise run' later.max
                    have ⟨_, inMax₂, _⟩ := raise_ok run'
                    have reached₂ := leads b (List.mem_append_left _ (Option.mem_toList.mpr branched))
                    have slack₂ := later₂.slack.trans later.slack
                    have ⟨ended, run₂, post⟩ := ih later₂.max inMax₂ reached₂ (by omega)
                    refine ⟨ended, ?_, fun s' same => later₂.trans (post s' same)⟩
                    dsimp only
                    rw [run']
                    exact run₂
          have ⟨ended, branched, post⟩ := first
          dsimp only
          rw [branched]
          cases ended with
          | error e => exact ⟨_, rfl, nofun⟩
          | ok s₂ =>
              have later₂ := post s₂ rfl
              have so_far : Later buf s s₂ :=
                ⟨(later₂.slack.trans later.slack).trans less.le, later.more.trans later₂.more, later₂.max⟩
              cases followed : follow buf pos.toNat with
              | none => exact ⟨_, rfl, fun s' same => Except.ok.inj same ▸ so_far⟩
              | some next =>
                  have member : (next, after buf pos.toNat depth) ∈ successors buf pos.toNat depth :=
                    List.mem_append_right _ (List.mem_map.mpr ⟨next, Option.mem_toList.mpr followed, rfl⟩)
                  have slack₂ := later₂.slack.trans later.slack
                  have ⟨ended, run₃, post₃⟩ := ih later₂.max (behind.trans later₂.more)
                    (leads _ member) (by omega)
                  exact ⟨ended, run₃, fun s' same => so_far.trans (post₃ s' same)⟩

/-! What the levels record -/

/-- `V` is what was explored so far: the level of a position is the greatest depth it was explored
at. -/
def Recorded (s : State) (V : Set (Int × Int)) : Prop := ∀ p : Nat,
  s.stackLevelTab p = notVisited ∧ (∀ d, ((p : Int), d) ∉ V) ∨
    s.stackLevelTab p ≠ notVisited ∧ ((p : Int), s.stackLevelTab p) ∈ V ∧
      ∀ d, ((p : Int), d) ∈ V → d ≤ s.stackLevelTab p

def Covers (V : Set (Int × Int)) (b : Int × Int) : Prop := ∃ d ≥ b.2, (b.1, d) ∈ V

/-- The instruction was in order, and where it leads to was explored. -/
structure Explored (buf : List UInt8) (s : State) (V : Set (Int × Int)) (a : Int × Int) : Prop where
  low : 0 ≤ a.1
  high : a.1 < buf.length
  enough : nPop buf a.1.toNat ≤ a.2
  depth : a.2 ≤ s.stackLenMax
  next : ∀ b ∈ successors buf a.1.toNat a.2, Covers V b

/-- What the traversal from a position adds to what was explored -/
structure Adds (buf : List UInt8) (s s' : State) (V V' : Set (Int × Int)) : Prop where
  sub : V ⊆ V'
  recorded : Recorded s' V'
  more : s.stackLenMax ≤ s'.stackLenMax
  max : s'.stackLenMax ≤ jsStackSizeMax
  new : ∀ a ∈ V', a ∉ V → Explored buf s' V' a

variable {V V' : Set (Int × Int)}

theorem Covers.mono {b : Int × Int} (covers : Covers V b) (sub : V ⊆ V') : Covers V' b := by
  have ⟨d, deeper, member⟩ := covers
  exact ⟨d, deeper, sub member⟩

theorem Explored.mono {a : Int × Int} (explored : Explored buf s V a) (sub : V ⊆ V')
    (more : s.stackLenMax ≤ s'.stackLenMax) : Explored buf s' V' a :=
  { explored with
    depth := explored.depth.trans more
    next := fun b next => (explored.next b next).mono sub }

theorem Adds.trans {s₁ s₂ : State} {V₁ V₂ : Set (Int × Int)} (first : Adds buf s s₁ V V₁)
    (second : Adds buf s₁ s₂ V₁ V₂) : Adds buf s s₂ V V₂ where
  sub := first.sub.trans second.sub
  recorded := second.recorded
  more := first.more.trans second.more
  max := second.max
  new := fun a member new => by
    by_cases old : a ∈ V₁
    · exact (first.new a old new).mono second.sub second.more
    · exact second.new a member old

theorem Adds.refl (recorded : Recorded s V) (max : s.stackLenMax ≤ jsStackSizeMax) :
    Adds buf s s V V := ⟨le_rfl, recorded, le_rfl, max, fun _ member new => absurd member new⟩

theorem Recorded.of_raise (recorded : Recorded s V) (raised : raise s depth = .ok s') :
    Recorded s' V := by
  have ⟨same, _⟩ := raise_ok raised
  unfold Recorded
  rw [same]
  exact recorded

/-- The level of a position that was not explored at this depth -/
theorem Recorded.visit (recorded : Recorded s V) (low : 0 ≤ depth) (high : depth ≤ jsStackSizeMax)
    (shallow : depth ≠ notVisited)
    (deeper : ¬ (s.stackLevelTab n ≠ notVisited ∧ depth ≤ s.stackLevelTab n)) :
    Recorded (visit s n depth) (insert ((n : Int), depth) V) := by
  intro p
  rw [visit_level low high]
  by_cases same : p = n
  · subst same
    rw [Function.update_self]
    refine .inr ⟨shallow, Set.mem_insert _ _, fun d member => ?_⟩
    rcases Set.mem_insert_iff.mp member with here | old
    · exact (Prod.mk.inj here).2.le
    · rcases recorded p with ⟨_, none_⟩ | ⟨visited, _, most⟩
      · exact absurd old (none_ d)
      · have := most d old
        have : ¬ depth ≤ s.stackLevelTab p := fun less => deeper ⟨visited, less⟩
        omega
  · rw [Function.update_of_ne same]
    have other (d : Int) : ((p : Int), d) ∈ insert ((n : Int), depth) V ↔ ((p : Int), d) ∈ V := by
      rw [Set.mem_insert_iff, Prod.mk.injEq]
      exact or_iff_right fun both => same (by exact_mod_cast both.1)
    simp only [other]
    exact recorded p

/-- What the traversal from a position explores -/
theorem explore_adds (shallow : Shallow buf) : ∀ (fuel : Nat) {s s' : State} {pos depth : Int}
    {V : Set (Int × Int)}, explore buf fuel s pos depth = some (.ok s') →
    s.stackLenMax ≤ jsStackSizeMax → depth ≤ s.stackLenMax → Reached buf pos depth →
    Recorded s V → ∃ V', Adds buf s s' V V' ∧ Covers V' (pos, depth) := by
  intro fuel
  induction fuel with
  | zero => exact nofun
  | succ fuel ih =>
      intro s s' pos depth V run max inMax reached recorded
      rw [explore_succ] at run
      by_cases outside : pos < 0 ∨ buf.length ≤ pos
      · rw [if_pos outside] at run
        cases run
      rw [if_neg outside] at run
      by_cases known : s.stackLevelTab pos.toNat ≠ notVisited ∧ depth ≤ s.stackLevelTab pos.toNat
      · rw [if_pos known] at run
        cases run
        refine ⟨V, .refl recorded max, ?_⟩
        rcases recorded pos.toNat with ⟨none_, _⟩ | ⟨_, member, _⟩
        · exact absurd none_ known.1
        · rw [Int.toNat_of_nonneg (by omega)] at member
          exact ⟨_, known.2, member⟩
      rw [if_neg known] at run
      have low := reached.nonneg
      have high := inMax.trans max
      have shallow_ : depth ≠ notVisited := fun same => shallow pos (same ▸ reached)
      have recorded₁ := recorded.visit low high shallow_ known
      rw [Int.toNat_of_nonneg (by omega)] at recorded₁
      cases run₁ : (check buf pos.toNat depth).bind (raise (visit s pos.toNat depth)) with
      | error e =>
          rw [run₁] at run
          cases run
      | ok s₁ =>
          have ⟨checked, raised⟩ := checked_raise run₁
          have ⟨_, behind, more, still⟩ := raise_ok raised
          have ⟨_, enough, _⟩ := check_ok checked
          have leads (b : Int × Int) (next : b ∈ successors buf pos.toNat depth) :
              Reached buf b.1 b.2 :=
            reached.tail ⟨by dsimp only; omega, by dsimp only; omega, high, checked, next⟩
          have recorded₁ := recorded₁.of_raise raised
          have max₁ := still max
          rw [run₁] at run
          dsimp only at run
          -- What the branch explores, and then what the code behind the instruction does
          have first : ∃ s₂ V₂, Adds buf s₁ s₂ (insert (pos, depth) V) V₂ ∧
              (∀ b ∈ branch buf pos.toNat depth, Covers V₂ b) ∧
              (match follow buf pos.toNat with
                | none => some (.ok s₂)
                | some next => explore buf fuel s₂ next (after buf pos.toNat depth)) =
                  some (.ok s') := by
            cases branched : branch buf pos.toNat depth with
            | none =>
                rw [branched] at run
                exact ⟨s₁, _, .refl recorded₁ max₁, nofun, run⟩
            | some b =>
                rw [branched] at run
                dsimp only at run
                cases raised₂ : raise s₁ b.2 with
                | error e =>
                    rw [raised₂] at run
                    cases run
                | ok t =>
                    have ⟨_, inMax₂, more₂, still₂⟩ := raise_ok raised₂
                    have reached₂ := leads b (List.mem_append_left _ (Option.mem_toList.mpr branched))
                    rw [raised₂] at run
                    dsimp only at run
                    rcases run₂ : explore buf fuel t b.1 b.2 with _ | _ | s₂
                    · rw [run₂] at run
                      cases run
                    · rw [run₂] at run
                      cases run
                    · have ⟨V₂, adds, covers⟩ := ih run₂ (still₂ max₁) inMax₂ reached₂
                        (recorded₁.of_raise raised₂)
                      rw [run₂] at run
                      refine ⟨s₂, V₂, { adds with more := more₂.trans adds.more }, fun b' same => ?_, run⟩
                      exact Option.some.inj same ▸ covers
          have ⟨s₂, V₂, adds₂, covers₂, run₂⟩ := first
          have second : ∃ V₃, Adds buf s₂ s' V₂ V₃ ∧
              ∀ next ∈ follow buf pos.toNat, Covers V₃ (next, after buf pos.toNat depth) := by
            cases followed : follow buf pos.toNat with
            | none =>
                rw [followed] at run₂
                cases run₂
                exact ⟨V₂, .refl adds₂.recorded adds₂.max, nofun⟩
            | some next =>
                rw [followed] at run₂
                have member : (next, after buf pos.toNat depth) ∈ successors buf pos.toNat depth :=
                  List.mem_append_right _ (List.mem_map.mpr ⟨next, Option.mem_toList.mpr followed, rfl⟩)
                have ⟨V₃, adds, covers⟩ := ih run₂ adds₂.max (behind.trans adds₂.more) (leads _ member)
                  adds₂.recorded
                exact ⟨V₃, adds, fun next' same => Option.some.inj same ▸ covers⟩
          have ⟨V₃, adds₃, covers₃⟩ := second
          have adds := adds₂.trans adds₃
          have here : (pos, depth) ∈ V₃ := adds.sub (Set.mem_insert _ _)
          refine ⟨V₃, ⟨fun a old => adds.sub (Set.mem_insert_of_mem _ old), adds.recorded,
            more.trans adds.more, adds.max, fun a member new => ?_⟩, depth, le_rfl, here⟩
          by_cases same : a = (pos, depth)
          · subst same
            refine ⟨by dsimp only; omega, by dsimp only; omega, enough, ?_, fun b next => ?_⟩
            · exact (inMax.trans more).trans adds.more
            · rcases List.mem_append.mp next with branched | followed
              · exact (covers₂ b (Option.mem_toList.mp branched)).mono adds₃.sub
              · obtain ⟨target, member, rfl⟩ := List.mem_map.mp followed
                exact covers₃ target (Option.mem_toList.mp member)
          · exact adds.new a member fun old => (Set.mem_insert_iff.mp old).elim same new

end Traversal

/-! Paths -/

section Paths

variable {buf : List UInt8} {s : State} {V : Set (Int × Int)} {p q : Point}

/-- A point of a path and the points behind its subroutine calls lie within what was explored. -/
structure Within (V : Set (Int × Int)) (p : Point) : Prop where
  here : Covers V (p.pos, p.depth)
  returns : ∀ b ∈ p.returns, Covers V b

/-- What an instruction leads to at a smaller depth -/
theorem Explored.covers {pos d depth : Int} (explored : Explored buf s V (pos, d)) (deeper : depth ≤ d)
    {b : Int × Int} (next : b ∈ successors buf pos.toNat depth) : Covers V b := by
  have moved : after buf pos.toNat d = after buf pos.toNat depth + (d - depth) := by
    unfold after
    omega
  have covers : Covers V (b.1, b.2 + (d - depth)) := by
    refine explored.next _ ?_
    rcases List.mem_append.mp next with branched | followed
    · have shifted := branch_add buf pos.toNat depth (d - depth)
      rw [Option.mem_toList.mp branched, add_sub_cancel] at shifted
      exact List.mem_append_left _ (Option.mem_toList.mpr shifted)
    · obtain ⟨target, member, rfl⟩ := List.mem_map.mp followed
      refine List.mem_append_right _ (List.mem_map.mpr ⟨target, member, ?_⟩)
      rw [moved]
  have ⟨e, deep, member⟩ := covers
  exact ⟨e, by dsimp only at deep; omega, member⟩

/-- What a step of a path keeps -/
theorem Within.step (closed : ∀ a ∈ V, Explored buf s V a) (within : Within V p)
    (step : Step buf p q) (balanced : Balanced buf p q) : Within V q := by
  have ⟨d, deeper, member⟩ := within.here
  have explored := closed _ member
  have follows {next : Int} (next_ : follow buf p.pos.toNat = some next) :
      Covers V (next, after buf p.pos.toNat p.depth) :=
    explored.covers deeper (List.mem_append_right _
      (List.mem_map.mpr ⟨next, Option.mem_toList.mpr next_, rfl⟩))
  have branches {b : Int × Int} (target_ : branch buf p.pos.toNat p.depth = some b) : Covers V b :=
    explored.covers deeper (List.mem_append_left _ (Option.mem_toList.mpr target_))
  cases step with
  | follow _ next_ => exact ⟨follows next_, within.returns⟩
  | branch _ target_ => exact ⟨branches target_, within.returns⟩
  | gosub _ next_ target_ =>
      refine ⟨branches target_, fun b member => ?_⟩
      rcases List.mem_cons.mp member with same | old
      · exact same ▸ follows next_
      · exact within.returns b old
  | ret op _ => exact ⟨within.returns _ (balanced op), within.returns⟩

end Paths

/-- For code in which no instruction is reached at depth 65535 the traversal ends. When it succeeds,
no path whose subroutines keep the depth is deeper at an instruction than what is recorded for it and than the result; and an
instruction that is reached at the depth recorded for it finds its operands. -/
theorem computeStackSize_bounds (buf : List UInt8) (shallow : Shallow buf) :
    (∃ enough, ∀ fuel ≥ enough, (computeStackSize buf fuel).isSome) ∧
    ∀ fuel s, computeStackSize buf fuel = some (.ok s) → ∀ p, BalancedPath buf p →
      0 ≤ p.pos ∧ p.pos < buf.length ∧ p.depth ≤ s.stackLevelTab p.pos.toNat ∧
        s.stackLevelTab p.pos.toNat ≤ s.stackLenMax ∧
        (p.depth = s.stackLevelTab p.pos.toNat → nPop buf p.pos.toNat ≤ p.depth) := by
  have start : Recorded ⟨0, fun _ => notVisited⟩ ∅ := fun p => .inl ⟨rfl, fun d => nofun⟩
  constructor
  · refine ⟨slack buf ⟨0, fun _ => notVisited⟩ + 1, fun fuel enough => ?_⟩
    have ⟨ended, run, _⟩ := explore_ends shallow fuel (s := ⟨0, fun _ => notVisited⟩) (by decide) le_rfl
      .refl (by omega)
    rw [computeStackSize, run]
    rfl
  · intro fuel s run p path
    have ⟨V, adds, covers⟩ := explore_adds shallow fuel run (by decide) le_rfl .refl start
    have closed (a : Int × Int) (member : a ∈ V) := adds.new a member (Set.notMem_empty a)
    have within : Within V p := by
      induction path with
      | refl => exact ⟨covers, nofun⟩
      | tail _ step ih => exact ih.step closed step.1 step.2
    have ⟨d, deeper, member⟩ := within.here
    have explored := closed _ member
    have low := explored.low
    dsimp only at low
    rcases adds.recorded p.pos.toNat with ⟨_, none_⟩ | ⟨_, level, most⟩
    · rw [Int.toNat_of_nonneg low] at none_
      exact absurd member (none_ d)
    · rw [Int.toNat_of_nonneg low] at level most
      have top := closed _ level
      exact ⟨low, explored.high, le_trans deeper (most d member), top.depth, fun same => same ▸ top.enough⟩

theorem shallow_of_closed {buf : List UInt8} (reached : List (Int × Int)) (start : (0, 0) ∈ reached)
    (closed : ∀ a ∈ reached, ∀ b ∈ successors buf a.1.toNat a.2, b ∈ reached)
    (low : ∀ a ∈ reached, a.2 ≠ notVisited) : Shallow buf := by
  intro pos chain
  have every {b : Int × Int} (chain : Relation.ReflTransGen (Leads buf) (0, 0) b) : b ∈ reached := by
    induction chain with
    | refl => exact start
    | tail _ leads ih => exact closed _ ih _ leads.next
  exact low _ (every chain) rfl

/-- `gosub` to a `ret` behind the end of the function -/
def finallyCode : List UInt8 := [108, 5, 0, 0, 0, 41, 109]

theorem computeStackSize_bounds_finally :
    (∃ enough, ∀ fuel ≥ enough, (computeStackSize finallyCode fuel).isSome) ∧
    ∀ fuel s, computeStackSize finallyCode fuel = some (.ok s) → ∀ p, BalancedPath finallyCode p →
      0 ≤ p.pos ∧ p.pos < finallyCode.length ∧ p.depth ≤ s.stackLevelTab p.pos.toNat ∧
        s.stackLevelTab p.pos.toNat ≤ s.stackLenMax ∧
        (p.depth = s.stackLevelTab p.pos.toNat → nPop finallyCode p.pos.toNat ≤ p.depth) :=
  computeStackSize_bounds finallyCode
    (shallow_of_closed [(0, 0), (6, 1), (5, 0)] (by decide) (by decide) (by decide))

/-- `push_0; if_true8 L; push_0; L: return_undef` -/
def twoDepths : List UInt8 := [178, 232, 2, 178, 41]

/-- `push_0; push_0; if_true8 L; drop; L: drop; return_undef` -/
def twoDrops : List UInt8 := [178, 178, 232, 2, 14, 14, 41]

/-- `gosub L; return_undef; L: push_0; swap; ret` -/
def unbalanced : List UInt8 := [108, 5, 0, 0, 0, 41, 178, 27, 109]

/-- A position can be reached at a depth below the one that is recorded for it, and there the stack can
run empty; behind a subroutine that leaves a value it can be reached at a greater one. -/
theorem depth_not_recorded :
    (∃ s, computeStackSize twoDepths 10 = some (.ok s) ∧ s.stackLevelTab 4 = 1 ∧
      Path twoDepths ⟨4, 0, []⟩) ∧
    (∃ s, computeStackSize twoDrops 10 = some (.ok s) ∧ Path twoDrops ⟨6, -1, []⟩) ∧
    ∃ s, computeStackSize unbalanced 10 = some (.ok s) ∧ s.stackLevelTab 5 = 0 ∧
      Path unbalanced ⟨5, 1, [(5, 0)]⟩ := by
  refine ⟨⟨_, rfl, by decide, ?_⟩, ⟨_, rfl, ?_⟩, _, rfl, by decide, ?_⟩
  · have first : Step twoDepths .entry ⟨1, 1, []⟩ := .follow (by decide) (by decide)
    have jump : Step twoDepths ⟨1, 1, []⟩ ⟨4, 0, []⟩ := .branch (by decide) (by decide)
    exact .tail (.single first) jump
  · have first : Step twoDrops .entry ⟨1, 1, []⟩ := .follow (by decide) (by decide)
    have second : Step twoDrops ⟨1, 1, []⟩ ⟨2, 2, []⟩ := .follow (by decide) (by decide)
    have stay : Step twoDrops ⟨2, 2, []⟩ ⟨4, 1, []⟩ := .follow (by decide) (by decide)
    have drop : Step twoDrops ⟨4, 1, []⟩ ⟨5, 0, []⟩ := .follow (by decide) (by decide)
    have below : Step twoDrops ⟨5, 0, []⟩ ⟨6, -1, []⟩ := .follow (by decide) (by decide)
    exact .tail (.tail (.tail (.tail (.single first) second) stay) drop) below
  · have call : Step unbalanced .entry ⟨6, 1, [(5, 0)]⟩ := .gosub (by decide) (by decide) (by decide)
    have push : Step unbalanced ⟨6, 1, [(5, 0)]⟩ ⟨7, 2, [(5, 0)]⟩ := .follow (by decide) (by decide)
    have swap : Step unbalanced ⟨7, 2, [(5, 0)]⟩ ⟨8, 2, [(5, 0)]⟩ := .follow (by decide) (by decide)
    have ret : Step unbalanced ⟨8, 2, [(5, 0)]⟩ ⟨5, 1, [(5, 0)]⟩ :=
      .ret (by decide) (by decide : ((5 : Int), (0 : Int)) ∈ [((5 : Int), (0 : Int))])
    exact .tail (.tail (.tail (.single call) push) swap) ret

end PrimJs.StackSize
