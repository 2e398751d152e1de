import PrimJs.Bytecode.Rewriting
import PrimJs.Foundation.ObservedTrace

/-! Two instructions with `nop`s between them, and the two that a peephole rewriting puts in their
place. -/

namespace PrimJs

open TraceSimulation

inductive Nullish where
  | undefined | null
  deriving DecidableEq, Repr

def Nullish.pushOp : Nullish → Nat
  | .undefined => opUndefined
  | .null => opNull

def Nullish.testOp : Nullish → Nat
  | .undefined => opIsUndefined
  | .null => opIsNull

/-- The machine with what `strict_eq`, its two shorthands and the property reads do. `undefined`
and `null` are the only values of their tags and carry no reference count; a further reference to
the receiver changes nothing for a property read. -/
structure PeepholeMachine (V W : Type) extends Machine V W where
  ofBool : Bool → V
  nullish : Nullish → V
  isNullish : Nullish → StackEntry V → Bool
  strictEq : StackEntry V → StackEntry V → W → Bool
  getProperty : List UInt8 → StackEntry V → W → Except V V × W
  push_nullish : ∀ k w, push k.pushOp [] w = (nullish k, w)
  free_nullish : ∀ k w, free (nullish k) w = w
  isNullish_iff : ∀ k e, isNullish k e = true ↔ e = .value (nullish k)
  strictEq_nullish : ∀ k e w, strictEq e (.value (nullish k)) w = true ↔ e = .value (nullish k)
  exec_strictEq : ∀ a b w, exec opStrictEq [] [b, a] w =
    .next [.value (ofBool (strictEq a b w))] (toMachine.freeEntry b (toMachine.freeEntry a w))
  exec_isNullish : ∀ k e w, exec k.testOp [] [e] w =
    .next [.value (ofBool (isNullish k e))] (if isNullish k e then w else toMachine.freeEntry e w)
  exec_getField : ∀ atom e w, exec opGetField atom [e] w =
    match getProperty atom e w with
    | (.ok v, w') => .next [.value v] (toMachine.freeEntry e w')
    | (.error error, w') => .raise error (toMachine.freeEntry e w')
  exec_getField2 : ∀ atom e w, exec opGetField2 atom [e] w =
    match getProperty atom e w with
    | (.ok v, w') => .next [.value v, e] w'
    | (.error error, w') => .raise error (toMachine.freeEntry e w')
  getProperty_dup : ∀ atom e w, getProperty atom e (toMachine.dupEntry e w) =
    ((getProperty atom e w).1, toMachine.dupEntry e (getProperty atom e w).2)
  getProperty_error : ∀ atom e w error, (getProperty atom e w).1 = .error error →
    ∃ v, e = .value v
  uncatchable_free : ∀ error v w, uncatchable error (free v w) = uncatchable error w

/-- What an execution shows: comparisons with `strict_eq` have no effect, and `get_field2` reads
the property that `get_field` reads. -/
def Event.observe {V : Type} : Event V → Option (Event V)
  | .exec op operands args =>
      if op = opStrictEq ∨ op = opIsUndefined ∨ op = opIsNull then none
      else if op = opGetField2 then some (.exec opGetField operands args)
      else some (.exec op operands args)
  | event => some event

abbrev Machine.observedStep {V W : Type} (M : Machine V W) (code : Code) :
    State V W → StepOutcome V W :=
  observed Event.observe (M.step code)

variable {V W : Type} {code code' : Code} {visible : Nat → Prop} {level : Nat → Nat}

def Nops (code : Code) (a b : Nat) : Prop :=
  ∀ q, a ≤ q → q < b → ∃ i, code q = some i ∧ i.op = opNop ∧ i.size = 1

theorem Nops.action {a b : Nat} (nops : Nops code a b) :
    ∀ q, a ≤ q → q < b → ∃ i, code q = some i ∧ i.action = .nop ∧ i.size = 1 := by
  intro q low high
  have ⟨i, here, op, size⟩ := nops q low high
  refine ⟨i, here, ?_, size⟩
  change actionOf i.op i.operands = .nop
  rw [op, actionOf_nop]

theorem popCount_nop {i : Instr} (nop : i.op = opNop) : i.popCount = 0 := by
  simp only [Instr.popCount, nop]
  rfl

/-- The instructions `i` at `a` and `j` at `m`, with nothing but `nop`s besides them up to `e` -/
structure Pair (code : Code) (a m e : Nat) (i j : Instr) : Prop where
  head : code a = some i
  headStop : a + i.size ≤ m
  gap : Nops code (a + i.size) m
  tail : code m = some j
  tailStop : m + j.size ≤ e
  rest : Nops code (m + j.size) e
  headSize : 0 < i.size
  tailSize : 0 < j.size

/-- Whatever the position, the instruction runs on to the next one. -/
def RunsOn (M : Machine V W) (i : Instr) (stack : List (StackEntry V)) (w : W)
    (events : List (Event V)) (stack' : List (StackEntry V)) (w' : W) : Prop :=
  ∀ pc, M.execute i ⟨pc, stack, w⟩ = .running events ⟨pc + i.size, stack', w'⟩

/-- Whatever the position, the instruction halts or goes to a handler. -/
def Leaves (M : Machine V W) (i : Instr) (stack : List (StackEntry V)) (w : W)
    (out : StepOutcome V W) : Prop :=
  ∀ pc, M.execute i ⟨pc, stack, w⟩ = out

def Instr.depthAfter (i : Instr) (d : Nat) : Nat := d - i.popCount + i.pushCount

section RunsOn

variable {M : Machine V W} {i j : Instr} {a m e : Nat} {stack stack₁ stack₂ : List (StackEntry V)}
  {w w₁ w₂ : W} {events events₁ events₂ : List (Event V)} {p : State V W → Prop}

theorem RunsOn.step (runs : RunsOn M i stack w events stack₁ w₁) (here : code a = some i) :
    M.step code ⟨a, stack, w⟩ = .running events ⟨a + i.size, stack₁, w₁⟩ := by
  rw [Machine.step, here]
  exact runs a

theorem Leaves.step {out : StepOutcome V W} (leaves : Leaves M i stack w out)
    (here : code a = some i) : M.step code ⟨a, stack, w⟩ = out := by
  rw [Machine.step, here]
  exact leaves a

/-- From the first instruction up to the second -/
theorem Pair.toTail (pair : Pair code a m e i j) (head : RunsOn M i stack w events stack₁ w₁)
    (first : p ⟨a, stack, w⟩)
    (between : ∀ q, a + i.size ≤ q → q < m → p ⟨q, stack₁, w₁⟩) :
    Path (M.step code) p (1 + (m - (a + i.size))) ⟨a, stack, w⟩ events ⟨m, stack₁, w₁⟩ := by
  have nops := path_nops M code p stack₁ w₁ pair.headStop pair.gap.action between
  have run := (Path.single (head.step pair.head) first).append nops
  rwa [List.append_nil] at run

theorem Pair.through (pair : Pair code a m e i j) (head : RunsOn M i stack w events₁ stack₁ w₁)
    (tail : RunsOn M j stack₁ w₁ events₂ stack₂ w₂) (first : p ⟨a, stack, w⟩)
    (between : ∀ q, a + i.size ≤ q → q ≤ m → p ⟨q, stack₁, w₁⟩)
    (behind : ∀ q, m + j.size ≤ q → q < e → p ⟨q, stack₂, w₂⟩) :
    ∃ n, Path (M.step code) p (n + 1) ⟨a, stack, w⟩ (events₁ ++ events₂) ⟨e, stack₂, w₂⟩ := by
  have toTail := pair.toTail head first fun q low high => between q low high.le
  have second := Path.single (tail.step pair.tail) (between m pair.headStop le_rfl)
  have nops := path_nops M code p stack₂ w₂ pair.tailStop pair.rest.action behind
  have run := toTail.append (second.append nops)
  rw [List.append_nil] at run
  have count : 1 + (m - (a + i.size)) + (1 + (e - (m + j.size))) =
      (1 + (m - (a + i.size)) + (e - (m + j.size))) + 1 := by omega
  rw [count] at run
  exact ⟨_, run⟩

/-- The two instructions leave the window with `out`, the first one at once or the second one. -/
def PairLeaves (M : Machine V W) (i j : Instr) (stack : List (StackEntry V)) (w : W)
    (out : StepOutcome V W) : Prop :=
  Leaves M i stack w out ∨ ∃ stack₁ w₁, RunsOn M i stack w [] stack₁ w₁ ∧
    stack₁.length = i.depthAfter stack.length ∧ j.popCount ≤ stack₁.length ∧
      Leaves M j stack₁ w₁ out

/-- The pair `i'`, `j'` does what `i`, `j` do. -/
inductive Agree (M : Machine V W) (i j i' j' : Instr) (stack : List (StackEntry V)) (w : W) :
    Prop where
  | through {stack₁ stack₁' stack₂ : List (StackEntry V)} {w₁ w₁' w₂ : W}
      {events₁ events₂ events₁' events₂' : List (Event V)}
      (head : RunsOn M i stack w events₁ stack₁ w₁) (tail : RunsOn M j stack₁ w₁ events₂ stack₂ w₂)
      (head' : RunsOn M i' stack w events₁' stack₁' w₁')
      (tail' : RunsOn M j' stack₁' w₁' events₂' stack₂ w₂)
      (alike : (events₁' ++ events₂').filterMap Event.observe =
        (events₁ ++ events₂).filterMap Event.observe)
      (depth₁ : stack₁'.length = i'.depthAfter stack.length)
      (enough₁ : j'.popCount ≤ stack₁'.length)
      (depth₂ : stack₂.length = j'.depthAfter stack₁'.length)
      (within : ∀ visible : Nat → Prop, (∀ e ∈ stack, e.Within visible) →
        ∀ e ∈ stack₂, e.Within visible)
  | leaves {out out' : StepOutcome V W} (old : PairLeaves M i j stack w out)
      (new : PairLeaves M i' j' stack w out')
      (alike : out'.observed Event.observe = out.observed Event.observe)
      (within : ∀ visible : Nat → Prop, (∀ e ∈ stack, e.Within visible) →
        ∀ events t, out = .running events t → t.Within visible)

end RunsOn

/-! ### The pairs -/

structure Acts (i : Instr) (action : Action) (pops pushes : Nat) : Prop where
  action : i.action = action
  pops : i.popCount = pops
  pushes : i.pushCount = pushes

/-- The pairs of instructions the pass rewrites, and what it puts in their place -/
inductive Peephole (i j i' j' : Instr) : Prop where
  | putGet (x : Var) (head : Acts i (.put x) 1 0) (tail : Acts j (.get x) 0 1)
      (head' : Acts i' (.set x) 1 1) (tail' : Acts j' .nop 0 0)
  | pushDrop (head : Acts i .push 0 1) (tail : Acts j .drop 1 0) (head' : Acts i' .nop 0 0)
      (tail' : Acts j' .nop 0 0)
  | getDrop (x : Var) (head : Acts i (.get x) 0 1) (tail : Acts j .drop 1 0)
      (head' : Acts i' .nop 0 0) (tail' : Acts j' .nop 0 0)
  | setDrop (x : Var) (head : Acts i (.set x) 1 1) (tail : Acts j .drop 1 0)
      (head' : Acts i' (.put x) 1 0) (tail' : Acts j' .nop 0 0)
  | dupPut (x : Var) (head : Acts i .dup 1 2) (tail : Acts j (.put x) 1 0)
      (head' : Acts i' (.set x) 1 1) (tail' : Acts j' .nop 0 0)
  | getGet (x : Var) (head : Acts i (.get x) 0 1) (tail : Acts j (.get x) 0 1)
      (head' : Acts i' (.get x) 0 1) (tail' : Acts j' .dup 1 2)
  | setGet (x : Var) (head : Acts i (.set x) 1 1) (tail : Acts j (.get x) 0 1)
      (head' : Acts i' (.set x) 1 1) (tail' : Acts j' .dup 1 2)
  | dupDrop (head : Acts i .dup 1 2) (tail : Acts j .drop 1 0) (head' : Acts i' .nop 0 0)
      (tail' : Acts j' .nop 0 0)
  | swapSwap (head : Acts i (.shuffle ⟨[1, 0], [], []⟩) 2 2)
      (tail : Acts j (.shuffle ⟨[1, 0], [], []⟩) 2 2) (head' : Acts i' .nop 0 0)
      (tail' : Acts j' .nop 0 0)
  | swapNip (head : Acts i (.shuffle ⟨[1, 0], [], []⟩) 2 2)
      (tail : Acts j (.shuffle ⟨[0], [], [1]⟩) 2 1) (head' : Acts i' .drop 1 0)
      (tail' : Acts j' .nop 0 0)
  | undefinedReturn (head : Acts i .push 0 1) (op : i.op = opUndefined) (plain : i.operands = [])
      (tail : Acts j .return 1 0) (head' : Acts i' .returnUndef 0 0)
  | nullishEq (k : Nullish) (head : Acts i .push 0 1) (op : i.op = k.pushOp)
      (plain : i.operands = []) (tail : Acts j .other 2 1) (opTail : j.op = opStrictEq)
      (plainTail : j.operands = []) (head' : Acts i' .other 1 1) (op' : i'.op = k.testOp)
      (plain' : i'.operands = []) (tail' : Acts j' .nop 0 0)
  | dupField (head : Acts i .dup 1 2) (tail : Acts j .other 1 1) (opTail : j.op = opGetField)
      (head' : Acts i' .nop 0 0) (tail' : Acts j' .other 1 2) (opTail' : j'.op = opGetField2)
      (atom : j'.operands = j.operands)

section Acting

variable {M : Machine V W} {i j : Instr} {pops pushes : Nat} {s : List (StackEntry V)} {w : W}

theorem Acts.depth {action : Action} (acts : Acts i action pops pushes) (d : Nat) :
    i.depthAfter d = d - pops + pushes := by
  rw [Instr.depthAfter, acts.pops, acts.pushes]

theorem runs_nop (acts : Acts i .nop pops pushes) : RunsOn M i s w [] s w := by
  intro pc
  simp only [Machine.execute, acts.action]

theorem runs_push (acts : Acts i .push pops pushes) : RunsOn M i s w []
    (.value (M.push i.op i.operands w).1 :: s) (M.push i.op i.operands w).2 := by
  intro pc
  simp only [Machine.execute, acts.action]

theorem runs_get {x : Var} (acts : Acts i (.get x) pops pushes) :
    RunsOn M i s w [] (.value (M.read x w) :: s) (M.dup (M.read x w) w) := by
  intro pc
  simp only [Machine.execute, acts.action]

theorem runs_put {x : Var} (acts : Acts i (.put x) pops pushes) (v : V) :
    RunsOn M i (.value v :: s) w [.write x v] s (M.put x v w) := by
  intro pc
  simp only [Machine.execute, acts.action]

theorem runs_set {x : Var} (acts : Acts i (.set x) pops pushes) (v : V) :
    RunsOn M i (.value v :: s) w [.write x v] (.value v :: s) (M.put x v (M.dup v w)) := by
  intro pc
  simp only [Machine.execute, acts.action]

theorem runs_dup (acts : Acts i .dup pops pushes) (e : StackEntry V) :
    RunsOn M i (e :: s) w [] (e :: e :: s) (M.dupEntry e w) := by
  intro pc
  simp only [Machine.execute, acts.action]

theorem runs_drop (acts : Acts i .drop pops pushes) (e : StackEntry V) :
    RunsOn M i (e :: s) w [] s (M.freeEntry e w) := by
  intro pc
  simp only [Machine.execute, acts.action]

theorem runs_swap (acts : Acts i (.shuffle ⟨[1, 0], [], []⟩) 2 pushes) (a b : StackEntry V) :
    RunsOn M i (a :: b :: s) w [] (b :: a :: s) w := by
  intro pc
  simp [Machine.execute, acts.action, acts.pops, Machine.shuffle]

theorem runs_nip (acts : Acts i (.shuffle ⟨[0], [], [1]⟩) 2 pushes) (a b : StackEntry V) :
    RunsOn M i (a :: b :: s) w [] (a :: s) (M.freeEntry b w) := by
  intro pc
  simp [Machine.execute, acts.action, acts.pops, Machine.shuffle]

end Acting

section Agreement

variable {M : Machine V W} {i j i' j' : Instr} {stack : List (StackEntry V)} {w : W}

theorem leaves_returnUndef (acts : Acts i .returnUndef 0 0) : Leaves M i stack w
    (.halted [] (.returned (M.push opUndefined [] w).1
      (M.freeEntries stack (M.push opUndefined [] w).2))) := by
  intro pc
  simp only [Machine.execute, acts.action]

theorem leaves_return {pops pushes : Nat} (acts : Acts i .return pops pushes) (v : V) :
    Leaves M i (.value v :: stack) w (.halted [] (.returned v (M.freeEntries stack w))) := by
  intro pc
  simp only [Machine.execute, acts.action]

variable {x : Var}

/-- Where the first instruction needs a value and meets an address, both are stuck. -/
theorem leaves_stuck {pops pushes : Nat} {e : StackEntry V}
    (acts : Acts i (.put x) pops pushes ∨ Acts i (.set x) pops pushes)
    (address : ∀ v, e ≠ .value v) : Leaves M i (e :: stack) w (.halted [] .stuck) := by
  intro pc
  cases e with
  | value v => exact absurd rfl (address v)
  | catchOffset pos => rcases acts with acts | acts <;> simp only [Machine.execute, acts.action]
  | retPos pos => rcases acts with acts | acts <;> simp only [Machine.execute, acts.action]

theorem PairLeaves.first {out : StepOutcome V W} (leaves : Leaves M i stack w out) :
    PairLeaves M i j stack w out :=
  .inl leaves

theorem PairLeaves.second {stack₁ : List (StackEntry V)} {w₁ : W} {out : StepOutcome V W}
    (head : RunsOn M i stack w [] stack₁ w₁) (depth : stack₁.length = i.depthAfter stack.length)
    (enough : j.popCount ≤ stack₁.length) (leaves : Leaves M j stack₁ w₁ out) :
    PairLeaves M i j stack w out :=
  .inr ⟨stack₁, w₁, head, depth, enough, leaves⟩

theorem Agree.of_stuck (old : PairLeaves M i j stack w (.halted [] .stuck))
    (new : PairLeaves M i' j' stack w (.halted [] .stuck)) : Agree M i j i' j' stack w :=
  .leaves old new rfl fun _ _ _ _ run => nomatch run

theorem freeEntry_dupEntry (M : Machine V W) (e : StackEntry V) (w : W) :
    M.freeEntry e (M.dupEntry e w) = w := by
  cases e with
  | value v => exact M.free_dup v w
  | catchOffset pos => rfl
  | retPos pos => rfl

theorem isValue_or (e : StackEntry V) : (∃ v, e = .value v) ∨ ∀ v, e ≠ .value v := by
  cases e with
  | value v => exact .inl ⟨v, rfl⟩
  | catchOffset pos => exact .inr fun v same => nomatch same
  | retPos pos => exact .inr fun v same => nomatch same

theorem exists_cons {n : Nat} (enough : n + 1 ≤ stack.length) :
    ∃ e rest, stack = e :: rest ∧ n ≤ rest.length := by
  cases stack with
  | nil => exact absurd enough (Nat.not_succ_le_zero n)
  | cons e rest => exact ⟨e, rest, rfl, Nat.le_of_succ_le_succ enough⟩

theorem agree_putGet (head : Acts i (.put x) 1 0) (tail : Acts j (.get x) 0 1)
    (head' : Acts i' (.set x) 1 1) (tail' : Acts j' .nop 0 0) (enough : 1 ≤ stack.length) :
    Agree M i j i' j' stack w := by
  have ⟨e, rest, shape, _⟩ := exists_cons enough
  subst shape
  rcases isValue_or e with ⟨v, rfl⟩ | address
  · have get := runs_get (M := M) (s := rest) (w := M.put x v w) tail
    rw [M.read_put, M.dup_put] at get
    exact .through (runs_put head v) get (runs_set head' v) (runs_nop tail') rfl
      (by rw [head'.depth]; simp) (by rw [tail'.pops]; simp) (by rw [tail'.depth]; simp)
      fun visible within => within
  · exact .of_stuck (.first (leaves_stuck (.inl head) address))
      (.first (leaves_stuck (.inr head') address))

theorem agree_pushDrop (head : Acts i .push 0 1) (tail : Acts j .drop 1 0)
    (head' : Acts i' .nop 0 0) (tail' : Acts j' .nop 0 0) : Agree M i j i' j' stack w := by
  have drop := runs_drop (M := M) (s := stack) (w := (M.push i.op i.operands w).2) tail
    (.value (M.push i.op i.operands w).1)
  rw [Machine.freeEntry, M.free_push] at drop
  exact .through (runs_push head) drop (runs_nop head') (runs_nop tail') rfl
    (by rw [head'.depth]; simp) (by rw [tail'.pops]; simp) (by rw [tail'.depth]; simp)
    fun visible within => within

theorem agree_getDrop (head : Acts i (.get x) 0 1) (tail : Acts j .drop 1 0)
    (head' : Acts i' .nop 0 0) (tail' : Acts j' .nop 0 0) : Agree M i j i' j' stack w := by
  have drop := runs_drop (M := M) (s := stack) (w := M.dup (M.read x w) w) tail
    (.value (M.read x w))
  rw [Machine.freeEntry, M.free_dup] at drop
  exact .through (runs_get head) drop (runs_nop head') (runs_nop tail') rfl
    (by rw [head'.depth]; simp) (by rw [tail'.pops]; simp) (by rw [tail'.depth]; simp)
    fun visible within => within

theorem agree_setDrop (head : Acts i (.set x) 1 1) (tail : Acts j .drop 1 0)
    (head' : Acts i' (.put x) 1 0) (tail' : Acts j' .nop 0 0) (enough : 1 ≤ stack.length) :
    Agree M i j i' j' stack w := by
  have ⟨e, rest, shape, _⟩ := exists_cons enough
  subst shape
  rcases isValue_or e with ⟨v, rfl⟩ | address
  · have drop := runs_drop (M := M) (s := rest) (w := M.put x v (M.dup v w)) tail (.value v)
    have freed : M.freeEntry (.value v) (M.put x v (M.dup v w)) = M.put x v w := by
      rw [Machine.freeEntry, ← M.dup_put, M.free_dup]
    rw [freed] at drop
    exact .through (runs_set head v) drop (runs_put head' v) (runs_nop tail') rfl
      (by rw [head'.depth]; simp) (by rw [tail'.pops]; simp) (by rw [tail'.depth]; simp)
      fun visible within e member => within e (List.mem_cons_of_mem _ member)
  · exact .of_stuck (.first (leaves_stuck (.inr head) address))
      (.first (leaves_stuck (.inl head') address))

theorem agree_dupPut (head : Acts i .dup 1 2) (tail : Acts j (.put x) 1 0)
    (head' : Acts i' (.set x) 1 1) (tail' : Acts j' .nop 0 0) (enough : 1 ≤ stack.length) :
    Agree M i j i' j' stack w := by
  have ⟨e, rest, shape, _⟩ := exists_cons enough
  subst shape
  rcases isValue_or e with ⟨v, rfl⟩ | address
  · exact .through (runs_dup head (.value v)) (runs_put tail v) (runs_set head' v)
      (runs_nop tail') rfl (by rw [head'.depth]; simp) (by rw [tail'.pops]; simp)
      (by rw [tail'.depth]; simp) fun visible within => within
  · refine .of_stuck (.second (runs_dup head e) (by rw [head.depth]; simp) ?_
      (leaves_stuck (.inl tail) address)) (.first (leaves_stuck (.inr head') address))
    rw [tail.pops]
    simp

theorem agree_getGet (head : Acts i (.get x) 0 1) (tail : Acts j (.get x) 0 1)
    (head' : Acts i' (.get x) 0 1) (tail' : Acts j' .dup 1 2) : Agree M i j i' j' stack w := by
  have get := runs_get (M := M) (s := .value (M.read x w) :: stack)
    (w := M.dup (M.read x w) w) tail
  rw [M.read_dup] at get
  exact .through (runs_get head) get (runs_get head') (runs_dup tail' _) rfl
    (by rw [head'.depth]; simp) (by rw [tail'.pops]; simp) (by rw [tail'.depth]; simp)
    fun visible within => by simpa [StackEntry.Within] using within

theorem agree_setGet (head : Acts i (.set x) 1 1) (tail : Acts j (.get x) 0 1)
    (head' : Acts i' (.set x) 1 1) (tail' : Acts j' .dup 1 2) (enough : 1 ≤ stack.length) :
    Agree M i j i' j' stack w := by
  have ⟨e, rest, shape, _⟩ := exists_cons enough
  subst shape
  rcases isValue_or e with ⟨v, rfl⟩ | address
  · have get := runs_get (M := M) (s := .value v :: rest) (w := M.put x v (M.dup v w)) tail
    rw [M.read_put] at get
    exact .through (runs_set head v) get (runs_set head' v) (runs_dup tail' _) rfl
      (by rw [head'.depth]; simp) (by rw [tail'.pops]; simp) (by rw [tail'.depth]; simp)
      fun visible within => by simpa [StackEntry.Within] using within
  · exact .of_stuck (.first (leaves_stuck (.inr head) address))
      (.first (leaves_stuck (.inr head') address))

theorem agree_dupDrop (head : Acts i .dup 1 2) (tail : Acts j .drop 1 0)
    (head' : Acts i' .nop 0 0) (tail' : Acts j' .nop 0 0) (enough : 1 ≤ stack.length) :
    Agree M i j i' j' stack w := by
  have ⟨e, rest, shape, _⟩ := exists_cons enough
  subst shape
  have drop := runs_drop (M := M) (s := e :: rest) (w := M.dupEntry e w) tail e
  rw [freeEntry_dupEntry] at drop
  exact .through (runs_dup head e) drop (runs_nop head') (runs_nop tail') rfl
    (by rw [head'.depth]; simp) (by rw [tail'.pops]; simp) (by rw [tail'.depth]; simp)
    fun visible within => within

theorem agree_swapSwap (head : Acts i (.shuffle ⟨[1, 0], [], []⟩) 2 2)
    (tail : Acts j (.shuffle ⟨[1, 0], [], []⟩) 2 2) (head' : Acts i' .nop 0 0)
    (tail' : Acts j' .nop 0 0) (enough : 2 ≤ stack.length) : Agree M i j i' j' stack w := by
  have ⟨a, rest, shape, more⟩ := exists_cons enough
  have ⟨b, rest', shape', _⟩ := exists_cons more
  subst shape shape'
  exact .through (runs_swap head a b) (runs_swap tail b a) (runs_nop head') (runs_nop tail') rfl
    (by rw [head'.depth]; simp) (by rw [tail'.pops]; simp) (by rw [tail'.depth]; simp)
    fun visible within => within

theorem agree_swapNip (head : Acts i (.shuffle ⟨[1, 0], [], []⟩) 2 2)
    (tail : Acts j (.shuffle ⟨[0], [], [1]⟩) 2 1) (head' : Acts i' .drop 1 0)
    (tail' : Acts j' .nop 0 0) (enough : 2 ≤ stack.length) : Agree M i j i' j' stack w := by
  have ⟨a, rest, shape, more⟩ := exists_cons enough
  have ⟨b, rest', shape', _⟩ := exists_cons more
  subst shape shape'
  exact .through (runs_swap head a b) (runs_nip tail b a) (runs_drop head' a) (runs_nop tail') rfl
    (by rw [head'.depth]; simp) (by rw [tail'.pops]; simp) (by rw [tail'.depth]; simp)
    fun visible within e member => within e (List.mem_cons_of_mem _ member)

theorem agree_undefinedReturn (head : Acts i .push 0 1) (op : i.op = opUndefined)
    (plain : i.operands = []) (tail : Acts j .return 1 0) (head' : Acts i' .returnUndef 0 0) :
    Agree M i j i' j' stack w := by
  have push := runs_push (M := M) (s := stack) (w := w) head
  rw [op, plain] at push
  refine .leaves (.second push (by rw [head.depth]; simp) ?_ (leaves_return tail _))
    (.first (leaves_returnUndef head')) rfl fun _ _ _ _ run => nomatch run
  rw [tail.pops]
  simp

end Agreement

section Shorthands

variable {M : PeepholeMachine V W} {i j i' j' : Instr} {stack : List (StackEntry V)} {w : W}

section

variable {N : Machine V W} {pops pushes : Nat} (acts : Acts i .other pops pushes)
  {args r : List (StackEntry V)} {w' : W} (count : args.length = pops)

include acts count

theorem runs_other {pushed : List (StackEntry V)}
    (done : N.exec i.op i.operands args w = .next pushed w') :
    RunsOn N i (args ++ r) w [.exec i.op i.operands args] (pushed ++ r) w' := by
  intro pc
  have enough : ¬ (args ++ r).length < i.popCount := by
    rw [acts.pops, List.length_append]
    omega
  have taken : (args ++ r).take i.popCount = args := by
    rw [acts.pops, ← count, List.take_left]
  have dropped : (args ++ r).drop i.popCount = r := by
    rw [acts.pops, ← count, List.drop_left]
  simp only [Machine.execute, acts.action, if_neg enough, taken, dropped, done]

theorem leaves_other {error : V} (done : N.exec i.op i.operands args w = .raise error w') :
    Leaves N i (args ++ r) w (N.raise error [.exec i.op i.operands args] r w') := by
  intro pc
  have enough : ¬ (args ++ r).length < i.popCount := by
    rw [acts.pops, List.length_append]
    omega
  have taken : (args ++ r).take i.popCount = args := by
    rw [acts.pops, ← count, List.take_left]
  have dropped : (args ++ r).drop i.popCount = r := by
    rw [acts.pops, ← count, List.drop_left]
  simp only [Machine.execute, acts.action, if_neg enough, taken, dropped, done]

end

theorem strictEq_eq (M : PeepholeMachine V W) (k : Nullish) (e : StackEntry V) (w : W) :
    M.strictEq e (.value (M.nullish k)) w = M.isNullish k e := by
  rw [Bool.eq_iff_iff, M.strictEq_nullish, M.isNullish_iff]

theorem agree_nullishEq {k : Nullish} (head : Acts i .push 0 1) (op : i.op = k.pushOp)
    (plain : i.operands = []) (tail : Acts j .other 2 1) (opTail : j.op = opStrictEq)
    (plainTail : j.operands = []) (head' : Acts i' .other 1 1) (op' : i'.op = k.testOp)
    (plain' : i'.operands = []) (tail' : Acts j' .nop 0 0) (enough : 1 ≤ stack.length) :
    Agree M.toMachine i j i' j' stack w := by
  have ⟨e, rest, shape, _⟩ := exists_cons enough
  subst shape
  have push := runs_push (M := M.toMachine) (s := e :: rest) (w := w) head
  rw [op, plain, M.push_nullish] at push
  have freed : M.freeEntry (.value (M.nullish k)) (M.freeEntry e w) =
      if M.isNullish k e then w else M.freeEntry e w := by
    rw [Machine.freeEntry, M.free_nullish]
    split
    · next same =>
      rw [(M.isNullish_iff k e).mp same, Machine.freeEntry, M.free_nullish]
    · rfl
  have compare : M.exec j.op j.operands [.value (M.nullish k), e] w =
      .next [.value (M.ofBool (M.isNullish k e))] (if M.isNullish k e then w else M.freeEntry e w) := by
    rw [opTail, plainTail, M.exec_strictEq, freed, strictEq_eq]
  have test : M.exec i'.op i'.operands [e] w =
      .next [.value (M.ofBool (M.isNullish k e))] (if M.isNullish k e then w else M.freeEntry e w) := by
    rw [op', plain', M.exec_isNullish]
  have long := runs_other (N := M.toMachine) (r := rest) tail rfl compare
  have short := runs_other (N := M.toMachine) (r := rest) head' rfl test
  refine .through push long short (runs_nop tail') ?_ (by rw [head'.depth]; simp)
    (by rw [tail'.pops]; simp) (by rw [tail'.depth]; simp) fun visible within => ?_
  · rw [opTail, op']
    cases k <;> rfl
  · simpa [StackEntry.Within] using fun e member => within e (List.mem_cons_of_mem _ member)

section

variable (N : Machine V W) (error : V) {events events' : List (Event V)}
  (alike : events'.filterMap Event.observe = events.filterMap Event.observe)
  (stack : List (StackEntry V)) (w : W)

include alike

theorem unwind_observed :
    (N.unwind error stack events' w).observed Event.observe =
      (N.unwind error stack events w).observed Event.observe := by
  induction stack, events, w using Machine.unwind.induct N generalizing events' with
  | case1 events w => simp only [Machine.unwind, Outcome.observed, alike]
  | case2 next rest events w freed =>
      rename_i ih
      rw [Machine.unwind, Machine.unwind]
      apply ih
      rw [List.filterMap_append, List.filterMap_append, alike]
  | case3 pos rest events w => simp only [Machine.unwind, Outcome.observed, alike]
  | case4 e rest events w notMarker notHandler ih =>
      rw [Machine.unwind, Machine.unwind]
      · exact ih alike
      · exact notMarker
      · exact notHandler
      · exact notMarker
      · exact notHandler

/-- The handler that is found depends on the stack only. -/
theorem raise_observed : (N.raise error events' stack w).observed Event.observe =
      (N.raise error events stack w).observed Event.observe := by
  unfold Machine.raise
  split
  · simp only [Outcome.observed, alike]
  · exact unwind_observed N error alike stack w

end

theorem agree_dupField (head : Acts i .dup 1 2) (tail : Acts j .other 1 1)
    (opTail : j.op = opGetField) (head' : Acts i' .nop 0 0) (tail' : Acts j' .other 1 2)
    (opTail' : j'.op = opGetField2) (atom : j'.operands = j.operands)
    (enough : 1 ≤ stack.length) : Agree M.toMachine i j i' j' stack w := by
  obtain ⟨e, rest, shape, _⟩ := exists_cons enough
  subst shape
  have long := M.exec_getField j.operands e (M.dupEntry e w)
  have short := M.exec_getField2 j.operands e w
  rw [M.getProperty_dup] at long
  cases property : M.getProperty j.operands e w with
  | mk value w₁ =>
      rw [property] at long short
      dsimp only at long
      cases value with
      | ok v =>
          dsimp only at long short
          rw [freeEntry_dupEntry, ← opTail] at long
          rw [← opTail', ← atom] at short
          have get := runs_other (N := M.toMachine) (r := e :: rest) tail rfl long
          have get' := runs_other (N := M.toMachine) (r := rest) tail' rfl short
          refine .through (runs_dup head e) get (runs_nop head') get' ?_
            (by rw [head'.depth]; simp) (by rw [tail'.pops]; simp) (by rw [tail'.depth]; simp)
            fun visible within => ?_
          · rw [opTail, opTail', atom]
            rfl
          · simpa [StackEntry.Within] using within
      | error error =>
          dsimp only at long short
          obtain ⟨v, same⟩ := M.getProperty_error j.operands e w error (by rw [property])
          subst same
          rw [freeEntry_dupEntry, ← opTail] at long
          rw [← opTail', ← atom] at short
          have raised := leaves_other (N := M.toMachine) (r := .value v :: rest) tail rfl long
          have raised' := leaves_other (N := M.toMachine) (r := rest) tail' rfl short
          refine .leaves (.second (runs_dup head _) (by rw [head.depth]; simp) ?_ raised)
            (.second (runs_nop head') (by rw [head'.depth]; simp) ?_ raised') ?_ ?_
          · rw [tail.pops]
            simp
          · rw [tail'.pops]
            simp
          · -- the further reference of `dup` is released by the search for a handler
            have unwound : M.raise error [.exec j.op j.operands [.value v]] (.value v :: rest) w₁ =
                M.raise error [.exec j.op j.operands [.value v]] rest (M.freeEntry (.value v) w₁) := by
              simp only [Machine.raise, Machine.freeEntry, M.uncatchable_free]
              rfl
            rw [unwound]
            apply raise_observed
            rw [opTail, opTail', atom]
            rfl
          · intro visible within events t run
            exact M.raise_within within run

/-- Every pair does what the pair it takes the place of does. -/
theorem Peephole.agree (pair : Peephole i j i' j') (enough : i.popCount ≤ stack.length)
    (enoughTail : ∀ events stack₁ w₁, RunsOn M.toMachine i stack w events stack₁ w₁ →
      j.popCount ≤ stack₁.length) :
    Agree M.toMachine i j i' j' stack w ∧ i'.popCount ≤ stack.length := by
  cases pair with
  | putGet x head tail head' tail' =>
      rw [head.pops] at enough
      exact ⟨agree_putGet head tail head' tail' enough, by rwa [head'.pops]⟩
  | pushDrop head tail head' tail' =>
      exact ⟨agree_pushDrop head tail head' tail', by rw [head'.pops]; exact Nat.zero_le _⟩
  | getDrop x head tail head' tail' =>
      exact ⟨agree_getDrop head tail head' tail', by rw [head'.pops]; exact Nat.zero_le _⟩
  | setDrop x head tail head' tail' =>
      rw [head.pops] at enough
      exact ⟨agree_setDrop head tail head' tail' enough, by rwa [head'.pops]⟩
  | dupPut x head tail head' tail' =>
      rw [head.pops] at enough
      exact ⟨agree_dupPut head tail head' tail' enough, by rwa [head'.pops]⟩
  | getGet x head tail head' tail' =>
      exact ⟨agree_getGet head tail head' tail', by rw [head'.pops]; exact Nat.zero_le _⟩
  | setGet x head tail head' tail' =>
      rw [head.pops] at enough
      exact ⟨agree_setGet head tail head' tail' enough, by rwa [head'.pops]⟩
  | dupDrop head tail head' tail' =>
      rw [head.pops] at enough
      exact ⟨agree_dupDrop head tail head' tail' enough, by rw [head'.pops]; exact Nat.zero_le _⟩
  | swapSwap head tail head' tail' =>
      rw [head.pops] at enough
      exact ⟨agree_swapSwap head tail head' tail' enough, by rw [head'.pops]; exact Nat.zero_le _⟩
  | swapNip head tail head' tail' =>
      rw [head.pops] at enough
      exact ⟨agree_swapNip head tail head' tail' enough, by rw [head'.pops]; omega⟩
  | undefinedReturn head op plain tail head' =>
      exact ⟨agree_undefinedReturn head op plain tail head', by
        rw [head'.pops]
        exact Nat.zero_le _⟩
  | nullishEq k head op plain tail opTail plainTail head' op' plain' tail' =>
      have room := enoughTail _ _ _ (runs_push head)
      rw [tail.pops, List.length_cons] at room
      have one : 1 ≤ stack.length := by omega
      exact ⟨agree_nullishEq head op plain tail opTail plainTail head' op' plain' tail' one, by
        rwa [head'.pops]⟩
  | dupField head tail opTail head' tail' opTail' atom =>
      rw [head.pops] at enough
      exact ⟨agree_dupField head tail opTail head' tail' opTail' atom enough, by
        rw [head'.pops]
        exact Nat.zero_le _⟩

end Shorthands

/-! ### The window -/

def windowLevel (level : Nat → Nat) (a m e : Nat) (i j : Instr) (q : Nat) : Nat :=
  if a < q ∧ q < e then
    if q ≤ m then i.depthAfter (level a) else j.depthAfter (i.depthAfter (level a))
  else level q

section Window

variable {i j i' j' : Instr} {a m m' e : Nat} {stack : List (StackEntry V)} {w : W}

theorem PairLeaves.run {M : Machine V W} {p : State V W → Prop} {out : StepOutcome V W}
    (leaves : PairLeaves M i j stack w out) (pair : Pair code a m e i j)
    (first : p ⟨a, stack, w⟩)
    (between : ∀ stack₁ w₁, stack₁.length = i.depthAfter stack.length →
      j.popCount ≤ stack₁.length → ∀ q, a + i.size ≤ q → q ≤ m → p ⟨q, stack₁, w₁⟩) :
    ∃ n s, Path (M.step code) p n ⟨a, stack, w⟩ [] s ∧ p s ∧ M.step code s = out := by
  rcases leaves with atOnce | ⟨stack₁, w₁, head, depth, enough, later⟩
  · exact ⟨0, _, .refl _, first, atOnce.step pair.head⟩
  · have holds := between stack₁ w₁ depth enough
    exact ⟨_, _, pair.toTail head first fun q low high => holds q low high.le,
      holds m pair.headStop le_rfl, later.step pair.tail⟩

theorem windowLevel_gap (pair : Pair code' a m e i j) {q : Nat} (low : a + i.size ≤ q)
    (high : q ≤ m) : windowLevel level a m e i j q = i.depthAfter (level a) := by
  have headSize := pair.headSize
  have tailSize := pair.tailSize
  have tailStop := pair.tailStop
  rw [windowLevel, if_pos (by omega), if_pos high]

theorem windowLevel_rest (pair : Pair code' a m e i j) {q : Nat} (low : m + j.size ≤ q)
    (high : q < e) :
    windowLevel level a m e i j q = j.depthAfter (i.depthAfter (level a)) := by
  have headSize := pair.headSize
  have tailSize := pair.tailSize
  have headStop := pair.headStop
  rw [windowLevel, if_pos (by omega), if_neg (by omega)]

theorem windowLevel_outside {q : Nat} (outside : ¬ (a < q ∧ q < e)) :
    windowLevel level a m e i j q = level q := by
  rw [windowLevel, if_neg outside]

theorem Agree.matched {M : Machine V W} (agree : Agree M i j i' j' stack w)
    (enough : i'.popCount ≤ stack.length) (pair : Pair code a m e i j)
    (pair' : Pair code' a m' e i' j') (depth : stack.length = level a) (visibleStop : visible e)
    (within : ∀ e ∈ stack, e.Within visible) :
    Matched (M.observedStep code) (M.observedStep code') (State.Within visible)
      (Balanced (windowLevel level a m' e i' j') code') ⟨a, stack, w⟩ := by
  have first : Balanced (windowLevel level a m' e i' j') code' ⟨a, stack, w⟩ := {
    depth := by
      have outside : ¬ (a < a ∧ a < e) := fun inside => lt_irrefl a inside.1
      dsimp only
      rw [windowLevel_outside outside, depth]
    operands := fun k here => by
      rw [← Option.some.inj (pair'.head.symm.trans here)]
      exact enough }
  have between : ∀ (stack₁ : List (StackEntry V)) (w₁ : W),
      stack₁.length = i'.depthAfter stack.length → j'.popCount ≤ stack₁.length →
      ∀ q, a + i'.size ≤ q → q ≤ m' →
      Balanced (windowLevel level a m' e i' j') code' ⟨q, stack₁, w₁⟩ := by
    intro stack₁ w₁ depth₁ enough₁ q low high
    constructor
    · rw [windowLevel_gap pair' low high, ← depth, depth₁]
    · intro k here
      by_cases last : q = m'
      · subst last
        rw [← Option.some.inj (pair'.tail.symm.trans here)]
        exact enough₁
      · have ⟨k', here', nop, _⟩ := pair'.gap q low (by omega)
        rw [← Option.some.inj (here'.symm.trans here), popCount_nop nop]
        exact Nat.zero_le _
  cases agree with
  | through head tail head' tail' alike depth₁ enough₁ depth₂ kept =>
      have ⟨n, run⟩ := pair.through (p := fun _ => True) head tail trivial
        (fun _ _ _ => trivial) (fun _ _ _ => trivial)
      have ⟨n', run'⟩ := pair'.through head' tail' first (between _ _ depth₁ enough₁) (by
        intro q low high
        constructor
        · rw [windowLevel_rest pair' low high, ← depth, ← depth₁, depth₂]
        · intro k here
          have ⟨k', here', nop, _⟩ := pair'.rest q low high
          rw [← Option.some.inj (here'.symm.trans here), popCount_nop nop]
          exact Nat.zero_le _)
      exact matched_of_alike run run' alike ⟨visibleStop, kept visible within⟩
  | leaves old new alike kept =>
      have ⟨n, s, run, _, out⟩ := old.run (p := fun _ => True) pair trivial
        (fun _ _ _ _ _ _ _ => trivial)
      have ⟨n', s', run', holds, out'⟩ := new.run pair' first between
      refine matched_of_meet run.observed run'.observed holds ?_ fun seen t next => ?_
      · change (M.step code' s').observed _ = (M.step code s).observed _
        rw [out, out', alike]
      · have ⟨events, real, _⟩ := of_observed_running next
        exact kept visible within events t (out.symm.trans real)

/-- Control that enters the window with a fixed depth leaves it alike, and the depths in the new
window are fixed too. -/
theorem Peephole.matched (M : PeepholeMachine V W) (peephole : Peephole i j i' j')
    (pair : Pair code a m e i j) (pair' : Pair code' a m' e i' j')
    (steady : M.Steady level code ⟨a, stack, w⟩) (visibleStop : visible e)
    (within : ∀ e ∈ stack, e.Within visible) :
    Matched (M.observedStep code) (M.observedStep code') (State.Within visible)
      (Balanced (windowLevel level a m' e i' j') code') ⟨a, stack, w⟩ := by
  have here := steady.here
  have enoughTail : ∀ events stack₁ w₁, RunsOn M.toMachine i stack w events stack₁ w₁ →
      j.popCount ≤ stack₁.length := by
    intro events stack₁ w₁ head
    have run := pair.toTail (p := fun _ => True) head trivial fun _ _ _ => trivial
    exact (steady.path M.toMachine run).here.operands j pair.tail
  have ⟨agree, enough⟩ := peephole.agree (here.operands i pair.head) enoughTail
  exact agree.matched enough pair pair' here.depth visibleStop within

end Window

/-- `steady_of_windows` for what an execution shows -/
theorem steady_of_observed_windows (M : Machine V W) {level' : Nat → Nat} (w : W)
    (start : visible 0) (levels : ∀ pc, visible pc → level' pc = level pc)
    (steady : M.Steady level code (Machine.entry w))
    (windows : ∀ s : State V W, s.Within visible → M.Steady level code s →
      Unchanged visible code code' s.pc ∨ Matched (M.observedStep code) (M.observedStep code')
        (State.Within visible) (Balanced level' code') s) :
    SameBehaviour (M.observedStep code) (M.observedStep code') (Machine.entry w) ∧
      M.Steady level' code' (Machine.entry w) := by
  have matched : ∀ s, (s.Within visible ∧ M.Steady level code s) →
      Matched (M.observedStep code) (M.observedStep code')
        (fun t => t.Within visible ∧ M.Steady level code t) (Balanced level' code') s := by
    intro s ⟨within, safe⟩
    refine Matched.guarded ?_ fun n seen t run => ?_
    · rcases windows s within safe with unchanged | matched
      · have balanced := safe.here
        refine (unchanged.matched M within ⟨?_, ?_⟩).observed
        · rw [levels _ within.pc]
          exact balanced.depth
        · rw [unchanged.same]
          exact balanced.operands
      · exact matched
    · have ⟨trace, real, _⟩ := run.of_observed
      exact safe.path M real
  have start : (Machine.entry (V := V) w).Within visible ∧ M.Steady level code (Machine.entry w) :=
    ⟨entry_within w start, steady⟩
  exact ⟨sameBehaviour_of_matched matched start, fun t reached =>
    inv_of_reaches matched start (reaches_observed.mpr reached)⟩

end PrimJs
