import PrimJs.Bytecode.StackLevel
import PrimJs.Optimizer.DeadValuePass

/-! `opt_dead_value_elim` keeps events and results, and every stack depth stays fixed. -/

namespace PrimJs

open TraceSimulation

section Windows

variable {V W : Type} (M : Machine V W) {code code' : Code} {visible : Nat → Prop}
  {level level' : Nat → Nat}

/-- The instruction at `a` pushes one entry, and dropping it leaves the world as it was. -/
def PushesDead (M : Machine V W) (code : Code) (a b : Nat) (stack : List (StackEntry V)) (w : W) :
    Prop :=
  ∃ e w', M.step code ⟨a, stack, w⟩ = .running [] ⟨b, e :: stack, w'⟩ ∧ M.freeEntry e w' = w

/-- A value, `nop`s and a jump to a `drop` against `nop`s and a jump behind the `drop`. -/
theorem matched_deadGoto {a b x l : Nat} {j j' d : Instr} (order : a < b) (room : b ≤ x)
    (gap : ∀ q, b ≤ q → q < x → ∃ i, code q = some i ∧ i.action = .nop ∧ i.size = 1)
    (jump : code x = some j) (jumpAction : j.action = .goto) (goal : j.target = some l)
    (drop : code l = some d) (dropAction : d.action = .drop) (dropSize : d.size = 1)
    (gap' : ∀ q, a ≤ q → q < x → ∃ i, code' q = some i ∧ i.action = .nop ∧ i.size = 1)
    (nopPops : ∀ q i, a ≤ q → q < x → code' q = some i → i.popCount = 0)
    (jump' : code' x = some j') (jumpAction' : j'.action = .goto) (jumpPops : j'.popCount = 0)
    (goal' : j'.target = some (l + 1))
    (levelValue : ∀ q, a ≤ q → q < b → level' q = level a)
    (levelGap : ∀ q, b ≤ q → q ≤ x → level' q = level q - 1)
    (visibleGoal : visible (l + 1)) {stack : List (StackEntry V)} {w : W}
    (within : ∀ e ∈ stack, e.Within visible) (steady : M.Steady level code ⟨a, stack, w⟩)
    (pushes : PushesDead M code a b stack w) :
    Matched (M.step code) (M.step code') (State.Within visible) (Balanced level' code')
      ⟨a, stack, w⟩ := by
  have ⟨e, w', push, freed⟩ := pushes
  have first : Path (M.step code) (fun _ => True) 1 ⟨a, stack, w⟩ [] ⟨b, e :: stack, w'⟩ :=
    .single push trivial
  have here := steady.here.depth
  dsimp only at here
  have depth : ∀ q, b ≤ q → q ≤ x → stack.length = level q - 1 := by
    intro q low high
    have nops := path_nops M code (fun _ => True) (e :: stack) w' low
      (fun r above below => gap r above (by omega)) (fun _ _ _ => trivial)
    have reached := (steady.path M (first.append nops)).here.depth
    simp only [List.length_cons] at reached
    omega
  have behind := path_nops M code (fun _ => True) (e :: stack) w' room
    gap (fun _ _ _ => trivial)
  have goes : M.step code ⟨x, e :: stack, w'⟩ = .running [] ⟨l, e :: stack, w'⟩ := by
    rw [step_goto M jump jumpAction, goal]
    rfl
  have drops : M.step code ⟨l, e :: stack, w'⟩ = .running [] ⟨l + 1, stack, w⟩ := by
    rw [step_drop M drop dropAction, dropSize, freed]
  have run := first.append (behind.append ((Path.single goes trivial).append
    (Path.free drops)))
  have levels : ∀ q, a ≤ q → q ≤ x → stack.length = level' q := by
    intro q low high
    by_cases value : q < b
    · rw [levelValue q low value, here]
    · rw [levelGap q (by omega) high]
      exact depth q (by omega) high
  have ahead := path_nops M code' (Balanced level' code') stack w
    (Nat.le_trans order.le room) gap' fun q low high => {
      depth := levels q low high.le
      operands := fun i here => by rw [nopPops q i low high here]; exact Nat.zero_le _ }
  have goes' : M.step code' ⟨x, stack, w⟩ = .running [] ⟨l + 1, stack, w⟩ := by
    rw [step_goto M jump' jumpAction', goal']
    rfl
  have balanced : Balanced level' code' ⟨x, stack, w⟩ := {
    depth := levels x (by omega) (Nat.le_refl _)
    operands := fun i here => by
      have same := Option.some.inj (jump'.symm.trans here)
      rw [← same, jumpPops]
      exact Nat.zero_le _ }
  have run' := ahead.append (Path.single goes' balanced)
  rw [show 1 + (x - b + (1 + 1)) = (x - b + 2) + 1 by omega] at run
  exact matched_of_paths run run' ⟨visibleGoal, within⟩

/-- `dup`, `nop`s, a conditional jump to a `drop` and a `drop` behind it, against the conditional
jump alone. -/
theorem matched_dupIf {a x b d l : Nat} {i j j' k k' : Instr} {taken : Bool} (order : a + 1 ≤ x)
    (room : b ≤ d) (dup : code a = some i) (dupAction : i.action = .dup) (dupSize : i.size = 1)
    (gap : ∀ q, a + 1 ≤ q → q < x → ∃ i, code q = some i ∧ i.action = .nop ∧ i.size = 1)
    (test : code x = some j) (testAction : j.action = .jumpIf taken) (goal : j.target = some l)
    (behind : x + j.size = b)
    (gapDrop : ∀ q, b ≤ q → q < d → ∃ i, code q = some i ∧ i.action = .nop ∧ i.size = 1)
    (drop : code d = some k) (dropAction : k.action = .drop) (dropSize : k.size = 1)
    (dropGoal : code l = some k') (dropGoalAction : k'.action = .drop) (dropGoalSize : k'.size = 1)
    (gap' : ∀ q, a ≤ q → q < x → ∃ i, code' q = some i ∧ i.action = .nop ∧ i.size = 1)
    (nopPops : ∀ q i, (a ≤ q ∧ q < x ∨ b ≤ q ∧ q < d + 1) → code' q = some i → i.popCount = 0)
    (test' : code' x = some j') (testAction' : j'.action = .jumpIf taken)
    (testPops : j'.popCount = 1) (goal' : j'.target = some (l + 1)) (behind' : x + j'.size = b)
    (gapDrop' : ∀ q, b ≤ q → q < d + 1 → ∃ i, code' q = some i ∧ i.action = .nop ∧ i.size = 1)
    (levelDup : level' a = level a)
    (levelGap : ∀ q, a + 1 ≤ q → q ≤ x → level' q = level q - 1)
    (levelDrop : ∀ q, b ≤ q → q ≤ d → level' q = level q - 1)
    (visibleDrop : visible (d + 1)) (visibleGoal : visible (l + 1))
    {stack : List (StackEntry V)} {w : W} (within : ∀ e ∈ stack, e.Within visible)
    (steady : M.Steady level code ⟨a, stack, w⟩) (needs : i.popCount = 1) :
    Matched (M.step code) (M.step code') (State.Within visible) (Balanced level' code')
      ⟨a, stack, w⟩ := by
  have here := steady.here
  have enough := here.operands i dup
  have depthDup := here.depth
  dsimp only at enough depthDup
  rcases stack with _ | ⟨e, stack⟩
  · simp only [List.length_nil] at enough
    omega
  · have rests : ∀ x ∈ stack, x.Within visible := fun x member => within x (by simp [member])
    have dups : M.step code ⟨a, e :: stack, w⟩ =
        .running [] ⟨a + 1, e :: e :: stack, M.dupEntry e w⟩ := by
      rw [step_dup M dup dupAction, dupSize]
    have first := Path.free dups
    have toGap : ∀ q, a + 1 ≤ q → q ≤ x → Path (M.step code) (fun _ => True) (1 + (q - (a + 1)))
        ⟨a, e :: stack, w⟩ [] ⟨q, e :: e :: stack, M.dupEntry e w⟩ := by
      intro q low high
      exact first.append (path_nops M _ _ _ _ low (fun r above below => gap r above (by omega))
        (fun _ _ _ => trivial))
    have levels : ∀ q, a ≤ q → q ≤ x → (e :: stack).length = level' q := by
      intro q low high
      by_cases atDup : q = a
      · rw [atDup, levelDup, depthDup]
      · rw [levelGap q (by omega) high]
        have reached := (steady.path M (toGap q (by omega) high)).here.depth
        simp only [List.length_cons] at reached ⊢
        omega
    have ahead := path_nops M code' (Balanced level' code') (e :: stack) w (by omega) gap' fun q low high => {
        depth := levels q low high.le
        operands := fun i here => by rw [nopPops q i (.inl ⟨low, high⟩) here]; exact Nat.zero_le _ }
    have balanced : Balanced level' code' ⟨x, e :: stack, w⟩ := {
      depth := levels x (by omega) (Nat.le_refl _)
      operands := fun i here => by
        have same := Option.some.inj (test'.symm.trans here)
        rw [← same, testPops]
        simp }
    have upTo := toGap x order (Nat.le_refl _)
    have blocked : (∀ v, e ≠ .value v) →
        M.step code ⟨x, e :: e :: stack, M.dupEntry e w⟩ = .halted [] .stuck ∧
          M.step code' ⟨x, e :: stack, w⟩ = .halted [] .stuck := by
      intro none
      simp only [Machine.step, test, test', Machine.execute, testAction, testAction']
      cases e with
      | value v => exact (none v rfl).elim
      | catchOffset pos => exact ⟨rfl, rfl⟩
      | retPos pos => exact ⟨rfl, rfl⟩
    by_cases value : ∃ v, e = .value v
    · obtain ⟨v, same⟩ := value
      subst same
      have step := step_jumpIf M test testAction v (.value v :: stack) (M.dup v w)
      have step' := step_jumpIf M test' testAction' v stack w
      rw [M.test_dup, goal, behind] at step
      rw [goal', behind'] at step'
      have freed : M.freeEntry (.value v) (M.test v (M.dup v w)).2 = (M.test v w).2 :=
        M.free_test v w
      by_cases decided : (M.test v w).1 = taken
      · rw [if_pos decided] at step step'
        have drops : M.step code ⟨l, .value v :: stack, (M.test v (M.dup v w)).2⟩ =
            .running [] ⟨l + 1, stack, (M.test v w).2⟩ := by
          rw [step_drop M dropGoal dropGoalAction, dropGoalSize, freed]
        have run := upTo.append ((Path.single step trivial).append
          (Path.free drops))
        rw [show 1 + (x - (a + 1)) + (1 + 1) = (x - (a + 1) + 2) + 1 by omega] at run
        exact matched_of_paths run (ahead.append (Path.single step' balanced))
          ⟨visibleGoal, rests⟩
      · rw [if_neg decided] at step step'
        have past : ∀ q, b ≤ q → q ≤ d → Path (M.step code) (fun _ => True)
            (1 + (x - (a + 1)) + (1 + (q - b))) ⟨a, .value v :: stack, w⟩ []
            ⟨q, .value v :: stack, (M.test v (M.dup v w)).2⟩ := by
          intro q low high
          exact upTo.append ((Path.single step trivial).append
            (path_nops M _ _ _ _ low (fun r above below => gapDrop r above (by omega))
              (fun _ _ _ => trivial)))
        have levelsDrop : ∀ q, b ≤ q → q ≤ d → stack.length = level' q := by
          intro q low high
          rw [levelDrop q low high]
          have reached := (steady.path M (past q low high)).here.depth
          simp only [List.length_cons] at reached
          omega
        have drops : M.step code ⟨d, .value v :: stack, (M.test v (M.dup v w)).2⟩ =
            .running [] ⟨d + 1, stack, (M.test v w).2⟩ := by
          rw [step_drop M drop dropAction, dropSize, freed]
        have run := (past d room (Nat.le_refl _)).append
          (Path.free drops)
        have behindNops := path_nops M code' (Balanced level' code') stack
          (M.test v w).2 (Nat.le_succ_of_le room) gapDrop' fun q low high => {
            depth := levelsDrop q low (by omega)
            operands := fun i here => by
              rw [nopPops q i (.inr ⟨low, high⟩) here]
              exact Nat.zero_le _ }
        have run' := ahead.append ((Path.single step' balanced).append behindNops)
        rw [show x - a + (1 + (d + 1 - b)) = (x - a + (d + 1 - b)) + 1 by omega] at run'
        exact matched_of_paths run run' ⟨visibleDrop, rests⟩
    · obtain ⟨stop, stop'⟩ := blocked fun v same => value ⟨v, same⟩
      exact matched_of_meet upTo ahead balanced (stop'.trans stop.symm) fun events t run => by
        rw [stop] at run
        cases run

end Windows

namespace BcOut

def isVarRead (op : Nat) : Bool :=
  (opGetLoc0 ≤ op && op ≤ opGetLoc3) || op == opGetLoc8 || (opGetArg0 ≤ op && op ≤ opGetArg3) ||
    (opGetVarRef0 ≤ op && op ≤ opGetVarRef3) || op == opGetLoc || op == opGetArg || op == opGetVarRef

theorem isVarRead_action {op : Nat} (read : isVarRead op = true) (operands : List UInt8) :
    ∃ x, actionOf op operands = .get x := by
  have known : op < opCount := by
    have listed : ∀ op, isVarRead op = true → op ≤ 255 := by
      intro op
      simp only [isVarRead, Bool.or_eq_true, Bool.and_eq_true, beq_iff_eq, decide_eq_true_eq]
      unfold opGetLoc0 opGetLoc3 opGetLoc8 opGetArg0 opGetArg3 opGetVarRef0 opGetVarRef3 opGetLoc
        opGetArg opGetVarRef
      omega
    have small := listed op read
    revert read
    revert op
    decide +kernel
  have listed : ∀ op < opCount, isVarRead op = true → op ∈ [opGetLoc0, opGetLoc1, opGetLoc2,
      opGetLoc3, opGetLoc8, opGetArg0, opGetArg1, opGetArg2, opGetArg3, opGetVarRef0, opGetVarRef1,
      opGetVarRef2, opGetVarRef3, opGetLoc, opGetArg, opGetVarRef] := by decide +kernel
  have member := listed op known read
  simp only [List.mem_cons, List.not_mem_nil, or_false] at member
  rcases member with same | same | same | same | same | same | same | same | same | same | same |
    same | same | same | same | same
  all_goals
    subst same
    exact ⟨_, rfl⟩

theorem isConstantPush_action {op : Nat} (known : op < opCount) (push : isConstantPush op = true)
    (operands : List UInt8) : actionOf op operands = .push := by
  have others : ∀ op < opCount, isConstantPush op = true → op ≠ opNop ∧ op ≠ opDup ∧ op ≠ opDrop := by
    decide +kernel
  have ⟨notNop, notDup, notDrop⟩ := others op known push
  rw [actionOf, if_neg notNop, if_neg notDup, if_neg notDrop, if_pos push]

theorem deadValue_cases : ∀ op < opCount, isDeadValueOp op = true →
    op = opDup ∨ isConstantPush op = true ∨ isVarRead op = true := by
  decide +kernel

/-- A dead value is pushed without effect. -/
theorem pushesDead_of_value {V W : Type} (M : Machine V W) {P : BcOut} {level : Nat → Nat} {a : Nat}
    {stack : List (StackEntry V)} {w : W} (accurate : P.Accurate) (start : P.Start a)
    (inside : a < P.size) (value : isDeadValueOp (P.opAt a) = true)
    (steady : M.Steady level P.code ⟨a, stack, w⟩) :
    PushesDead M P.code a (a + opSize (P.opAt a)) stack w := by
  have known := accurate.known start inside
  have here := code_inside (P := P) inside
  rcases deadValue_cases _ known value with dup | push | read
  · have enough := steady.here.operands _ here
    simp only [Instr.popCount, dup] at enough
    rcases stack with _ | ⟨e, stack⟩
    · exact (Nat.not_succ_le_zero _ enough).elim
    · refine ⟨e, M.dupEntry e w, ?_, ?_⟩
      · exact step_dup M here (by change actionOf (P.opAt a) _ = .dup; rw [dup]; rfl)
      · cases e with
        | value v => exact M.free_dup v w
        | catchOffset pos => rfl
        | retPos pos => rfl
  · refine ⟨.value (M.push (P.opAt a) (P.operandBytes a) w).1,
      (M.push (P.opAt a) (P.operandBytes a) w).2, ?_, M.free_push _ _ _⟩
    have action := isConstantPush_action known push (P.operandBytes a)
    simp only [Machine.step, here, Machine.execute, Instr.action, action]
  · obtain ⟨x, action⟩ := isVarRead_action read (P.operandBytes a)
    refine ⟨.value (M.read x w), M.dup (M.read x w) w, ?_, M.free_dup _ _⟩
    simp only [Machine.step, here, Machine.execute, Instr.action, action]

namespace Eliminated

variable {P R : BcOut} {moved : Nat → Prop} {q : Nat} {j j' : JumpSlot}
  (elim : Eliminated P R P.liveLabelTargets moved) (accurate : P.Accurate)
  (plain : ∀ j, P.JumpsTo moved j → P.liveLabelTargets (jumpPos j) = false)

def Inside (P : BcOut) (moved : Nat → Prop) (q : Nat) : Prop :=
  ∃ j, P.JumpsTo moved j ∧ P.valuePos P.instrStarts P.liveLabelTargets j < q ∧
    q < P.windowStop P.liveLabelTargets j

def Visible (P : BcOut) (moved : Nat → Prop) (q : Nat) : Prop := P.Start q ∧ ¬ Inside P moved q

open Classical in
/-- The stack depths after the pass: inside a window the dead value is missing. -/
noncomputable def levelAfter (P : BcOut) (moved : Nat → Prop) (level : Nat → Nat) (q : Nat) : Nat :=
  if P.Start q then (if Inside P moved q then level q - 1 else level q)
  else level (Nat.findGreatest P.Start q)

include elim accurate

/-- Windows begin outside other windows. -/
theorem value_outside (jumps : P.JumpsTo moved j) :
    ¬ Inside P moved (P.valuePos P.instrStarts P.liveLabelTargets j) := by
  intro ⟨j', jumps', low, high⟩
  have ⟨_, _, window⟩ := elim.windows accurate j jumps
  have ⟨_, _, window'⟩ := elim.windows accurate j' jumps'
  have ⟨plainOp, real, notDrop⟩ := window.valueOp accurate
  rcases window'.between window.start low high with nop | same | ⟨_, drop⟩
  · exact real nop
  · have jump := window'.slot.jump
    rw [← window'.slot.op, ← same, plainOp] at jump
    cases jump
  · exact notDrop drop

theorem stop_outside (jumps : P.JumpsTo moved j) :
    ¬ Inside P moved (P.windowStop P.liveLabelTargets j) := by
  intro ⟨j', jumps', low, high⟩
  have ⟨_, _, window⟩ := elim.windows accurate j jumps
  have ⟨_, _, window'⟩ := elim.windows accurate j' jumps'
  have before := window.value_lt_jump accurate
  have last := window.jump_lt_stop
  have outside := elim.value_outside accurate jumps
  have outside' := elim.value_outside accurate jumps'
  rcases Nat.lt_trichotomy (P.valuePos P.instrStarts P.liveLabelTargets j)
    (P.valuePos P.instrStarts P.liveLabelTargets j') with first | same | second
  · exact outside' ⟨j, jumps, first, low⟩
  · have jump := window.jump_eq accurate window' same
    have slot := window'.slot
    rw [← jump] at slot
    have equal := accurate.slot_eq jumps.1 jumps'.1 jumps.2.1 jumps'.2.1 window.slot slot
    rw [equal] at high
    exact Nat.lt_irrefl _ high
  · exact outside ⟨j', jumps', second, by omega⟩

include plain

theorem unlabelled (inside : Inside P moved q) : P.liveLabelTargets q = false := by
  by_contra live
  have start := accurate.start_of_live (by simpa using live)
  have ⟨j, jumps, low, high⟩ := inside
  have ⟨_, _, window⟩ := elim.windows accurate j jumps
  have stop := window.stop_le accurate
  rcases Nat.lt_trichotomy q (jumpPos j) with before | same | after
  · have free := (window.prev.between q low before
      (accurate.instrStarts_iff.mpr ⟨start, by omega⟩)).2
    exact live free
  · rw [same] at live
    exact live (plain j jumps)
  · have behindJump := window.slot.start.next_le start after
    have op := window.slot.op
    unfold opAt at op
    rw [op] at behindJump
    rcases window.shape with behind | ⟨_, stops⟩
    · by_cases last : q + 1 = P.windowStop P.liveLabelTargets j
      · have free := behind.free
        have same : P.windowStop P.liveLabelTargets j - 1 = q := by omega
        rw [same] at free
        exact live free
      · exact live (behind.gap q behindJump (by omega)).2
    · omega

theorem visible_target {t : Nat} {i : Instr} (here : P.code q = some i) (jump : i.target = some t) :
    Visible P moved t := by
  have ⟨start, live⟩ := accurate.target_live here jump
  refine ⟨start, fun inside => ?_⟩
  have ⟨j, jumps, _, high⟩ := inside
  have ⟨_, _, window⟩ := elim.windows accurate j jumps
  have stop := window.stop_le accurate
  have free := elim.unlabelled accurate plain inside
  rw [live (by omega)] at free
  cases free

omit plain in
theorem unchanged (visible : Visible P moved q)
    (other : ∀ j, P.JumpsTo moved j → P.valuePos P.instrStarts P.liveLabelTargets j ≠ q) :
    R.code q = P.code q := by
  have ⟨start, outside⟩ := visible
  have windows := elim.windows accurate
  refine elim.code_eq accurate start (fun i low high erased => ?_) fun j jumps same => ?_
  · have ⟨j, jumps, window, here⟩ := erased.cases windows
    have last := window.jump_lt_stop
    have before := window.value_lt_jump accurate
    have different := other j jumps
    rcases here with ⟨first, inValue⟩ | ⟨behind, atDrop⟩
    · by_cases below : P.valuePos P.instrStarts P.liveLabelTargets j < q
      · exact outside ⟨j, jumps, below, by have room := window.room; omega⟩
      · have fits := start.next_le window.start (by omega)
        unfold opAt at high
        omega
    · have room := behind.room
      have startDrop := start_drop accurate window behind
      by_cases below : q < P.windowStop P.liveLabelTargets j - 1
      · have fits := start.next_le startDrop below
        unfold opAt at high
        omega
      · exact outside ⟨j, jumps, by omega, by omega⟩
  · have ⟨_, _, window⟩ := windows j jumps
    have last := window.jump_lt_stop
    have before := window.value_lt_jump accurate
    exact outside ⟨j, jumps, by omega, by omega⟩

theorem unchanged_window (visible : Visible P moved q)
    (other : ∀ j, P.JumpsTo moved j → P.valuePos P.instrStarts P.liveLabelTargets j ≠ q) :
    Unchanged (Visible P moved) P.code R.code q where
  same := elim.unchanged accurate visible other
  next i here _ := by
    have ⟨start, outside⟩ := visible
    have ⟨inside, _⟩ := code_eq_some here
    rw [code_size here]
    refine ⟨accurate.next start inside, fun ⟨j, jumps, low, high⟩ => ?_⟩
    have ⟨_, _, window⟩ := elim.windows accurate j jumps
    have different := other j jumps
    by_cases below : P.valuePos P.instrStarts P.liveLabelTargets j < q
    · exact outside ⟨j, jumps, below, by omega⟩
    · have fits := start.next_le window.start (by omega)
      unfold opAt at low
      omega
  jump i t here jump := elim.visible_target accurate plain here jump

/-! The levels. -/

omit elim accurate plain in
theorem level_visible (level : Nat → Nat) (visible : Visible P moved q) :
    levelAfter P moved level q = level q := by
  have ⟨start, outside⟩ := visible
  rw [levelAfter, if_pos start, if_neg outside]

omit elim accurate plain in
theorem level_inside (level : Nat → Nat) (start : P.Start q) (inside : Inside P moved q) :
    levelAfter P moved level q = level q - 1 := by
  rw [levelAfter, if_pos start, if_pos inside]

open Classical in
omit plain in
theorem level_value (level : Nat → Nat) (jumps : P.JumpsTo moved j)
    (low : P.valuePos P.instrStarts P.liveLabelTargets j ≤ q)
    (high : q < P.valuePos P.instrStarts P.liveLabelTargets j +
      opSize (P.opAt (P.valuePos P.instrStarts P.liveLabelTargets j))) :
    levelAfter P moved level q =
      level (P.valuePos P.instrStarts P.liveLabelTargets j) := by
  have ⟨_, _, window⟩ := elim.windows accurate j jumps
  have onlyStart : ∀ r, P.valuePos P.instrStarts P.liveLabelTargets j < r → r ≤ q →
      ¬ P.Start r := by
    intro r above below start
    have fits := window.start.next_le start above
    unfold opAt at high
    omega
  by_cases same : P.valuePos P.instrStarts P.liveLabelTargets j = q
  · rw [← same]
    exact level_visible level ⟨window.start, elim.value_outside accurate jumps⟩
  · have notStart := onlyStart q (by omega) (Nat.le_refl q)
    rw [levelAfter, if_neg notStart]
    congr 1
    rw [Nat.findGreatest_eq_iff]
    exact ⟨low, fun _ => window.start, fun r above below => onlyStart r above below⟩

omit accurate plain in
theorem visible_behind_drop {l L : Nat} (accurate : P.Accurate)
    (plain : ∀ j, P.JumpsTo moved j → P.liveLabelTargets (jumpPos j) = false)
    (jumps : P.JumpsTo moved j) (same : j.label = l) (addr : P.labelAddr l = L) (inside : L < P.size)
    (drop : P.opAt L = opDrop) : Visible P moved (L + 1) := by
  have ⟨pos, addr', start, _⟩ := accurate.targets j jumps.1 jumps.2.1
  rw [same] at addr'
  have equal : pos = L := by omega
  subst equal
  have next := accurate.next start inside
  rw [drop] at next
  refine ⟨next, fun ⟨j', jumps', low, high⟩ => ?_⟩
  have ⟨_, _, window⟩ := elim.windows accurate j' jumps'
  have ⟨k, _, found⟩ := exists_jp jumps.1
  have live : P.liveLabelTargets pos = true := by
    have labels := accurate.labelTargets_live (k := k) (q := pos) (by rw [found]; exact jumps.2.1)
      (by rw [found, same]; exact addr) inside
    exact labels
  by_cases value : P.valuePos P.instrStarts P.liveLabelTargets j' = pos
  · have ⟨_, _, notDrop⟩ := window.valueOp accurate
    rw [value] at notDrop
    exact notDrop drop
  · have free := elim.unlabelled accurate plain (q := pos) ⟨j', jumps', by omega, by omega⟩
    rw [live] at free
    cases free

section

variable {V W : Type} (M : Machine V W) {level : Nat → Nat}

theorem window_matched (jumps : P.JumpsTo moved j) {stack : List (StackEntry V)} {w : W}
    (within : ∀ e ∈ stack, e.Within (Visible P moved))
    (steady : M.Steady level P.code ⟨P.valuePos P.instrStarts P.liveLabelTargets j, stack, w⟩) :
    Matched (M.step P.code) (M.step R.code) (State.Within (Visible P moved))
      (Balanced (levelAfter P moved level) R.code)
      ⟨P.valuePos P.instrStarts P.liveLabelTargets j, stack, w⟩ := by
  have ⟨member, live, inMoved⟩ := jumps
  obtain ⟨_, _, window⟩ := elim.windows accurate j jumps
  obtain ⟨L, addr, insideL, dropL, _⟩ := matchLabel_addr (elim.matched _ inMoved)
  obtain ⟨pos, addr', startL, _⟩ := accurate.targets j member live
  have equal : pos = L := by omega
  subst equal
  have accurateR := elim.accurate_after accurate
  have visibleL := elim.visible_behind_drop accurate plain jumps rfl addr insideL dropL
  have levelValue := fun q => elim.level_value accurate (q := q) level jumps
  have room := window.room
  have jumpStop := window.jump_lt_stop
  have before := window.value_lt_jump accurate
  have startGap := fun q => window.startGap accurate (q := q)
  have levelInside : ∀ q, P.Start q → P.valuePos P.instrStarts P.liveLabelTargets j < q →
      q < P.windowStop P.liveLabelTargets j → levelAfter P moved level q = level q - 1 :=
    fun q start low high => level_inside level start ⟨j, jumps, low, high⟩
  have visibleStop : Visible P moved (P.windowStop P.liveLabelTargets j) :=
    ⟨window.startStop accurate, elim.stop_outside accurate jumps⟩
  have jumpOp := elim.erasing.jump (elim.windows accurate) jumps
  have erased : ∀ q, q < P.size → ErasedBy P (P.valuePos P.instrStarts P.liveLabelTargets)
      (P.windowStop P.liveLabelTargets) (P.JumpsTo moved) q → R.opAt q = opNop :=
    elim.erasing.erased
  have sizeR := elim.erasing.size
  have addrR : R.labelAddr j.label = (pos + 1 : Nat) := by
    rw [labelAddr, elim.movedSlot _ inMoved, addr]
    rfl
  have memberR : j ∈ R.jumpSlots := by
    rw [elim.erasing.jumpSlots]
    exact member
  have pushes := pushesDead_of_value M accurate window.start window.insideValue window.value steady
  generalize valueEq : P.valuePos P.instrStarts P.liveLabelTargets j = a at *
  generalize stopEq : P.windowStop P.liveLabelTargets j = e at *
  have insideJump := window.slot.inside
  have positive := accurate.size_pos window.start window.insideValue
  have slotR : R.SlotAccurate j (jumpPos j) := {
    start := elim.starts accurate window.slot.start
    inside := sizeR ▸ insideJump
    op := jumpOp.trans window.slot.op
    jump := window.slot.jump
    width := window.slot.width
    operand := window.slot.operand }
  have nopsR : ∀ q, a ≤ q → q < jumpPos j → R.opAt q = opNop := by
    intro q low high
    by_cases inValue : q < a + opSize (P.opAt a)
    · exact erased q (by omega) ⟨j, jumps, .inl (by rw [valueEq]; exact ⟨low, inValue⟩)⟩
    · exact elim.erasing.nop (by omega) (window.gap q (by omega) high)
  have codeDrop := code_inside insideL
  have codeJump := code_inside (P := P) insideJump
  have codeJumpR := code_inside slotR.inside
  have goal := accurate.target_eq member live window.slot addr
  have goalR := accurateR.target_eq memberR live slotR addrR
  rcases window.shape with behind | ⟨isGoto, stops⟩
  · obtain ⟨_, _, _, _, _, size, pops, taken, action⟩ := isIfOp_spec behind.isIf
    have roomDrop := behind.room
    have insideStop := behind.inside
    have dropStop : e - 1 + 1 = e := by omega
    have insideDrop : e - 1 < P.size := by omega
    have codeStop := code_inside insideDrop
    have codeDup := code_inside (P := P) window.insideValue
    have gap : ∀ q, a + 1 ≤ q → q < jumpPos j → P.opAt q = opNop := by
      intro q low high
      refine window.gap q ?_ high
      rw [behind.dup]
      exact low
    have startBehind : ∀ q, jumpPos j + opSize j.op ≤ q → q ≤ e - 1 → P.Start q := by
      intro q low high
      have next := accurate.next window.slot.start insideJump
      rw [window.slot.op] at next
      exact next.trans (.nops low fun i above below => (behind.gap i above (by omega)).1)
    have behindR : ∀ q, jumpPos j + opSize j.op ≤ q → q < e - 1 + 1 → R.opAt q = opNop := by
      intro q low high
      by_cases last : q + 1 = e
      · exact erased q (by omega) ⟨j, jumps, .inr ⟨behind.isIf, by rw [stopEq]; exact last⟩⟩
      · exact elim.erasing.nop (by omega) (behind.gap q low (by omega)).1
    have test : Instr.action ⟨P.opAt (jumpPos j), opSize (P.opAt (jumpPos j)),
        P.operandBytes (jumpPos j), P.target (jumpPos j)⟩ = .jumpIf taken := by
      change actionOf (P.opAt (jumpPos j)) _ = .jumpIf taken
      rw [window.slot.op, action]
    refine matched_dupIf M (a := a) (x := jumpPos j) (b := jumpPos j + opSize j.op) (d := e - 1)
      (l := pos) (by omega) (by omega) codeDup ?_ ?_
      (code_nops insideJump.le gap) codeJump test goal ?_
      (code_nops (by omega) fun q low high => (behind.gap q low (by omega)).1) codeStop ?_ ?_ codeDrop
      ?_ ?_ (code_nops (by omega) nopsR) ?_ codeJumpR ?_ ?_ goalR ?_ (code_nops (by omega) behindR)
      ?_ ?_ ?_ (by rw [dropStop]; exact visibleStop) visibleL within steady ?_
    · change actionOf (P.opAt a) _ = .dup
      rw [behind.dup]
      rfl
    · change opSize (P.opAt a) = 1
      rw [behind.dup]
      rfl
    · change jumpPos j + opSize (P.opAt (jumpPos j)) = _
      rw [window.slot.op]
    · change actionOf (P.opAt (e - 1)) _ = .drop
      rw [behind.drop]
      rfl
    · change opSize (P.opAt (e - 1)) = 1
      rw [behind.drop]
      rfl
    · change actionOf (P.opAt pos) _ = .drop
      rw [dropL]
      rfl
    · change opSize (P.opAt pos) = 1
      rw [dropL]
      rfl
    · intro q i range here
      rcases range with ⟨low, high⟩ | ⟨low, high⟩
      · exact nop_pops here (nopsR q low high)
      · exact nop_pops here (behindR q low high)
    · change actionOf (R.opAt (jumpPos j)) _ = .jumpIf taken
      rw [slotR.op, action]
    · exact pops _ slotR.op
    · change jumpPos j + opSize (R.opAt (jumpPos j)) = _
      rw [slotR.op]
    · exact levelValue a (Nat.le_refl a) (by omega)
    · intro q low high
      refine levelInside q (startGap q ?_ high) (by omega) (by omega)
      rw [behind.dup]
      exact low
    · exact fun q low high => levelInside q (startBehind q low high) (by omega) (by omega)
    · simp only [Instr.popCount, behind.dup]
      rfl
  · obtain ⟨_, _, _, _, _, _, _, pops, action⟩ := isGotoOp_spec isGoto
    refine matched_deadGoto M (a := a) (b := a + opSize (P.opAt a)) (x := jumpPos j) (l := pos)
      (by omega) room (code_nops insideJump.le window.gap) codeJump ?_ goal codeDrop ?_ ?_
      (code_nops (by omega) nopsR) ?_ codeJumpR ?_ ?_ goalR (fun q => levelValue q) ?_ visibleL
      within steady pushes
    · change actionOf (P.opAt (jumpPos j)) _ = .goto
      rw [window.slot.op, action]
    · change actionOf (P.opAt pos) _ = .drop
      rw [dropL]
      rfl
    · change opSize (P.opAt pos) = 1
      rw [dropL]
      rfl
    · exact fun q i low high here => nop_pops here (nopsR q low high)
    · change actionOf (R.opAt (jumpPos j)) _ = .goto
      rw [slotR.op, action]
    · exact pops _ slotR.op
    · exact fun q low high => levelInside q (startGap q low high) (by omega) (by omega)

/-- The code after the pass behaves as before, with one depth for every instruction. -/
theorem steady_after (w : W) (steady : M.Steady level P.code (Machine.entry w)) :
    SameBehaviour (M.step P.code) (M.step R.code) (Machine.entry w) ∧
      M.Steady (levelAfter P moved level) R.code (Machine.entry w) := by
  have start : Visible P moved 0 := ⟨.done 0, fun ⟨_, _, low, _⟩ => Nat.not_lt_zero _ low⟩
  refine steady_of_windows M w start (fun q => level_visible level) steady
    fun s within safe => ?_
  by_cases window : ∃ j, P.JumpsTo moved j ∧
      P.valuePos P.instrStarts P.liveLabelTargets j = s.pc
  · have ⟨j, jumps, here⟩ := window
    right
    have ⟨pc, stack, world⟩ := s
    dsimp only at here
    subst here
    exact elim.window_matched accurate plain M jumps within.stack safe
  · left
    exact elim.unchanged_window accurate plain within.pc fun j jumps here => window ⟨j, jumps, here⟩

end

end Eliminated

def MatchedJumpsUnlabelled (P : BcOut) : Prop :=
  ∀ label, P.matchLabel P.instrStarts P.liveLabelTargets label = true →
    ∀ j ∈ P.slotsOf label, P.liveLabelTargets (jumpPos j) = false

/-- Dead value elimination keeps events, results and fixed stack depths. -/
theorem deadValueElim_preserves {P : BcOut} {level : Nat → Nat} (accurate : P.Accurate)
    (consistent : StackConsistent level P.code) (clear : P.MatchedJumpsUnlabelled) :
    (∃ level', StackConsistent level' P.deadValueElim.code) ∧
      ∀ (V W : Type) (M : Machine V W) (w : W),
        SameBehaviour (M.step P.code) (M.step P.deadValueElim.code) (Machine.entry w) := by
  have ⟨moved, elim⟩ := deadValueElim_eliminated accurate
  have plain : ∀ j, P.JumpsTo moved j → P.liveLabelTargets (jumpPos j) = false :=
    fun j ⟨member, live, inMoved⟩ =>
      clear j.label (elim.matched _ inMoved) j (mem_slotsOf.mpr ⟨member, rfl, live⟩)
  refine ⟨⟨Eliminated.levelAfter P moved level, fun V W M w => ?_⟩, fun V W M w => ?_⟩
  · exact (elim.steady_after accurate plain M w (consistent V W M w)).2
  · exact (elim.steady_after accurate plain M w (consistent V W M w)).1

/-- `push_0; goto L; L: drop; return_undef`. -/
def deadPush : BcOut where
  buf := [178, 233, 1, 14, 41]
  jumpSlots := [⟨opGoto8, 1, 2, 0⟩]
  labelSlots := [⟨1, 3⟩]

theorem matchedJumpsUnlabelled_of_check {P : BcOut} (checked : (List.range P.labelSlots.length).all
    (fun label => !P.matchLabel P.instrStarts P.liveLabelTargets label ||
      (P.slotsOf label).all fun j => !P.liveLabelTargets (jumpPos j)) = true) :
    P.MatchedJumpsUnlabelled := by
  intro label here j member
  have ⟨L, addr, _⟩ := matchLabel_addr here
  have bound := label_lt_of_addr addr
  have passed := List.all_eq_true.mp checked label (List.mem_range.mpr bound)
  rw [here, Bool.not_true, Bool.false_or] at passed
  simpa using List.all_eq_true.mp passed j member

theorem deadValueElim_preserves_deadPush :
    (∃ level', StackConsistent level' deadPush.deadValueElim.code) ∧
      ∀ (V W : Type) (M : Machine V W) (w : W),
        SameBehaviour (M.step deadPush.code) (M.step deadPush.deadValueElim.code)
          (Machine.entry w) :=
  deadValueElim_preserves (accurate_of_check (by decide +kernel))
    (Levels.consistent [some 0, some 1, none, some 1, some 0] (by decide +kernel))
    (matchedJumpsUnlabelled_of_check (by decide +kernel))

/-- `push_1; push_5; if (a) goto M; drop; push_0; M: goto L; L: drop; return`. -/
def labelledDeadGoto : BcOut where
  buf := [179, 183, 206, 232, 3, 14, 178, 233, 1, 14, 40]
  jumpSlots := [⟨opIfTrue8, 1, 4, 0⟩, ⟨opGoto8, 1, 8, 1⟩]
  labelSlots := [⟨1, 7⟩, ⟨1, 9⟩]

theorem deadValueElim_changes_result : ¬ ∀ (P : BcOut) (level : Nat → Nat), P.Accurate →
    StackConsistent level P.code → (∃ level', StackConsistent level' P.deadValueElim.code) ∧
      ∀ (V W : Type) (M : Machine V W) (w : W),
        SameBehaviour (M.step P.code) (M.step P.deadValueElim.code) (Machine.entry w) := by
  intro preserved
  have accurate : labelledDeadGoto.Accurate := accurate_of_check (by decide +kernel)
  have checked : Levels.check [some 0, some 1, some 2, some 3, none, some 2, some 1, some 2, none,
      some 2, some 1] labelledDeadGoto.code = true := by decide +kernel
  have consistent := Levels.consistent _ checked
  have same := (preserved labelledDeadGoto _ accurate consistent).2 Int (Var → Int) intMachine
    fun x => if x = ⟨.arg, 0⟩ then 1 else 0
  have values := value_of_sameBehaviour same 9 9 1 5 (by decide +kernel) (by decide +kernel)
  cases values

end BcOut

end PrimJs
