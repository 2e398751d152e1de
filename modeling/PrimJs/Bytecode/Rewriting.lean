import PrimJs.Bytecode.Machine
import PrimJs.Foundation.StutterSimulation

/-! Two codes that differ in windows which control enters only at their beginning. -/

namespace PrimJs

open TraceSimulation

variable {V W : Type} (M : Machine V W) {code code' : Code} {visible : Nat → Prop}

/-- The operand stack has the depth `level` gives to the position, with enough on it for the
instruction there. -/
structure Balanced (level : Nat → Nat) (code : Code) (s : State V W) : Prop where
  depth : s.stack.length = level s.pc
  operands : ∀ i, code s.pc = some i → i.popCount ≤ s.stack.length

def Machine.Steady (level : Nat → Nat) (code : Code) (s : State V W) : Prop :=
  ∀ t, Reaches (M.step code) s t → Balanced level code t

/-- Every instruction is reached with one fixed operand-stack depth on all paths, whatever values
tests and opcodes give. -/
def StackConsistent (level : Nat → Nat) (code : Code) : Prop :=
  ∀ (V W : Type) (M : Machine V W) (w : W), M.Steady level code (Machine.entry w)

variable {s : State V W}

theorem Machine.Steady.here {level : Nat → Nat} (steady : M.Steady level code s) :
    Balanced level code s :=
  steady s (Reaches.refl s)

theorem Machine.Steady.path {level : Nat → Nat} {n : Nat} {t : State V W} {trace : List (Event V)}
    (steady : M.Steady level code s) (run : Path (M.step code) (fun _ => True) n s trace t) :
    M.Steady level code t :=
  fun u reached => steady u (.of_path run reached)

/-- Outside the windows the instruction is the same and control stays visible. -/
structure Unchanged (visible : Nat → Prop) (code code' : Code) (pc : Nat) : Prop where
  same : code' pc = code pc
  next : ∀ i, code pc = some i → i.fallsThrough → visible (pc + i.size)
  jump : ∀ i target, code pc = some i → i.target = some target → visible target

theorem Unchanged.matched {inv : State V W → Prop} (unchanged : Unchanged visible code code' s.pc)
    (within : s.Within visible) (holds : inv s) :
    Matched (M.step code) (M.step code') (State.Within visible) inv s := by
  refine matched_of_same ?_ holds ?_
  · rw [Machine.step, unchanged.same, Machine.step]
  · intro events t run
    cases here : code s.pc with
    | none =>
        rw [Machine.step, here] at run
        cases run
    | some i =>
        exact M.step_within here within.stack (unchanged.next i here)
          (fun target => unchanged.jump i target here) run

theorem entry_within (w : W) (start : visible 0) : (Machine.entry (V := V) w).Within visible :=
  ⟨start, fun _ member => nomatch member⟩

theorem sameBehaviour_of_windows (w : W) (start : visible 0)
    (windows : ∀ s : State V W, s.Within visible → Unchanged visible code code' s.pc ∨
      Matched (M.step code) (M.step code') (State.Within visible) (fun _ => True) s) :
    SameBehaviour (M.step code) (M.step code') (Machine.entry w) := by
  have matched : ∀ s : State V W, s.Within visible →
      Matched (M.step code) (M.step code') (State.Within visible) (fun _ => True) s := by
    intro s within
    rcases windows s within with unchanged | matched
    · exact unchanged.matched M within trivial
    · exact matched
  exact sameBehaviour_of_matched matched (entry_within w start)

/-- With the depth of every stack known, the windows may rely on it, and the new code has known
depths too. -/
theorem steady_of_windows {level level' : Nat → Nat} (w : W) (start : visible 0)
    (levels : ∀ pc, visible pc → level' pc = level pc)
    (steady : M.Steady level code (Machine.entry w))
    (windows : ∀ s : State V W, s.Within visible → M.Steady level code s →
      Unchanged visible code code' s.pc ∨
        Matched (M.step code) (M.step code') (State.Within visible) (Balanced level' code') s) :
    SameBehaviour (M.step code) (M.step code') (Machine.entry w) ∧
      M.Steady level' code' (Machine.entry w) := by
  have matched : ∀ s, (s.Within visible ∧ M.Steady level code s) →
      Matched (M.step code) (M.step code') (fun t => t.Within visible ∧ M.Steady level code t)
        (Balanced level' code') s := by
    intro s ⟨within, safe⟩
    refine Matched.guarded ?_ fun n trace t run => safe.path M run
    rcases windows s within safe with unchanged | matched
    · have balanced := safe.here
      refine unchanged.matched M within ⟨?_, ?_⟩
      · rw [levels _ within.pc]
        exact balanced.depth
      · rw [unchanged.same]
        exact balanced.operands
    · exact matched
  have start : (Machine.entry (V := V) w).Within visible ∧ M.Steady level code (Machine.entry w) :=
    ⟨entry_within w start, steady⟩
  exact ⟨sameBehaviour_of_matched matched start, fun t => inv_of_reaches matched start⟩

theorem value_of_sameBehaviour {step step' : State V W → StepOutcome V W}
    (same : SameBehaviour step step' s) (fuel fuel' : Nat) (v v' : V)
    (ran : (runFor step fuel s).bind (·.2.value?) = some v)
    (ran' : (runFor step' fuel' s).bind (·.2.value?) = some v') : v = v' := by
  have ⟨⟨trace, result⟩, run, value⟩ := Option.bind_eq_some_iff.mp ran
  have ⟨⟨trace', result'⟩, run', value'⟩ := Option.bind_eq_some_iff.mp ran'
  have ends := (same.ends trace result).mp (ends_of_runFor run)
  have ⟨_, results⟩ := ends.functional (ends_of_runFor run')
  dsimp only at value value'
  rw [results] at value
  exact Option.some.inj (value.symm.trans value')

section Stepping

variable {inv : State V W → Prop} {pc : Nat} {stack : List (StackEntry V)} {w : W} {i : Instr}

section

variable (here : code pc = some i)

include here

theorem step_nop (action : i.action = .nop) :
    M.step code ⟨pc, stack, w⟩ = .running [] ⟨pc + i.size, stack, w⟩ := by
  simp only [Machine.step, here, Machine.execute, action]

theorem step_goto (action : i.action = .goto) :
    M.step code ⟨pc, stack, w⟩ = Machine.jumpTo i.target stack w := by
  simp only [Machine.step, here, Machine.execute, action]

theorem step_drop (action : i.action = .drop) {e : StackEntry V} :
    M.step code ⟨pc, e :: stack, w⟩ = .running [] ⟨pc + i.size, stack, M.freeEntry e w⟩ := by
  simp only [Machine.step, here, Machine.execute, action]

theorem step_dup (action : i.action = .dup) {e : StackEntry V} :
    M.step code ⟨pc, e :: stack, w⟩ =
      .running [] ⟨pc + i.size, e :: e :: stack, M.dupEntry e w⟩ := by
  simp only [Machine.step, here, Machine.execute, action]

theorem step_jumpIf {taken : Bool} (action : i.action = .jumpIf taken) (v : V)
    (stack : List (StackEntry V)) (w : W) : M.step code ⟨pc, .value v :: stack, w⟩ =
      if (M.test v w).1 = taken then Machine.jumpTo i.target stack (M.test v w).2
      else .running [] ⟨pc + i.size, stack, (M.test v w).2⟩ := by
  simp only [Machine.step, here, Machine.execute, action]

end

/-- A run of `nop`s leads to its end. -/
theorem path_nops (code : Code) (inv : State V W → Prop) (stack : List (StackEntry V)) (w : W)
    {a b : Nat} (order : a ≤ b)
    (nops : ∀ q, a ≤ q → q < b → ∃ i, code q = some i ∧ i.action = .nop ∧ i.size = 1)
    (holds : ∀ q, a ≤ q → q < b → inv ⟨q, stack, w⟩) :
    Path (M.step code) inv (b - a) ⟨a, stack, w⟩ [] ⟨b, stack, w⟩ := by
  induction b, order using Nat.le_induction with
  | base =>
      rw [Nat.sub_self]
      exact .refl _
  | succ b order ih =>
      have ⟨i, here, action, size⟩ := nops b order (by omega)
      have first := ih (fun q low high => nops q low (by omega))
        (fun q low high => holds q low (by omega))
      have last : M.step code ⟨b, stack, w⟩ = .running [] ⟨b + 1, stack, w⟩ := by
        rw [step_nop M here action, size]
      have run := first.append (.single last (holds b order (by omega)))
      rwa [Nat.sub_add_comm order]

end Stepping

end PrimJs
