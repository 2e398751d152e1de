import PrimJs.Bytecode.Rewriting

/-! Stack depths assigned by hand to code without handlers, subroutines and calls, and checked one
instruction at a time. -/

namespace PrimJs

open TraceSimulation

/-- The depth behind an instruction that runs on at depth `d`. -/
def Action.depthAfter? : Action → Nat → Option Nat
  | .nop, d => some d
  | .push, d => some (d + 1)
  | .get _, d => some (d + 1)
  | .put _, d + 1 => some d
  | .set _, d + 1 => some (d + 1)
  | .dup, d + 1 => some (d + 2)
  | .drop, d + 1 => some d
  | .lnot, d + 1 => some (d + 1)
  | .jumpIf _, d + 1 => some d
  | .goto, d => some d
  | _, _ => none

abbrev Levels := List (Option Nat)

def Levels.at (levels : Levels) (pc : Nat) : Option Nat := levels[pc]?.join

def Levels.fits (levels : Levels) (code : Code) (pc : Nat) : Bool :=
  match levels.at pc, code pc with
  | some d, some i =>
      decide (i.popCount ≤ d) &&
        match i.action with
        | .return | .returnUndef | .throw => true
        | .goto => i.target.all fun t => levels.at t == some d
        | action =>
            (action.depthAfter? d).isSome && levels.at (pc + i.size) == action.depthAfter? d &&
              i.target.all fun t => levels.at t == action.depthAfter? d
  | _, _ => true

def Levels.check (levels : Levels) (code : Code) : Bool :=
  levels.at 0 == some 0 && (List.range levels.length).all (levels.fits code)

variable {V W : Type} {levels : Levels} {code : Code}

structure Levels.Holds (levels : Levels) (s : State V W) : Prop where
  depth : levels.at s.pc = some s.stack.length
  plain : ∀ e ∈ s.stack, e.Within fun _ => False

variable {trace : List (Event V)}

section

variable (M : Machine V W) {error : V} {stack : List (StackEntry V)} {events : List (Event V)}
  {w : W} {t : State V W} (plain : ∀ e ∈ stack, e.Within fun _ => False)

include plain

theorem unwind_plain : M.unwind error stack events w ≠ .running trace t := by
  intro run
  exact (M.unwind_within plain run).pc

theorem raise_plain : M.raise error events stack w ≠ .running trace t := by
  unfold Machine.raise
  split
  · intro run
    cases run
  · exact unwind_plain M plain

end

theorem Levels.fits_of_check (checked : levels.check code = true) (pc : Nat) :
    levels.fits code pc = true := by
  have all := (Bool.and_eq_true_iff.mp checked).2
  by_cases bound : pc < levels.length
  · exact List.all_eq_true.mp all pc (List.mem_range.mpr bound)
  · have none : levels.at pc = .none := by
      rw [Levels.at, List.getElem?_eq_none (by omega)]
      rfl
    rw [Levels.fits, none]

theorem jumpTo_holds {target : Option Nat} {d : Nat} {stack : List (StackEntry V)} {w : W}
    {t : State V W} (plain : ∀ e ∈ stack, e.Within fun _ => False) (depth : stack.length = d)
    (levelled : target.all fun t => levels.at t == some d)
    (run : Machine.jumpTo target stack w = .running trace t) : levels.Holds t := by
  cases target with
  | none => cases run
  | some pos =>
      cases run
      simp only [Option.all_some, beq_iff_eq] at levelled
      exact ⟨by rw [levelled, depth], plain⟩

section

variable (M : Machine V W) (checked : levels.check code = true) {s t : State V W}
  (holds : levels.Holds s)

include checked holds

/-- One step keeps depths as assigned. -/
theorem Levels.step_holds (run : M.step code s = .running trace t) : levels.Holds t := by
  have fits := levels.fits_of_check checked s.pc
  have ⟨depth, plain⟩ := holds
  unfold Machine.step at run
  cases here : code s.pc with
  | none =>
      rw [here] at run
      cases run
  | some i =>
      simp only [Levels.fits, depth, here, Bool.and_eq_true] at fits
      have ⟨_, fits⟩ := fits
      rw [here] at run
      dsimp only at run
      unfold Machine.execute at run
      split at run
      case h_1 action | h_2 action | h_3 action =>
        simp only [action, Action.depthAfter?, Bool.and_eq_true, beq_iff_eq] at fits
        cases run
        exact ⟨fits.1.2, by simpa [StackEntry.Within] using plain⟩
      case h_4 action stack | h_7 action stack =>
        simp only [action, stack, List.length_cons, Action.depthAfter?, Bool.and_eq_true,
          beq_iff_eq] at fits
        rw [stack] at plain
        cases run
        exact ⟨fits.1.2, fun e member => plain e (by simp [member])⟩
      case h_5 action stack | h_9 action stack =>
        simp only [action, stack, List.length_cons, Action.depthAfter?, Bool.and_eq_true,
          beq_iff_eq] at fits
        rw [stack] at plain
        cases run
        exact ⟨fits.1.2, by simpa [StackEntry.Within] using plain⟩
      case h_6 action stack =>
        simp only [action, stack, List.length_cons, Action.depthAfter?, Bool.and_eq_true,
          beq_iff_eq] at fits
        rw [stack] at plain
        cases run
        exact ⟨fits.1.2, fun e member => plain e (by simpa using member)⟩
      case h_10 action stack =>
        simp only [action, stack, List.length_cons, Action.depthAfter?, Bool.and_eq_true,
          beq_iff_eq] at fits
        rw [stack] at plain
        have rest := fun e member => plain e (List.mem_cons_of_mem _ member)
        dsimp only at run
        split at run
        · exact jumpTo_holds rest rfl fits.2 run
        · cases run
          exact ⟨fits.1.2, rest⟩
      case h_11 action =>
        simp only [action] at fits
        exact jumpTo_holds plain rfl fits run
      case h_8 action | h_12 action | h_13 action | h_14 action stack | h_18 action =>
        simp [action, Action.depthAfter?] at fits
      case h_15 => cases run
      case h_16 => cases run
      case h_17 stack =>
        rw [stack] at plain
        exact (raise_plain M (fun e member => plain e (by simp [member])) run).elim
      case h_19 => cases run

theorem Levels.path_holds {n : Nat} (run : Path (M.step code) (fun _ => True) n s trace t) :
    levels.Holds t := by
  induction run with
  | refl s => exact holds
  | cons here _ _ ih => exact ih (levels.step_holds M checked holds here)

end

theorem Levels.consistent (levels : Levels) (checked : levels.check code = true) :
    StackConsistent (fun pc => (levels.at pc).getD 0) code := by
  intro V W M w t reached
  have start : levels.Holds (Machine.entry (V := V) w) := {
    depth := beq_iff_eq.mp (Bool.and_eq_true_iff.mp checked).1
    plain := fun _ member => nomatch member }
  have ⟨_, _, run⟩ := reached
  have holds := levels.path_holds M checked start run
  have fits := levels.fits_of_check checked t.pc
  refine ⟨?_, fun i here => ?_⟩
  · simp only [holds.depth, Option.getD_some]
  · simp only [Levels.fits, holds.depth, here, Bool.and_eq_true, decide_eq_true_eq] at fits
    exact fits.1

end PrimJs
