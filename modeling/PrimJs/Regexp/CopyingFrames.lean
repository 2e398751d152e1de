import PrimJs.Regexp.Copying

/-! The copying machine with more frames below: it runs as without them, up to the failure that
reaches them. -/

namespace PrimJs.Regexp

open Stepping

variable {x : ExecContext} {base : Slots} {below : List CopyFrame}

/-- The state with the frames `below` under its own. -/
def CopyState.over (below : List CopyFrame) (s : CopyState) : CopyState :=
  { s with frames := s.frames ++ below }

/-- A turn with the frames `below`, where a failure goes back to them. -/
def resume (x : ExecContext) (base : Slots) (below : List CopyFrame) :
    Except ExecResult CopyState → Except ExecResult CopyState
  | .ok s => .ok (s.over below)
  | .error (.noMatch _) => backtrack x base below
  | .error result => .error result

theorem backtrack_over (frames : List CopyFrame) :
    backtrack x base (frames ++ below) = resume x base below (backtrack x base frames) := by
  induction frames with
  | nil => rfl
  | cons f frames ih =>
      rw [List.cons_append, backtrack, backtrack]
      cases f.kind with
      | split | negative_lookahead => rfl
      | lookahead => exact ih
      | greedy_quant count =>
          dsimp only
          cases greedyOperands x f.pc with
          | none => rfl
          | some operands =>
              dsimp only
              split <;> rfl

theorem enclosingLookahead_over (outer : enclosingLookahead below = none)
    (frames : List CopyFrame) :
    enclosingLookahead (frames ++ below) =
      (enclosingLookahead frames).map fun found => (found.1, found.2 ++ below) := by
  induction frames with
  | nil => exact outer
  | cons f frames ih =>
      rw [List.cons_append, enclosingLookahead, enclosingLookahead]
      split
      · rfl
      · exact ih

/-- A step does the same over more frames. -/
theorem copyStep_over (outer : enclosingLookahead below = none) (s : CopyState) :
    copyStep x base (s.over below) = resume x base below (copyStep x base s) := by
  rw [copyStep, copyStep]
  dsimp only [CopyState.over]
  cases action x s.slots s.stack_len s.pc s.cptr with
  | stuck | goOn | push => rfl
  | noMatch => exact backtrack_over s.frames
  | write writes pc stack_len =>
      dsimp only
      cases s.slots.setAll writes <;> rfl
  | matched =>
      dsimp only [succeed]
      rw [enclosingLookahead_over outer]
      cases enclosingLookahead s.frames with
      | none => rfl
      | some found =>
          dsimp only [Option.map]
          split
          · rfl
          · exact backtrack_over found.2

/-- What a run gives when the frames `below` are under it. -/
inductive Resumed (x : ExecContext) (base : Slots) (below : List CopyFrame) :
    ExecResult → ExecResult → Prop where
  | stopped {result : ExecResult} : (∀ m, result ≠ .noMatch m) → Resumed x base below result result
  | failed {m : Slots} {result : ExecResult} :
      Continues (copyStep x base) (backtrack x base below) result →
      Resumed x base below (.noMatch m) result

/-- The run over more frames, from the run without them. -/
theorem returns_over (outer : enclosingLookahead below = none) (s : CopyState)
    (result : ExecResult) : Returns (copyStep x base) (s.over below) result ↔
      ∃ result', Returns (copyStep x base) s result' ∧ Resumed x base below result' result := by
  constructor
  · intro run
    generalize start : s.over below = s' at run
    induction run generalizing s with
    | stop here =>
        rw [← start, copyStep_over outer] at here
        cases turn : copyStep x base s with
        | ok t =>
            rw [turn] at here
            cases here
        | error stopped =>
            rw [turn] at here
            refine ⟨stopped, .stop turn, ?_⟩
            cases stopped with
            | noMatch m =>
                refine .failed ?_
                rw [show backtrack x base below = .error _ from here]
                exact .stop _
            | «match» | noMemory | stuck =>
                obtain rfl := Except.error.inj here
                exact .stopped (by rintro m ⟨⟩)
    | next here later ih =>
        rw [← start, copyStep_over outer] at here
        cases turn : copyStep x base s with
        | ok t =>
            rw [turn] at here
            obtain ⟨result', inner, resumed⟩ := ih t (Except.ok.inj here)
            exact ⟨result', .next turn inner, resumed⟩
        | error stopped =>
            rw [turn] at here
            cases stopped with
            | noMatch m =>
                refine ⟨.noMatch m, .stop turn, .failed ?_⟩
                rw [show backtrack x base below = .ok _ from here]
                exact .goOn later
            | «match» | noMemory | stuck => cases here
  · rintro ⟨result', run, resumed⟩
    induction run with
    | stop here =>
        rw [returns_iff_continues, copyStep_over outer, here]
        cases resumed with
        | failed later => exact later
        | stopped stops =>
            cases result with
            | noMatch m => exact absurd rfl (stops m)
            | «match» | noMemory | stuck => exact .stop _
    | next here _ ih =>
        refine .next ?_ (ih resumed)
        rw [copyStep_over outer, here]
        rfl

/-- A failure gives back the copy made at the start. -/
theorem noMatch_base {s : CopyState} {m : Slots} (run : Returns (copyStep x base) s (.noMatch m)) :
    m = base := by
  have backtracks : ∀ frames, backtrack x base frames = .error (.noMatch m) → m = base := by
    intro frames
    induction frames with
    | nil =>
        rintro ⟨⟩
        rfl
    | cons f frames ih =>
        intro here
        rw [backtrack] at here
        cases kind : f.kind with
        | split | negative_lookahead =>
            rw [kind] at here
            cases here
        | lookahead =>
            rw [kind] at here
            exact ih here
        | greedy_quant count =>
            rw [kind] at here
            dsimp only at here
            split at here <;> cases here
  obtain ⟨t, -, last⟩ := run.last
  rw [copyStep] at last
  split at last
  · cases last
  · exact backtracks _ last
  · cases last
  · split at last <;> cases last
  · cases last
  · dsimp only [succeed] at last
    split at last
    · cases last
    · split at last
      · cases last
      · exact backtracks _ last

end PrimJs.Regexp
