import Mathlib.Tactic
import Mathlib.Data.List.Basic

/-! Deterministic machines that emit events, and what it is for two of them to behave the same. -/

namespace PrimJs.TraceSimulation

inductive Outcome (σ ε ρ : Type) where
  | running (events : List ε) (next : σ)
  | halted (events : List ε) (result : ρ)

variable {σ ε ρ : Type}

/-- A run of `n` steps; `inv` holds of every state it leaves. -/
inductive Path (step : σ → Outcome σ ε ρ) (inv : σ → Prop) : Nat → σ → List ε → σ → Prop where
  | refl (s : σ) : Path step inv 0 s [] s
  | cons {n : Nat} {s s' t : σ} {events trace : List ε} (here : step s = .running events s')
      (holds : inv s) (later : Path step inv n s' trace t) :
      Path step inv (n + 1) s (events ++ trace) t

def Halts (step : σ → Outcome σ ε ρ) (inv : σ → Prop) (n : Nat) (s : σ) (trace : List ε)
    (result : ρ) : Prop :=
  ∃ t before events, Path step inv n s before t ∧ inv t ∧ step t = .halted events result ∧
    trace = before ++ events

def Ends (step : σ → Outcome σ ε ρ) (s : σ) (trace : List ε) (result : ρ) : Prop :=
  ∃ n, Halts step (fun _ => True) n s trace result

def Reaches (step : σ → Outcome σ ε ρ) (s t : σ) : Prop :=
  ∃ n trace, Path step (fun _ => True) n s trace t

/-- The events `trace` are a beginning of those of the run from `s`. -/
def Emits (step : σ → Outcome σ ε ρ) (s : σ) (trace : List ε) : Prop :=
  ∃ whole, trace <+: whole ∧
    ((∃ n t, Path step (fun _ => True) n s whole t) ∨ ∃ result, Ends step s whole result)

variable {step step' : σ → Outcome σ ε ρ} {inv inv' : σ → Prop}

variable {s t : σ} {trace trace' : List ε} {n m : Nat} {result : ρ}

theorem Path.weaken (path : Path step inv n s trace t) (weaker : ∀ s, inv s → inv' s) :
    Path step inv' n s trace t := by
  induction path with
  | refl s => exact .refl s
  | cons here holds later ih => exact .cons here (weaker _ holds) ih

variable {u : σ}

theorem Path.append (first : Path step inv n s trace t) (second : Path step inv m t trace' u) :
    Path step inv (n + m) s (trace ++ trace') u := by
  induction first with
  | refl s => simpa using second
  | cons here holds later ih =>
      rw [Nat.add_right_comm, List.append_assoc]
      exact .cons here holds (ih second)

theorem Path.single {events : List ε} (here : step s = .running events t) (holds : inv s) :
    Path step inv 1 s events t := by
  have path : Path step inv (0 + 1) s (events ++ []) t := .cons here holds (.refl t)
  rwa [List.append_nil] at path

theorem Path.free {events : List ε} (here : step s = .running events t) :
    Path step (fun _ => True) 1 s events t :=
  .single here trivial

/-- Runs are deterministic: the shorter of two runs is a beginning of the longer one. -/
theorem Path.rest (short : Path step inv n s trace t) (long : Path step inv' (n + m) s trace' u) :
    ∃ after, Path step inv' m t after u ∧ trace' = trace ++ after := by
  induction short generalizing m trace' with
  | refl s => exact ⟨trace', by simpa using long, by simp⟩
  | @cons n s s' t events trace here holds later ih =>
      rw [Nat.add_right_comm] at long
      cases long with
      | cons here' holds' later' =>
          rw [here] at here'
          cases here'
          have ⟨after, run, whole⟩ := ih later'
          exact ⟨after, run, by rw [whole, List.append_assoc]⟩

theorem Path.left_inv (short : Path step inv' n s trace t)
    (long : Path step inv (n + (m + 1)) s trace' u) : inv t := by
  have ⟨after, run, _⟩ := short.rest long
  cases run with
  | cons _ holds _ => exact holds

/-- A run never goes on after a halt. -/
theorem Path.le_of_halts {events : List ε} (stop : Path step inv n s trace t)
    (halted : step t = .halted events result) (run : Path step inv' m s trace' u) : m ≤ n := by
  by_contra longer
  have split : m = n + ((m - n - 1) + 1) := by omega
  rw [split] at run
  have ⟨after, onwards, _⟩ := stop.rest run
  cases onwards with
  | cons here _ _ =>
      rw [halted] at here
      cases here

theorem Halts.le (halts : Halts step inv n s trace result) (run : Path step inv' m s trace' u) :
    m ≤ n := by
  have ⟨_, _, _, stop, _, halted, _⟩ := halts
  exact stop.le_of_halts halted run

theorem Halts.rest (run : Path step inv m s trace t)
    (halts : Halts step inv' (m + n) s trace' result) :
    ∃ after, Halts step inv' n t after result ∧ trace' = trace ++ after := by
  have ⟨u, before, events, stop, holds, halted, whole⟩ := halts
  have ⟨after, onwards, split⟩ := run.rest stop
  refine ⟨after ++ events, ⟨u, after, events, onwards, holds, halted, rfl⟩, ?_⟩
  rw [whole, split, List.append_assoc]

theorem Halts.prepend (run : Path step inv m s trace t) (halts : Halts step inv n t trace' result) :
    Halts step inv (m + n) s (trace ++ trace') result := by
  have ⟨u, before, events, stop, holds, halted, whole⟩ := halts
  exact ⟨u, trace ++ before, events, run.append stop, holds, halted, by
    rw [whole, List.append_assoc]⟩

theorem Halts.weaken (halts : Halts step inv n s trace result) (weaker : ∀ s, inv s → inv' s) :
    Halts step inv' n s trace result := by
  have ⟨t, before, events, stop, holds, halted, whole⟩ := halts
  exact ⟨t, before, events, stop.weaken weaker, weaker _ holds, halted, whole⟩

theorem Halts.functional {result' : ρ} (first : Halts step inv n s trace result)
    (second : Halts step inv' m s trace' result') : trace = trace' ∧ result = result' := by
  have ⟨t, before, events, stop, _, halted, whole⟩ := first
  have ⟨t', before', events', stop', _, halted', whole'⟩ := second
  have same : n = m := Nat.le_antisymm (stop'.le_of_halts halted' stop)
    (stop.le_of_halts halted stop')
  subst same
  have ⟨after, onwards, split⟩ := stop.rest (m := 0) stop'
  cases onwards
  rw [halted] at halted'
  cases halted'
  rw [whole, whole', split, List.append_nil]
  exact ⟨rfl, rfl⟩

/-- From `s` both machines advance to one state of the class `good` or halt alike, and `inv`
holds of the states the second one passes through. -/
def Matched (step step' : σ → Outcome σ ε ρ) (good inv : σ → Prop) (s : σ) : Prop :=
  (∃ n m trace t, good t ∧ Path step (fun _ => True) (n + 1) s trace t ∧
      Path step' inv (m + 1) s trace t) ∨
    ∃ n m trace result, Halts step (fun _ => True) n s trace result ∧
      Halts step' inv m s trace result

structure SameBehaviour (step step' : σ → Outcome σ ε ρ) (s : σ) : Prop where
  ends : ∀ trace result, Ends step s trace result ↔ Ends step' s trace result
  emits : ∀ trace, Emits step s trace ↔ Emits step' s trace

theorem SameBehaviour.refl (step : σ → Outcome σ ε ρ) (s : σ) : SameBehaviour step step s :=
  ⟨fun _ _ => Iff.rfl, fun _ => Iff.rfl⟩

theorem SameBehaviour.trans {step'' : σ → Outcome σ ε ρ} (first : SameBehaviour step step' s)
    (second : SameBehaviour step' step'' s) : SameBehaviour step step'' s :=
  ⟨fun trace result => (first.ends trace result).trans (second.ends trace result),
    fun trace => (first.emits trace).trans (second.emits trace)⟩

variable {good : σ → Prop}

/-- A property that runs of the first machine keep may be added to the class. -/
theorem Matched.guarded {safe : σ → Prop} (matched : Matched step step' good inv s)
    (closed : ∀ n trace t, Path step (fun _ => True) n s trace t → safe t) :
    Matched step step' (fun t => good t ∧ safe t) inv s := by
  rcases matched with ⟨n, m, trace, t, goodNext, run, run'⟩ | halts
  · exact .inl ⟨n, m, trace, t, ⟨goodNext, closed _ _ _ run⟩, run, run'⟩
  · exact .inr halts

/-- Silent or equal beginnings, after which both machines take the same step. -/
theorem matched_of_meet {a b : σ} (run : Path step (fun _ => True) n s trace a)
    (run' : Path step' inv m s trace b) (holds : inv b) (same : step' b = step a)
    (next : ∀ events t, step a = .running events t → good t) : Matched step step' good inv s := by
  cases here : step a with
  | running events t =>
      have here' : step' b = .running events t := same.trans here
      exact .inl ⟨n, m, trace ++ events, t, next events t here, run.append (.single here trivial),
        run'.append (.single here' holds)⟩
  | halted events result =>
      have here' : step' b = .halted events result := same.trans here
      exact .inr ⟨n, m, trace ++ events, result, ⟨a, trace, events, run, trivial, here, rfl⟩,
        ⟨b, trace, events, run', holds, here', rfl⟩⟩

theorem matched_of_same (same : step' s = step s) (holds : inv s)
    (next : ∀ events t, step s = .running events t → good t) : Matched step step' good inv s :=
  matched_of_meet (.refl s) (.refl s) holds same next

theorem matched_of_paths (run : Path step (fun _ => True) (n + 1) s trace t)
    (run' : Path step' inv (m + 1) s trace t) (next : good t) : Matched step step' good inv s :=
  .inl ⟨n, m, trace, t, next, run, run'⟩

/-- The run of at most `fuel` steps, when it ends. -/
def runFor (step : σ → Outcome σ ε ρ) : Nat → σ → Option (List ε × ρ)
  | 0, _ => none
  | fuel + 1, s =>
      match step s with
      | .running events t => (runFor step fuel t).map fun (trace, result) => (events ++ trace, result)
      | .halted events result => some (events, result)

theorem ends_of_runFor {fuel : Nat} (ran : runFor step fuel s = some (trace, result)) :
    Ends step s trace result := by
  induction fuel generalizing s trace with
  | zero => cases ran
  | succ fuel ih =>
      rw [runFor] at ran
      cases here : step s with
      | halted events result' =>
          rw [here] at ran
          cases ran
          exact ⟨0, s, [], trace, .refl s, trivial, here, rfl⟩
      | running events t =>
          simp only [here, Option.map_eq_some_iff, Prod.mk.injEq, Prod.exists] at ran
          have ⟨later, result', found, joined, same⟩ := ran
          subst same
          have ⟨n, halts⟩ := ih found
          rw [← joined]
          exact ⟨1 + n, halts.prepend (.single here trivial)⟩

theorem Ends.functional {result' : ρ} (first : Ends step s trace result)
    (second : Ends step s trace' result') : trace = trace' ∧ result = result' := by
  have ⟨_, halts⟩ := first
  have ⟨_, halts'⟩ := second
  exact halts.functional halts'

theorem Reaches.refl (s : σ) : Reaches step s s := ⟨0, [], .refl s⟩

theorem Reaches.of_path (run : Path step (fun _ => True) n s trace t) (reached : Reaches step t u) :
    Reaches step s u := by
  have ⟨m, trace', later⟩ := reached
  exact ⟨n + m, trace ++ trace', run.append later⟩

section

variable (matched : ∀ s, good s → Matched step step' good inv s) (start : good s)

include matched start

theorem inv_of_reaches (reached : Reaches step' s t) : inv t := by
  have ⟨n, trace, run⟩ := reached
  clear reached
  induction n using Nat.strongRecOn generalizing s trace with
  | _ n ih =>
      rcases matched s start with ⟨_, m, first, u, goodNext, _, whole⟩ |
        ⟨_, m, all, result, _, halts⟩
      · by_cases within : n < m + 1
        · have split : m + 1 = n + ((m - n) + 1) := by omega
          rw [split] at whole
          exact run.left_inv whole
        · have split : n = (m + 1) + (n - (m + 1)) := by omega
          rw [split] at run
          have ⟨after, later, _⟩ := whole.rest run
          exact ih (n - (m + 1)) (by omega) goodNext after later
      · have ⟨stopped, before, events, stop, holds, halted, _⟩ := halts
        have within : n ≤ m := stop.le_of_halts halted run
        by_cases last : n = m
        · subst last
          have ⟨after, onwards, _⟩ := run.rest (m := 0) stop
          cases onwards
          exact holds
        · have split : m = n + ((m - n - 1) + 1) := by omega
          rw [split] at stop
          exact run.left_inv stop

end

end PrimJs.TraceSimulation
