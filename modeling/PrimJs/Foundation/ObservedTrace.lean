import PrimJs.Foundation.TraceSimulation

/-! A machine whose events are seen through `observe`: some are hidden, others look alike. -/

namespace PrimJs.TraceSimulation

variable {σ ε η ρ : Type} (observe : ε → Option η)

def Outcome.observed : Outcome σ ε ρ → Outcome σ η ρ
  | .running events next => .running (events.filterMap observe) next
  | .halted events result => .halted (events.filterMap observe) result

def observed (step : σ → Outcome σ ε ρ) (s : σ) : Outcome σ η ρ := (step s).observed observe

variable {observe} {step step' : σ → Outcome σ ε ρ} {inv good : σ → Prop} {n : Nat} {s t : σ}

theorem observed_running {events : List ε} (here : step s = .running events t) :
    observed observe step s = .running (events.filterMap observe) t := by
  rw [observed, here, Outcome.observed]

theorem observed_halted {events : List ε} {result : ρ} (here : step s = .halted events result) :
    observed observe step s = .halted (events.filterMap observe) result := by
  rw [observed, here, Outcome.observed]

theorem of_observed_running {seen : List η} (here : observed observe step s = .running seen t) :
    ∃ events, step s = .running events t ∧ events.filterMap observe = seen := by
  unfold observed at here
  cases real : step s with
  | running events next =>
      rw [real] at here
      cases here
      exact ⟨events, rfl, rfl⟩
  | halted events result =>
      rw [real] at here
      cases here

theorem Path.observed {trace : List ε} (path : Path step inv n s trace t) :
    Path (observed observe step) inv n s (trace.filterMap observe) t := by
  induction path with
  | refl s => exact .refl s
  | cons here holds _ ih =>
      rw [List.filterMap_append]
      exact .cons (observed_running here) holds ih

theorem Path.of_observed {seen : List η}
    (path : Path (TraceSimulation.observed observe step) inv n s seen t) :
    ∃ trace, Path step inv n s trace t ∧ trace.filterMap observe = seen := by
  induction path with
  | refl s => exact ⟨[], .refl s, rfl⟩
  | cons here holds _ ih =>
      have ⟨events, real, sight⟩ := of_observed_running here
      have ⟨trace, later, rest⟩ := ih
      exact ⟨events ++ trace, .cons real holds later, by rw [List.filterMap_append, sight, rest]⟩

theorem Halts.observed {trace : List ε} {result : ρ} (halts : Halts step inv n s trace result) :
    Halts (observed observe step) inv n s (trace.filterMap observe) result := by
  have ⟨t, before, events, stop, holds, halted, whole⟩ := halts
  exact ⟨t, before.filterMap observe, events.filterMap observe, stop.observed, holds,
    observed_halted halted, by rw [whole, List.filterMap_append]⟩

theorem Halts.of_observed {seen : List η} {result : ρ}
    (halts : Halts (TraceSimulation.observed observe step) inv n s seen result) :
    ∃ trace, Halts step inv n s trace result ∧ trace.filterMap observe = seen := by
  obtain ⟨t, before, events, stop, holds, halted, whole⟩ := halts
  obtain ⟨trace, real, sight⟩ := stop.of_observed
  unfold TraceSimulation.observed at halted
  cases last : step t with
  | running events' next =>
      rw [last] at halted
      cases halted
  | halted events' result' =>
      rw [last] at halted
      cases halted
      exact ⟨trace ++ events', ⟨t, trace, events', real, holds, last, rfl⟩, by
        rw [whole, ← sight, List.filterMap_append]⟩

theorem reaches_observed : Reaches (observed observe step) s t ↔ Reaches step s t := by
  constructor
  · intro ⟨n, seen, path⟩
    have ⟨trace, real, _⟩ := path.of_observed
    exact ⟨n, trace, real⟩
  · intro ⟨n, trace, path⟩
    exact ⟨n, trace.filterMap observe, path.observed⟩

theorem Matched.observed (matched : Matched step step' good inv s) :
    Matched (observed observe step) (observed observe step') good inv s := by
  rcases matched with ⟨n, m, trace, t, goodNext, run, run'⟩ | ⟨n, m, trace, result, halts, halts'⟩
  · exact .inl ⟨n, m, trace.filterMap observe, t, goodNext, run.observed, run'.observed⟩
  · exact .inr ⟨n, m, trace.filterMap observe, result, halts.observed, halts'.observed⟩

/-- Runs whose events look alike -/
theorem matched_of_alike {m : Nat} {trace trace' : List ε}
    (run : Path step (fun _ => True) (n + 1) s trace t) (run' : Path step' inv (m + 1) s trace' t)
    (alike : trace'.filterMap observe = trace.filterMap observe) (next : good t) :
    Matched (observed observe step) (observed observe step') good inv s := by
  have later : Path (observed observe step') inv (m + 1) s (trace'.filterMap observe) t :=
    run'.observed
  rw [alike] at later
  exact matched_of_paths run.observed later next

theorem ends_observed {seen : List η} {result : ρ}
    (onward : ∀ trace result, Ends step s trace result → Ends step' s trace result)
    (ends : Ends (observed observe step) s seen result) :
    Ends (observed observe step') s seen result := by
  obtain ⟨n, halts⟩ := ends
  obtain ⟨trace, real, rfl⟩ := halts.of_observed
  obtain ⟨m, halts'⟩ := onward trace result ⟨n, real⟩
  exact ⟨m, halts'.observed⟩

theorem emits_observed {seen : List η} (onward : ∀ trace, Emits step s trace → Emits step' s trace)
    (emits : Emits (observed observe step) s seen) : Emits (observed observe step') s seen := by
  obtain ⟨whole, prefixed, cause⟩ := emits
  have real : ∃ trace, Emits step s trace ∧ trace.filterMap observe = whole := by
    obtain ⟨n, t, run⟩ | ⟨result, n, halts⟩ := cause
    · obtain ⟨trace, real, sight⟩ := run.of_observed
      exact ⟨trace, ⟨trace, List.prefix_refl _, .inl ⟨n, t, real⟩⟩, sight⟩
    · obtain ⟨trace, real, sight⟩ := halts.of_observed
      exact ⟨trace, ⟨trace, List.prefix_refl _, .inr ⟨result, n, real⟩⟩, sight⟩
  obtain ⟨trace, real, rfl⟩ := real
  obtain ⟨longer, later, cause⟩ := onward trace real
  refine ⟨longer.filterMap observe, prefixed.trans (later.filterMap observe), ?_⟩
  obtain ⟨n, t, run⟩ | ⟨result, n, halts⟩ := cause
  · exact .inl ⟨n, t, run.observed⟩
  · exact .inr ⟨result, n, halts.observed⟩

theorem SameBehaviour.observed (same : SameBehaviour step step' s) :
    SameBehaviour (observed observe step) (observed observe step') s where
  ends _ _ := ⟨ends_observed fun _ _ => (same.ends _ _).mp, ends_observed fun _ _ => (same.ends _ _).mpr⟩
  emits _ := ⟨emits_observed fun _ => (same.emits _).mp, emits_observed fun _ => (same.emits _).mpr⟩

end PrimJs.TraceSimulation
