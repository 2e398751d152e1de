import PrimJs.Foundation.TraceSimulation

/-! Two deterministic machines, each over states of its own, that keep in step while one of them
may stay where it is. -/

namespace PrimJs.TraceSimulation

variable {σ σ' ε ρ : Type}

/-- The two runs show the same events and end alike. -/
structure SameRuns (step : σ → Outcome σ ε ρ) (s : σ) (step' : σ' → Outcome σ' ε ρ) (s' : σ') :
    Prop where
  ends : ∀ trace result, Ends step s trace result ↔ Ends step' s' trace result
  emits : ∀ trace, Emits step s trace ↔ Emits step' s' trace

/-- Both machines go on to related states with the same events, or halt alike. Where one of them
takes no step, `rank` decreases. -/
def Advances (step : σ → Outcome σ ε ρ) (step' : σ' → Outcome σ' ε ρ) (rel : σ → σ' → Prop)
    (rank : σ → σ' → Nat) (s : σ) (s' : σ') : Prop :=
  (∃ n m trace t t', Path step (fun _ => True) n s trace t ∧
      Path step' (fun _ => True) m s' trace t' ∧ rel t t' ∧
      (n = 0 ∨ m = 0 → rank t t' < rank s s')) ∨
    ∃ n m trace result, Halts step (fun _ => True) n s trace result ∧
      Halts step' (fun _ => True) m s' trace result

variable {step : σ → Outcome σ ε ρ} {step' : σ' → Outcome σ' ε ρ} {rel : σ → σ' → Prop}
  {rank : σ → σ' → Nat} {s t : σ} {s' t' : σ'} {n m : Nat} {trace : List ε} {result : ρ}

theorem Advances.swap (advances : Advances step step' rel rank s s') :
    Advances step' step (fun a b => rel b a) (fun a b => rank b a) s' s := by
  rcases advances with ⟨n, m, trace, t, t', run, run', related, drops⟩ | ⟨n, m, trace, result, halts⟩
  · exact .inl ⟨m, n, trace, t', t, run', run, related, fun still => drops still.symm⟩
  · exact .inr ⟨m, n, trace, result, halts.symm⟩

theorem Advances.of_paths (run : Path step (fun _ => True) n s trace t)
    (run' : Path step' (fun _ => True) m s' trace t') (related : rel t t')
    (drops : n = 0 ∨ m = 0 → rank t t' < rank s s') : Advances step step' rel rank s s' :=
  .inl ⟨n, m, trace, t, t', run, run', related, drops⟩

theorem Advances.of_steps {events : List ε} (here : step s = .running events t)
    (here' : step' s' = .running events t') (related : rel t t') :
    Advances step step' rel rank s s' :=
  .of_paths (.free here) (.free here') related fun still => by omega

theorem Advances.of_halt {events : List ε} (here : step s = .halted events result)
    (here' : step' s' = .halted events result) : Advances step step' rel rank s s' :=
  .inr ⟨0, 0, events, result, ⟨s, [], events, .refl s, trivial, here, rfl⟩,
    ⟨s', [], events, .refl s', trivial, here', rfl⟩⟩

section

variable (advances : ∀ s s', rel s s' → Advances step step' rel rank s s') (start : rel s s')

include advances start

theorem ends_of_advances (halts : Halts step (fun _ => True) n s trace result) :
    Ends step' s' trace result := by
  -- the steps that the first machine has left, and among equal ones the rank
  induction n using Nat.strongRecOn generalizing s s' trace with
  | _ n shorter =>
      induction height : rank s s' using Nat.strongRecOn generalizing s s' trace with
      | _ k lower =>
          rcases advances s s' start with ⟨a, b, first, t, t', run, run', related, drops⟩ |
            ⟨a, b, whole, result', halts', halts''⟩
          · have within := halts.le run
            have split : n = a + (n - a) := by omega
            rw [split] at halts
            have ⟨after, later, joined⟩ := Halts.rest run halts
            have ends : Ends step' t' after result := by
              by_cases still : a = 0
              · subst still
                have less : rank t t' < k := height ▸ drops (.inl rfl)
                exact lower (rank t t') less related later rfl
              · exact shorter (n - a) (by omega) related later
            have ⟨_, later'⟩ := ends
            rw [joined]
            exact ⟨_, later'.prepend run'⟩
          · have ⟨sameTrace, sameResult⟩ := halts.functional halts'
            rw [sameTrace, sameResult]
            exact ⟨b, halts''⟩

theorem emits_of_advances (run : Path step (fun _ => True) n s trace t) : Emits step' s' trace := by
  induction n using Nat.strongRecOn generalizing s s' trace with
  | _ n shorter =>
      induction height : rank s s' using Nat.strongRecOn generalizing s s' trace with
      | _ k lower =>
          rcases advances s s' start with ⟨a, b, first, u, u', whole, whole', related, drops⟩ |
            ⟨a, b, all, result, halts, halts'⟩
          · by_cases within : n < a
            · -- the run stops inside the block: its events begin those of the block
              have split : a = n + (a - n) := by omega
              rw [split] at whole
              have ⟨after, _, joined⟩ := run.rest whole
              exact ⟨first, ⟨after, joined.symm⟩, .inl ⟨b, u', whole'⟩⟩
            · have split : n = a + (n - a) := by omega
              rw [split] at run
              have ⟨after, later, joined⟩ := whole.rest run
              have emits : Emits step' u' after := by
                by_cases still : a = 0
                · subst still
                  have less : rank u u' < k := height ▸ drops (.inl rfl)
                  exact lower (rank u u') less related later rfl
                · exact shorter (n - a) (by omega) related later
              have ⟨longer, ⟨more, prefixed⟩, cause⟩ := emits
              refine ⟨first ++ longer, ⟨more, by rw [joined, List.append_assoc, prefixed]⟩, ?_⟩
              rcases cause with ⟨n', v, run'⟩ | ⟨result, n', halts⟩
              · exact .inl ⟨_, v, whole'.append run'⟩
              · exact .inr ⟨result, _, halts.prepend whole'⟩
          · have ⟨stopped, before, events, stop, _, halted, joined⟩ := halts
            have within : n ≤ a := stop.le_of_halts halted run
            have split : a = n + (a - n) := by omega
            rw [split] at stop
            have ⟨after, _, prefixed⟩ := run.rest stop
            refine ⟨all, ⟨after ++ events, ?_⟩, .inr ⟨result, b, halts'⟩⟩
            rw [joined, prefixed, List.append_assoc]

theorem Emits.of_advances (emits : Emits step s trace) : Emits step' s' trace := by
  have ⟨whole, prefixed, cause⟩ := emits
  rcases cause with ⟨n, t, run⟩ | ⟨result, n, halts⟩
  · have ⟨longer, prefixed', cause'⟩ := emits_of_advances advances start run
    exact ⟨longer, prefixed.trans prefixed', cause'⟩
  · exact ⟨whole, prefixed, .inr ⟨result, ends_of_advances advances start halts⟩⟩

theorem sameRuns_of_advances : SameRuns step s step' s' := by
  have back : ∀ b a, rel a b → Advances step' step (fun b a => rel a b) (fun b a => rank a b) b a :=
    fun b a related => (advances a b related).swap
  constructor
  · intro trace result
    constructor
    · intro ⟨n, halts⟩
      exact ends_of_advances advances start halts
    · intro ⟨n, halts⟩
      exact ends_of_advances back start halts
  · intro trace
    exact ⟨.of_advances advances start, .of_advances back start⟩

end

section

variable {next : σ → Outcome σ ε ρ} {good inv : σ → Prop}

theorem Matched.advances (matched : Matched step next good inv s) :
    Advances step next (fun t u => good t ∧ u = t) (fun _ _ => 0) s s := by
  rcases matched with ⟨n, m, trace, t, goodNext, run, run'⟩ | ⟨n, m, trace, result, halts, halts'⟩
  · exact .of_paths run (run'.weaken fun _ _ => trivial) ⟨goodNext, rfl⟩ (by omega)
  · exact .inr ⟨n, m, trace, result, halts, halts'.weaken fun _ _ => trivial⟩

/-- Two machines that advance, from every state of a class, to one state of the class with the same
events have the same behaviour. -/
theorem sameBehaviour_of_matched (matched : ∀ s, good s → Matched step next good inv s)
    (start : good s) : SameBehaviour step next s := by
  have advances : ∀ t u, good t ∧ u = t →
      Advances step next (fun t u => good t ∧ u = t) (fun _ _ => 0) t u := by
    rintro t u ⟨here, rfl⟩
    exact (matched u here).advances
  have same := sameRuns_of_advances advances ⟨start, rfl⟩
  exact ⟨same.ends, same.emits⟩

end

end PrimJs.TraceSimulation
