import Mathlib.Tactic

/-! Deterministic machines: a step goes on with `.ok` or stops with `.error` and a result. -/

namespace PrimJs.Stepping

variable {σ σ' ρ ρ' : Type}

/-- The run from a state stops with a result. -/
inductive Returns (step : σ → Except ρ σ) : σ → ρ → Prop where
  | stop {s : σ} {result : ρ} (here : step s = .error result) : Returns step s result
  | next {s t : σ} {result : ρ} (here : step s = .ok t) (later : Returns step t result) :
      Returns step s result

inductive Reaches (step : σ → Except ρ σ) : σ → σ → Prop where
  | refl (s : σ) : Reaches step s s
  | next {s t u : σ} (here : step s = .ok t) (later : Reaches step t u) : Reaches step s u

variable {step : σ → Except ρ σ} {step' : σ' → Except ρ' σ'}

variable {s : σ}

theorem Returns.functional {result result' : ρ} (first : Returns step s result)
    (second : Returns step s result') : result = result' := by
  induction first with
  | stop here =>
      cases second with
      | stop here' => exact Except.error.inj (here.symm.trans here')
      | next here' => cases here.symm.trans here'
  | next here _ ih =>
      cases second with
      | stop here' => cases here.symm.trans here'
      | next here' later =>
          obtain rfl := Except.ok.inj (here.symm.trans here')
          exact ih later

theorem Reaches.single {t : σ} (here : step s = .ok t) : Reaches step s t :=
  .next here (.refl t)

section

variable {t : σ} (reached : Reaches step s t)

include reached

theorem Reaches.returns {result : ρ} (later : Returns step t result) : Returns step s result := by
  induction reached with
  | refl => exact later
  | next here _ ih => exact .next here (ih later)

theorem Reaches.returns_iff {result : ρ} : Returns step s result ↔ Returns step t result := by
  refine ⟨fun run => ?_, reached.returns⟩
  induction reached with
  | refl => exact run
  | next here _ ih =>
      cases run with
      | stop here' => cases here.symm.trans here'
      | next here' later =>
          obtain rfl := Except.ok.inj (here.symm.trans here')
          exact ih later

theorem Reaches.keeps {inv : σ → Prop} (start : inv s)
    (kept : ∀ s t, inv s → step s = .ok t → inv t) : inv t := by
  induction reached with
  | refl => exact start
  | next here _ ih => exact ih (kept _ _ start here)

end

/-- Every run that stops has passed through a state that stops. -/
theorem Returns.last {result : ρ} (run : Returns step s result) :
    ∃ t, Reaches step s t ∧ step t = .error result := by
  induction run with
  | stop here => exact ⟨_, .refl _, here⟩
  | next here _ ih =>
      obtain ⟨t, reached, last⟩ := ih
      exact ⟨t, .next here reached, last⟩

/-- A run that keeps among states that all go on does not stop. -/
theorem not_returns_of_kept {inv : σ → Prop} (kept : ∀ s, inv s → ∃ t, step s = .ok t ∧ inv t)
    (start : inv s) (result : ρ) : ¬Returns step s result := by
  intro run
  induction run with
  | stop here =>
      obtain ⟨t, goesOn, -⟩ := kept _ start
      cases here.symm.trans goesOn
  | next here _ ih =>
      obtain ⟨t, goesOn, later⟩ := kept _ start
      obtain rfl := Except.ok.inj (here.symm.trans goesOn)
      exact ih later

/-- What follows a turn stops with a result. -/
inductive Continues (step : σ → Except ρ σ) : Except ρ σ → ρ → Prop where
  | stop (result : ρ) : Continues step (.error result) result
  | goOn {s : σ} {result : ρ} (later : Returns step s result) : Continues step (.ok s) result

theorem returns_iff_continues {result : ρ} :
    Returns step s result ↔ Continues step (step s) result := by
  constructor
  · rintro (here | ⟨here, later⟩)
    · rw [here]
      exact .stop result
    · rw [here]
      exact .goOn later
  · intro h
    cases here : step s with
    | error result' =>
        rw [here] at h
        cases h
        exact .stop here
    | ok t =>
        rw [here] at h
        cases h with
        | goOn later => exact .next here later

/-! ### Simulation -/

/-- The machines go on together and stop together, except that the first may give up. -/
inductive Together (abort : ρ → Prop) (rel : σ → σ' → Prop) (same : ρ → ρ' → Prop) :
    Except ρ σ → Except ρ' σ' → Prop where
  | aborted {result : ρ} {turn : Except ρ' σ'} : abort result →
      Together abort rel same (.error result) turn
  | stopped {result : ρ} {result' : ρ'} : same result result' →
      Together abort rel same (.error result) (.error result')
  | goOn {s : σ} {s' : σ'} : rel s s' → Together abort rel same (.ok s) (.ok s')

def Lockstep (step : σ → Except ρ σ) (step' : σ' → Except ρ' σ') (abort : ρ → Prop)
    (rel : σ → σ' → Prop) (same : ρ → ρ' → Prop) : Prop :=
  ∀ s s', rel s s' → Together abort rel same (step s) (step' s')

variable {abort : ρ → Prop} {rel : σ → σ' → Prop} {same : ρ → ρ' → Prop}

section

variable (lockstep : Lockstep step step' abort rel same) {s' : σ'} (related : rel s s')

include lockstep related

theorem Lockstep.returns {result : ρ} (run : Returns step s result) :
    abort result ∨ ∃ result', Returns step' s' result' ∧ same result result' := by
  induction run generalizing s' with
  | stop here =>
      have together := lockstep _ _ related
      generalize here' : step' s' = turn' at together
      rw [here] at together
      cases together with
      | aborted gaveUp => exact .inl gaveUp
      | stopped agree => exact .inr ⟨_, .stop here', agree⟩
  | next here _ ih =>
      have together := lockstep _ _ related
      generalize here' : step' s' = turn' at together
      rw [here] at together
      cases together with
      | goOn related' =>
          obtain gaveUp | ⟨result', later, agree⟩ := ih related'
          · exact .inl gaveUp
          · exact .inr ⟨result', .next here' later, agree⟩

theorem Lockstep.reaches {t : σ} (reached : Reaches step s t) :
    ∃ t', Reaches step' s' t' ∧ rel t t' := by
  induction reached generalizing s' with
  | refl => exact ⟨s', .refl s', related⟩
  | next here _ ih =>
      have together := lockstep _ _ related
      generalize here' : step' s' = turn' at together
      rw [here] at together
      cases together with
      | goOn related' =>
          obtain ⟨t', reached', related''⟩ := ih related'
          exact ⟨t', .next here' reached', related''⟩

theorem Lockstep.returns_of {result' : ρ'} (run : Returns step' s' result') :
    ∃ result, Returns step s result ∧ (abort result ∨ same result result') := by
  induction run generalizing s with
  | stop here' =>
      have together := lockstep _ _ related
      generalize here : step s = turn at together
      rw [here'] at together
      cases together with
      | aborted gaveUp => exact ⟨_, .stop here, .inl gaveUp⟩
      | stopped agree => exact ⟨_, .stop here, .inr agree⟩
  | next here' _ ih =>
      have together := lockstep _ _ related
      generalize here : step s = turn at together
      rw [here'] at together
      cases together with
      | aborted gaveUp => exact ⟨_, .stop here, .inl gaveUp⟩
      | goOn related' =>
          obtain ⟨result, later, agree⟩ := ih related'
          exact ⟨result, .next here later, agree⟩

end

end PrimJs.Stepping
