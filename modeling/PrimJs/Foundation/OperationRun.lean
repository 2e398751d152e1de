import Mathlib.Tactic

/-! Runs of operations on a state. An operation returns a result and the next state, or fails. -/

namespace PrimJs.OperationRun

variable {σ ο ρ : Type}

/-- Every operation meets the condition in the state it is applied to. -/
def Along (step : σ → ο → Option (ρ × σ)) (condition : σ → ο → Prop) : σ → List ο → Prop
  | _, [] => True
  | s, op :: rest =>
      condition s op ∧ ∀ result s', step s op = some (result, s') → Along step condition s' rest

/-- No operation fails, each does what `exact_` says, and every state on the way is `good`. -/
def Runs (step : σ → ο → Option (ρ × σ)) (good : σ → Prop) (exact_ : σ → ο → ρ → σ → Prop) :
    σ → List ο → Prop
  | s, [] => good s
  | s, op :: rest =>
      good s ∧ ∃ result s', step s op = some (result, s') ∧ exact_ s op result s' ∧
        Runs step good exact_ s' rest

instance decidableAlong (step : σ → ο → Option (ρ × σ)) (condition : σ → ο → Prop)
    [∀ s op, Decidable (condition s op)] : ∀ s ops, Decidable (Along step condition s ops)
  | _, [] => inferInstanceAs (Decidable True)
  | s, op :: rest =>
      match result : step s op with
      | none => decidable_of_iff (condition s op)
          ⟨fun here => ⟨here, fun _ _ wrong => by rw [result] at wrong; cases wrong⟩, fun along => along.1⟩
      | some (_, s') =>
          have := decidableAlong step condition s' rest
          decidable_of_iff (condition s op ∧ Along step condition s' rest)
            ⟨fun ⟨here, later⟩ => ⟨here, fun _ _ run => by
                rw [result, Option.some.injEq, Prod.mk.injEq] at run
                exact run.2 ▸ later⟩,
              fun along => ⟨along.1, along.2 _ s' result⟩⟩

variable {step : σ → ο → Option (ρ × σ)} {good inv : σ → Prop} {condition : σ → ο → Prop}
  {exact_ : σ → ο → ρ → σ → Prop}

/-- A run follows its steps: an invariant that each of them keeps holds all along. -/
theorem runs_of_along (sound : ∀ s, inv s → good s)
    (kept : ∀ s op, inv s → condition s op →
      ∃ result s', step s op = some (result, s') ∧ inv s' ∧ exact_ s op result s')
    (ops : List ο) :
    ∀ s, inv s → Along step condition s ops → Runs step good exact_ s ops := by
  induction ops with
  | nil => exact fun s holds _ => sound s holds
  | cons op rest ih =>
      intro s holds ⟨here, later⟩
      have ⟨result, s', run, holds', exact'⟩ := kept s op holds here
      exact ⟨sound s holds, result, s', run, exact', ih s' holds' (later result s' run)⟩

/-- When a good state after an operation shows its condition, the runs through good states are
those that meet the condition all along. -/
theorem runs_iff_along (sound : ∀ s, inv s → good s)
    (kept : ∀ s op, inv s → condition s op →
      ∃ result s', step s op = some (result, s') ∧ inv s')
    (needed : ∀ s op result s', inv s → step s op = some (result, s') → good s' →
      condition s op) (ops : List ο) :
    ∀ s, inv s → (Runs step good (fun _ _ _ _ => True) s ops ↔ Along step condition s ops) := by
  have goodFirst : ∀ {s : σ} {ops : List ο},
      Runs step good (fun _ _ _ _ => True) s ops → good s := by
    intro s ops runs
    cases ops with
    | nil => exact runs
    | cons op rest => exact runs.1
  have fromRuns : ∀ s, inv s → Runs step good (fun _ _ _ _ => True) s ops →
      Along step condition s ops := by
    induction ops with
    | nil => exact fun _ _ _ => trivial
    | cons op rest ih =>
        intro s holds ⟨_, result, s', run, _, later⟩
        have here := needed s op result s' holds run (goodFirst later)
        refine ⟨here, fun result' s'' run' => ?_⟩
        have ⟨_, _, runAgain, holds'⟩ := kept s op holds here
        obtain ⟨rfl, rfl⟩ := Prod.mk.inj (Option.some.inj (run.symm.trans run'))
        obtain ⟨rfl, rfl⟩ := Prod.mk.inj (Option.some.inj (run.symm.trans runAgain))
        exact ih _ holds' later
  intro s holds
  refine ⟨fromRuns s holds, runs_of_along sound (fun s op holds here => ?_) ops s holds⟩
  have ⟨result, s', run, holds'⟩ := kept s op holds here
  exact ⟨result, s', run, holds', trivial⟩

theorem along_of_forall {ops : List ο} (holds : ∀ op ∈ ops, ∀ s, condition s op) :
    ∀ s, Along step condition s ops := by
  induction ops with
  | nil => exact fun _ => trivial
  | cons op rest ih =>
      intro s
      have later := ih fun op member => holds op (List.mem_cons_of_mem _ member)
      exact ⟨holds op List.mem_cons_self s, fun _ s' _ => later s'⟩

/-- What a run goes through after its first operation. -/
theorem Runs.tail {s s' : σ} {op : ο} {rest : List ο} {result : ρ}
    (runs : Runs step good exact_ s (op :: rest)) (run : step s op = some (result, s')) :
    Runs step good exact_ s' rest := by
  have ⟨_, _, _, run', _, later⟩ := runs
  rw [run, Option.some.injEq, Prod.mk.injEq] at run'
  rw [run'.2]
  exact later

def final (step : σ → ο → Option (ρ × σ)) : σ → List ο → Option σ
  | s, [] => some s
  | s, op :: rest => (step s op).bind fun next => final step next.2 rest

theorem Runs.final {s : σ} {ops : List ο} (runs : Runs step good exact_ s ops) :
    ∃ s', OperationRun.final step s ops = some s' ∧ good s' := by
  induction ops generalizing s with
  | nil => exact ⟨s, rfl, runs⟩
  | cons op rest ih =>
      obtain ⟨-, result, s', run, -, later⟩ := runs
      obtain ⟨last, ends, good'⟩ := ih later
      refine ⟨last, ?_, good'⟩
      rw [OperationRun.final, run, Option.bind_some]
      exact ends

end PrimJs.OperationRun
