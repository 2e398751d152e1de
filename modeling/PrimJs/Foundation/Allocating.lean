import Mathlib.Tactic
import Mathlib.Order.Basic

/-! Computations in which any allocation can be refused. -/

namespace PrimJs

inductive Failure (ε : Type) where
  | outOfMemory
  | thrown (error : ε)
  deriving DecidableEq, Repr

/-- The state holds the answers to the coming allocations. After the last one all are granted. -/
abbrev Allocating (ε : Type) := EStateM (Failure ε) (List Bool)

namespace Allocating

variable {ε α β : Type}

def tryAllocate : Allocating ε Bool := fun answers =>
  match answers with
  | [] => .ok true []
  | granted :: rest => .ok granted rest

def allocate : Allocating ε Unit := do
  let granted ← tryAllocate
  if granted then pure () else throw .outOfMemory

def mapError {ε' : Type} (inject : ε → ε') (computation : Allocating ε α) : Allocating ε' α :=
  fun answers =>
    match computation answers with
    | .ok a rest => .ok a rest
    | .error .outOfMemory rest => .error .outOfMemory rest
    | .error (.thrown error) rest => .error (.thrown (inject error)) rest

/-- Every result meets `post`, every error meets `fails`, and memory runs out only after a
refused allocation. -/
def Outcome (computation : Allocating ε α) (post : α → Prop) (fails : ε → Prop) : Prop :=
  ∀ answers, match computation answers with
    | .ok a rest => post a ∧ rest <:+ answers
    | .error .outOfMemory _ => false ∈ answers
    | .error (.thrown error) _ => fails error

variable {post : α → Prop} {post' : β → Prop} {fails : ε → Prop}

namespace Outcome

theorem pure {a : α} (holds : post a) : Outcome (Pure.pure a) post fails :=
  fun answers => ⟨holds, List.suffix_refl answers⟩

theorem thrown {error : ε} (allowed : fails error) :
    Outcome (throw (.thrown error) : Allocating ε α) post fails :=
  fun _ => allowed

variable {computation : Allocating ε α}

theorem mono {weaker : α → Prop} {weakerFails : ε → Prop}
    (outcome : Outcome computation post fails) (posts : ∀ a, post a → weaker a)
    (allowed : ∀ error, fails error → weakerFails error) :
    Outcome computation weaker weakerFails := by
  intro answers
  have here := outcome answers
  cases ran : computation answers with
  | ok a rest =>
      simp only [ran] at here
      exact ⟨posts a here.1, here.2⟩
  | error failure rest =>
      simp only [ran] at here
      cases failure with
      | outOfMemory => exact here
      | thrown error => exact allowed error here

theorem bind {next : α → Allocating ε β} (first : Outcome computation post fails)
    (second : ∀ a, post a → Outcome (next a) post' fails) :
    Outcome (computation >>= next) post' fails := by
  intro answers
  have here := first answers
  have sequence : (computation >>= next) answers
      = match computation answers with
        | .ok a rest => next a rest
        | .error failure rest => .error failure rest := by
    show EStateM.bind computation next answers = _
    unfold EStateM.bind
    cases computation answers <;> rfl
  rw [sequence]
  cases ran : computation answers with
  | ok a rest =>
      simp only [ran] at here
      have after := second a here.1 rest
      simp only
      cases ran' : next a rest with
      | ok b rest' =>
          simp only [ran'] at after
          exact ⟨after.1, after.2.trans here.2⟩
      | error failure rest' =>
          simp only [ran'] at after
          cases failure with
          | outOfMemory => exact here.2.subset after
          | thrown error => exact after
  | error failure rest =>
      simp only [ran] at here
      cases failure with
      | outOfMemory => exact here
      | thrown error => exact here

theorem map {f : α → β} (outcome : Outcome computation post fails)
    (posts : ∀ a, post a → post' (f a)) : Outcome (f <$> computation) post' fails := by
  intro answers
  have here := outcome answers
  have mapped : (f <$> computation) answers
      = match computation answers with
        | .ok a rest => .ok (f a) rest
        | .error failure rest => .error failure rest := by
    show EStateM.map f computation answers = _
    unfold EStateM.map
    cases computation answers <;> rfl
  rw [mapped]
  cases ran : computation answers with
  | ok a rest =>
      simp only [ran] at here
      exact ⟨posts a here.1, here.2⟩
  | error failure rest =>
      simp only [ran] at here
      cases failure with
      | outOfMemory => exact here
      | thrown error => exact here

theorem tryAllocate : Outcome (tryAllocate : Allocating ε Bool) (fun _ => True) fails := by
  intro answers
  cases answers with
  | nil => exact ⟨trivial, List.suffix_refl []⟩
  | cons granted rest => exact ⟨trivial, List.suffix_cons granted rest⟩

theorem allocate : Outcome (allocate : Allocating ε Unit) (fun _ => True) fails := by
  intro answers
  cases answers with
  | nil => exact ⟨trivial, List.suffix_refl []⟩
  | cons granted rest =>
      cases granted with
      | true => exact ⟨trivial, List.suffix_cons true rest⟩
      | false => exact List.mem_cons_self

theorem mapError {computation : Allocating ε α} {ε' : Type} {inject : ε → ε'} {fails' : ε' → Prop}
    (outcome : Outcome computation post fails) (allowed : ∀ error, fails error → fails' (inject error)) :
    Outcome (mapError inject computation) post fails' := by
  intro answers
  have here := outcome answers
  rw [Allocating.mapError]
  cases ran : computation answers with
  | ok a rest =>
      simp only [ran] at here
      exact here
  | error failure rest =>
      simp only [ran] at here
      cases failure with
      | outOfMemory => exact here
      | thrown error => exact allowed error here

theorem result (outcome : Outcome computation post fails) {answers rest : List Bool} {a : α}
    (ran : computation answers = .ok a rest) : post a := by
  have here := outcome answers
  simp only [ran] at here
  exact here.1

end Outcome

end Allocating

end PrimJs
