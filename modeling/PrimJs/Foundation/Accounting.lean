import Mathlib.Algebra.Order.Group.Multiset
import PrimJs.Foundation.StateReader

/-! Computations that acquire and release resources and may fail: what they hold is a bag, and
what they stop referring to without releasing it is noted with the place that lost it. -/

namespace PrimJs.Accounting

open StateReader

variable {κ ρ ε σ α β : Type}

structure Account (κ ρ σ : Type) where
  state : σ
  /-- Whether the allocator grants its `n`-th request. -/
  grants : Nat → Bool
  asked : Nat
  held : Multiset ρ
  lost : Multiset (κ × ρ)

inductive Stop (ε : Type) where
  | failed (error : ε)
  /-- An access outside every allocation. -/
  | outside
  /-- A release of what is not held. -/
  | notHeld

abbrev Acquire (κ ρ ε σ α : Type) := EStateM (Stop ε) (Account κ ρ σ) α

namespace Account

def lostRefs (s : Account κ ρ σ) : Multiset ρ := s.lost.map Prod.snd

def set (s : Account κ ρ σ) (t : σ) : Account κ ρ σ := { s with state := t }

@[simp] theorem set_held (s : Account κ ρ σ) (t : σ) : (s.set t).held = s.held := rfl

@[simp] theorem set_lostRefs (s : Account κ ρ σ) (t : σ) : (s.set t).lostRefs = s.lostRefs := rfl

theorem lostRefs_eq_zero {s : Account κ ρ σ} : s.lostRefs = 0 ↔ s.lost = 0 :=
  Multiset.map_eq_zero

end Account

section Operations

def lift (m : EStateM ε σ α) : Acquire κ ρ ε σ α := fun s =>
  match m s.state with
  | .ok a t => .ok a (s.set t)
  | .error e t => .error (.failed e) (s.set t)

/-- Runs `m` and hands its failure to the caller. -/
def attempt (m : EStateM ε σ α) : Acquire κ ρ ε σ (Except ε α) := fun s =>
  match m s.state with
  | .ok a t => .ok (.ok a) (s.set t)
  | .error e t => .ok (.error e) (s.set t)

def update (g : σ → σ) : Acquire κ ρ ε σ Unit := fun s => .ok () (s.set (g s.state))

def fail (error : ε) : Acquire κ ρ ε σ α := throw (.failed error)

def ask : Acquire κ ρ ε σ (Option Nat) := fun s =>
  .ok (if s.grants s.asked then some s.asked else none) { s with asked := s.asked + 1 }

def take (rs : Multiset ρ) : Acquire κ ρ ε σ Unit :=
  modify fun s => { s with held := s.held + rs }

def release [DecidableEq ρ] (rs : Multiset ρ) : Acquire κ ρ ε σ Unit := fun s =>
  if rs ≤ s.held then .ok () { s with held := s.held - rs } else .error .notHeld s

def lose (site : κ) (rs : Multiset ρ) : Acquire κ ρ ε σ Unit :=
  modify fun s => { s with lost := s.lost + rs.map (Prod.mk site) }

def onFail (m : Acquire κ ρ ε σ α) (cleanup : Acquire κ ρ ε σ Unit) : Acquire κ ρ ε σ α := fun s =>
  match m s with
  | .error (.failed e) t =>
      match cleanup t with
      | .ok _ u => .error (.failed e) u
      | .error stop u => .error stop u
  | result => result

end Operations

/-- A result whose success holds `own a` over `base`, and whose failure holds `left`. -/
def Leaves (base : Multiset ρ) (own : α → Multiset ρ) (left : Option (Multiset ρ)) :
    EStateM.Result (Stop ε) (Account κ ρ σ) α → Prop
  | .ok a t => t.held = base + own a + t.lostRefs
  | .error (.failed _) t => ∃ rest ∈ left, t.held = rest + t.lostRefs
  | .error .outside _ => True
  | .error .notHeld _ => False

/-- `m` takes over `owned`: it hands on `own a`, or it fails and nothing of the two is held. -/
def Accounts (owned : Multiset ρ) (m : Acquire κ ρ ε σ α) (own : α → Multiset ρ) : Prop :=
  ∀ base s, s.held = base + owned + s.lostRefs → Leaves base own (some base) (m s)

/-- As `Accounts`, for a computation that does not fail. -/
def Settles (owned : Multiset ρ) (m : Acquire κ ρ ε σ α) (own : α → Multiset ρ) : Prop :=
  ∀ base s, s.held = base + owned + s.lostRefs → Leaves base own none (m s)

section Rules

variable {owned owned' kept rs : Multiset ρ} {own own' : α → Multiset ρ} {last : β → Multiset ρ}
  {m : Acquire κ ρ ε σ α} {f : α → Acquire κ ρ ε σ β} {cleanup : Acquire κ ρ ε σ Unit}

theorem Settles.accounts (settles : Settles owned m own) : Accounts owned m own := by
  intro base s holds
  have result := settles base s holds
  cases run : m s with
  | ok a t =>
      rw [run] at result
      exact result
  | error stop t =>
      rw [run] at result
      cases stop with
      | failed e =>
          obtain ⟨rest, none_, -⟩ := result
          exact absurd none_ (Option.not_mem_none _)
      | outside => trivial
      | notHeld => exact result

theorem Accounts.congr (accounts : Accounts owned m own) (same : owned' = owned)
    (result : ∀ a, own a = own' a) : Accounts owned' m own' := by
  have : own = own' := funext result
  subst same this
  exact accounts

theorem Settles.congr (settles : Settles owned m own) (same : owned' = owned)
    (result : ∀ a, own a = own' a) : Settles owned' m own' := by
  have : own = own' := funext result
  subst same this
  exact settles

theorem settles_pure {a : α} (same : owned = own a) :
    Settles owned (pure a : Acquire κ ρ ε σ α) own := by
  subst same
  exact fun _ _ holds => holds

theorem accounts_pure {a : α} (same : owned = own a) :
    Accounts owned (pure a : Acquire κ ρ ε σ α) own :=
  (settles_pure same).accounts

theorem settles_outside : Settles owned (throw .outside : Acquire κ ρ ε σ α) own :=
  fun _ _ _ => trivial

theorem accounts_fail (error : ε) : Accounts 0 (fail error : Acquire κ ρ ε σ α) own := by
  intro base s holds
  exact ⟨base, rfl, by simpa using holds⟩

theorem Accounts.bind (first : Accounts owned m own) (next : ∀ a, Accounts (own a) (f a) last) :
    Accounts owned (m >>= f) last := by
  intro base s holds
  change Leaves base last (some base) (EStateM.bind m f s)
  have result := first base s holds
  unfold EStateM.bind
  cases run : m s with
  | ok a t =>
      rw [run] at result
      exact next a base t result
  | error stop t =>
      rw [run] at result
      cases stop with
      | failed e => exact result
      | outside => trivial
      | notHeld => exact result

theorem Settles.bind (first : Settles owned m own) (next : ∀ a, Settles (own a) (f a) last) :
    Settles owned (m >>= f) last := by
  intro base s holds
  change Leaves base last none (EStateM.bind m f s)
  have result := first base s holds
  unfold EStateM.bind
  cases run : m s with
  | ok a t =>
      rw [run] at result
      exact next a base t result
  | error stop t =>
      rw [run] at result
      cases stop with
      | failed e => exact result
      | outside => trivial
      | notHeld => exact result

/-- What a computation that does not fail leaves alone stays held. -/
theorem Settles.frame (settles : Settles owned m own) :
    Settles (kept + owned) m (fun a => kept + own a) := by
  intro base s holds
  have result := settles (base + kept) s (by rw [holds, add_assoc base kept])
  cases run : m s with
  | ok a t =>
      rw [run] at result
      exact result.trans (by rw [add_assoc base])
  | error stop t =>
      rw [run] at result
      cases stop with
      | failed e => exact result
      | outside => trivial
      | notHeld => exact result

/-- One cleanup after another. -/
theorem Settles.andThen {a b : Multiset ρ} {first second : Acquire κ ρ ε σ Unit}
    (one : Settles a first fun _ => 0) (two : Settles b second fun _ => 0) :
    Settles (a + b) (do first; second) fun _ => 0 := by
  have framed : Settles (b + a) first fun _ => b + 0 := one.frame
  exact (framed.congr (add_comm a b) fun _ => add_zero b).bind fun _ => two

theorem accounts_lift (read : EStateM ε σ α) :
    Accounts 0 (lift read : Acquire κ ρ ε σ α) (fun _ => 0) := by
  intro base s holds
  unfold lift
  cases read s.state with
  | ok a t => exact holds
  | error e t => exact ⟨base, rfl, by simpa using holds⟩

theorem settles_attempt (read : EStateM ε σ α) :
    Settles owned (attempt read : Acquire κ ρ ε σ (Except ε α)) (fun _ => owned) := by
  intro base s holds
  unfold attempt
  cases read s.state with
  | ok a t => exact holds
  | error e t => exact holds

/-- What follows an attempt has to do with the values the reader returns. -/
theorem Settles.attempt_bind {read : EStateM ε σ α} {f : Except ε α → Acquire κ ρ ε σ β}
    (ok : ∀ a s t, Reads read s a t → Settles owned (f (.ok a)) last)
    (error : ∀ e, Settles owned (f (.error e)) last) : Settles owned (attempt read >>= f) last := by
  intro base s holds
  change Leaves base last none (EStateM.bind (attempt read) f s)
  unfold EStateM.bind attempt
  cases run : read s.state with
  | ok a t => exact ok a s.state t run base (s.set t) holds
  | error e t => exact error e base (s.set t) holds

theorem settles_get : Settles owned (get : Acquire κ ρ ε σ (Account κ ρ σ)) (fun _ => owned) :=
  fun _ _ holds => holds

theorem settles_update (g : σ → σ) :
    Settles owned (update g : Acquire κ ρ ε σ Unit) (fun _ => owned) :=
  fun _ _ holds => holds

theorem settles_ask : Settles owned (ask : Acquire κ ρ ε σ (Option Nat)) (fun _ => owned) :=
  fun _ _ holds => holds

theorem settles_take (rs : Multiset ρ) :
    Settles owned (take rs : Acquire κ ρ ε σ Unit) (fun _ => owned + rs) := by
  intro base s holds
  change s.held + rs = base + (owned + rs) + s.lostRefs
  rw [holds, ← add_assoc base, add_right_comm]

theorem settles_release [DecidableEq ρ] (rs : Multiset ρ) :
    Settles rs (release rs : Acquire κ ρ ε σ Unit) (fun _ => 0) := by
  intro base s holds
  have within : rs ≤ s.held := by
    rw [holds, add_right_comm]
    exact Multiset.le_add_left rs (base + s.lostRefs)
  have rest : s.held - rs = base + 0 + s.lostRefs := by
    rw [holds, add_right_comm, Multiset.add_sub_cancel_right, add_zero]
  unfold release
  rw [if_pos within]
  exact rest

theorem settles_lose (site : κ) (rs : Multiset ρ) :
    Settles rs (lose site rs : Acquire κ ρ ε σ Unit) (fun _ => 0) := by
  intro base s holds
  change s.held = base + 0 + Multiset.map Prod.snd (s.lost + rs.map (Prod.mk site))
  have noted : Multiset.map Prod.snd (s.lost + rs.map (Prod.mk site)) = s.lostRefs + rs := by
    simp [Account.lostRefs, Multiset.map_map]
  rw [noted, holds, add_zero, ← add_assoc base, add_right_comm]

/-- A cleanup that settles what the caller kept makes up for a failure of `m`. -/
theorem Accounts.onFail (accounts : Accounts owned m own)
    (settles : Settles kept cleanup fun _ => 0) :
    Accounts (kept + owned) (onFail m cleanup) (fun a => kept + own a) := by
  intro base s holds
  have result := accounts (base + kept) s (by rw [holds, add_assoc base kept])
  unfold Accounting.onFail
  cases run : m s with
  | ok a t =>
      rw [run] at result
      exact result.trans (by rw [add_assoc base])
  | error stop t =>
      rw [run] at result
      cases stop with
      | outside => trivial
      | notHeld => exact result
      | failed e =>
          obtain ⟨rest, same, left⟩ := result
          obtain rfl : base + kept = rest := Option.mem_some.mp same
          have cleaned := settles base t left
          dsimp only
          cases ends : cleanup t with
          | ok u v =>
              rw [ends] at cleaned
              exact ⟨base, rfl, cleaned.trans (by rw [add_zero])⟩
          | error stop v =>
              rw [ends] at cleaned
              cases stop with
              | failed e' =>
                  obtain ⟨rest, none_, -⟩ := cleaned
                  exact absurd none_ (Option.not_mem_none _)
              | outside => trivial
              | notHeld => exact cleaned

/-- A computation that starts with nothing, beside what the caller keeps. -/
theorem Settles.beside (settles : Settles 0 m own) (kept : Multiset ρ) :
    Settles kept m (fun a => kept + own a) :=
  settles.frame.congr (add_zero kept).symm fun _ => rfl

theorem Accounts.guarded (accounts : Accounts 0 m own) (settles : Settles kept cleanup fun _ => 0) :
    Accounts kept (Accounting.onFail m cleanup) (fun a => kept + own a) :=
  (accounts.onFail settles).congr (add_zero kept).symm fun _ => rfl

end Rules

section Outcome

variable {own : α → Multiset ρ} {held : Multiset ρ}

/-- A failure that leaves what was held before; a success is not concerned. -/
def Restores (held : Multiset ρ) : EStateM.Result (Stop ε) (Account κ ρ σ) α → Prop
  | .ok _ _ => True
  | .error (.failed _) t => t.held = held
  | .error _ _ => False

instance [DecidableEq ρ] (held : Multiset ρ) :
    (result : EStateM.Result (Stop ε) (Account κ ρ σ) α) → Decidable (Restores held result)
  | .ok _ _ => .isTrue trivial
  | .error (.failed _) t => inferInstanceAs (Decidable (t.held = held))
  | .error .outside _ => .isFalse id
  | .error .notHeld _ => .isFalse id

/-- Nothing is lost and no access leaves the allocations before the failure. -/
def LosesNothing : EStateM.Result (Stop ε) (Account κ ρ σ) α → Prop
  | .error (.failed _) t => t.lost = 0
  | .error .outside _ => False
  | _ => True

theorem Accounts.restores_iff {m : Acquire κ ρ ε σ α} (accounts : Accounts 0 m own)
    {s : Account κ ρ σ} (nothing : s.lost = 0) :
    Restores s.held (m s) ↔ LosesNothing (m s) := by
  have holds : s.held = s.held + 0 + s.lostRefs := by
    rw [Account.lostRefs_eq_zero.mpr nothing, add_zero, add_zero]
  have result := accounts s.held s holds
  cases run : m s with
  | ok a t => simp only [Restores, LosesNothing]
  | error stop t =>
      rw [run] at result
      cases stop with
      | outside => simp only [Restores, LosesNothing]
      | notHeld => exact result.elim
      | failed e =>
          obtain ⟨rest, same, left⟩ := result
          obtain rfl : s.held = rest := Option.mem_some.mp same
          simp only [Restores, LosesNothing]
          rw [left, add_eq_left, Account.lostRefs_eq_zero]

end Outcome

end PrimJs.Accounting
