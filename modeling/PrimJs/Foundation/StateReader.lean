import Mathlib.Tactic
import Mathlib.Data.List.Basic
import Mathlib.Order.Defs.Unbundled

/-! Readers that pass a state along and may fail: what a successful run says about its parts,
and the frame rule for a relation every step keeps. -/

namespace PrimJs.StateReader

variable {ε σ α β γ : Type}

def Reads (read : EStateM ε σ α) (s : σ) (a : α) (t : σ) : Prop := read s = .ok a t

variable {s t : σ}

variable {read : EStateM ε σ α}

theorem Reads.functional {t' : σ} {a a' : α} (first : Reads read s a t)
    (second : Reads read s a' t') : a = a' ∧ t = t' := by
  unfold Reads at first second
  rw [first] at second
  exact ⟨EStateM.Result.ok.inj second |>.1, EStateM.Result.ok.inj second |>.2⟩

@[simp] theorem reads_pure {a b : α} : Reads (pure a : EStateM ε σ α) s b t ↔ b = a ∧ t = s := by
  constructor
  · intro run
    cases run
    exact ⟨rfl, rfl⟩
  · rintro ⟨rfl, rfl⟩
    rfl

@[simp] theorem reads_throw {e : ε} {b : α} : ¬ Reads (throw e : EStateM ε σ α) s b t := by
  intro run
  cases run

@[simp] theorem reads_bind {rest : α → EStateM ε σ β} {u : σ} {b : β} :
    Reads (read >>= rest) s b u ↔ ∃ a t, Reads read s a t ∧ Reads (rest a) t b u := by
  unfold Reads
  change (EStateM.bind read rest s = .ok b u) ↔ _
  unfold EStateM.bind
  cases read s with
  | ok a t =>
      constructor
      · intro run
        exact ⟨a, t, rfl, run⟩
      · rintro ⟨a', t', same, run⟩
        cases same
        exact run
  | error e t =>
      constructor
      · intro run
        cases run
      · rintro ⟨a', t', same, run⟩
        cases same

@[simp] theorem reads_map {f : α → β} {b : β} :
    Reads (f <$> read) s b t ↔ ∃ a, Reads read s a t ∧ b = f a := by
  rw [map_eq_pure_bind, reads_bind]
  constructor
  · rintro ⟨a, u, first, last⟩
    obtain ⟨rfl, rfl⟩ := reads_pure.mp last
    exact ⟨a, first, rfl⟩
  · rintro ⟨a, first, rfl⟩
    exact ⟨a, t, first, reads_pure.mpr ⟨rfl, rfl⟩⟩

@[simp] theorem reads_get {r : σ} : Reads (get : EStateM ε σ σ) s r t ↔ r = s ∧ t = s := by
  constructor
  · intro run
    cases run
    exact ⟨rfl, rfl⟩
  · rintro ⟨rfl, rfl⟩
    rfl

@[simp] theorem reads_set {new : σ} {u : PUnit} :
    Reads (set new : EStateM ε σ PUnit) s u t ↔ t = new := by
  constructor
  · intro run
    cases run
    rfl
  · rintro rfl
    rfl

@[simp] theorem reads_modify {f : σ → σ} {u : PUnit} :
    Reads (modify f : EStateM ε σ PUnit) s u t ↔ t = f s := by
  constructor
  · intro run
    cases run
    rfl
  · rintro rfl
    rfl

/-- Goes on only when `c` holds. -/
def require (c : Prop) [Decidable c] (e : ε) : EStateM ε σ Unit :=
  if c then pure () else throw e

@[simp] theorem reads_require {c : Prop} [Decidable c] {e : ε} {u : Unit} :
    Reads (require c e) s u t ↔ c ∧ t = s := by
  unfold require
  by_cases holds : c <;> simp [holds]

def readN : Nat → EStateM ε σ α → EStateM ε σ (List α)
  | 0, _ => pure []
  | n + 1, read => do
      let a ← read
      let rest ← readN n read
      pure (a :: rest)

theorem readN_length {n : Nat} {values : List α} (run : Reads (readN n read) s values t) :
    values.length = n := by
  induction n generalizing s t values with
  | zero =>
      obtain ⟨rfl, -⟩ := reads_pure.mp run
      rfl
  | succ n ih =>
      obtain ⟨a, u, -, later⟩ := reads_bind.mp run
      obtain ⟨rest, v, restRun, last⟩ := reads_bind.mp later
      obtain ⟨rfl, -⟩ := reads_pure.mp last
      rw [List.length_cons, ih restRun]

section Frame

variable (frame : σ → σ → Prop)

/-- A successful run moves only along `frame`. -/
def Keeps (read : EStateM ε σ α) : Prop := ∀ s a t, Reads read s a t → frame s t

variable {frame}

theorem Keeps.pure [Std.Refl frame] (a : α) : Keeps frame (pure a : EStateM ε σ α) := by
  intro s b t run
  obtain ⟨-, rfl⟩ := reads_pure.mp run
  exact Std.Refl.refl t

theorem Keeps.throw (e : ε) : Keeps frame (throw e : EStateM ε σ α) :=
  fun _ _ _ run => (reads_throw run).elim

variable {read : EStateM ε σ α}

theorem Keeps.bind [IsTrans σ frame] {rest : α → EStateM ε σ β} (first : Keeps frame read)
    (later : ∀ a, Keeps frame (rest a)) : Keeps frame (read >>= rest) := by
  intro s b u run
  obtain ⟨a, t, firstRun, laterRun⟩ := reads_bind.mp run
  exact IsTrans.trans s t u (first s a t firstRun) (later a t b u laterRun)

theorem Keeps.map (keeps : Keeps frame read) (f : α → β) : Keeps frame (f <$> read) := by
  intro s b t run
  obtain ⟨a, aRun, -⟩ := reads_map.mp run
  exact keeps s a t aRun

theorem Keeps.get [Std.Refl frame] : Keeps frame (get : EStateM ε σ σ) := by
  intro s b t run
  obtain ⟨-, rfl⟩ := reads_get.mp run
  exact Std.Refl.refl t

theorem Keeps.require [Std.Refl frame] (c : Prop) [Decidable c] (e : ε) :
    Keeps frame (require c e : EStateM ε σ Unit) := by
  intro s b t run
  obtain ⟨-, rfl⟩ := reads_require.mp run
  exact Std.Refl.refl t

theorem Keeps.ite {c : Prop} [Decidable c] {yes no : EStateM ε σ α}
    (whenYes : Keeps frame yes) (whenNo : Keeps frame no) :
    Keeps frame (if c then yes else no) := by
  split
  · exact whenYes
  · exact whenNo

theorem Keeps.readN [Std.Refl frame] [IsTrans σ frame] (keeps : Keeps frame read) (n : Nat) :
    Keeps frame (readN n read) := by
  induction n with
  | zero => exact .pure []
  | succ n ih => exact keeps.bind fun a => ih.bind fun rest => .pure (a :: rest)

/-- Each value `readN` returns was read on the way, between two states of the run. -/
theorem readN_mem [Std.Refl frame] [IsTrans σ frame] (keeps : Keeps frame read) {n : Nat}
    {s t : σ} {values : List α} (run : Reads (StateReader.readN n read) s values t) {a : α}
    (member : a ∈ values) : ∃ u v, Reads read u a v ∧ frame s u ∧ frame v t := by
  induction n generalizing s t values with
  | zero =>
      obtain ⟨rfl, -⟩ := reads_pure.mp run
      cases member
  | succ n ih =>
      obtain ⟨first, u, firstRun, later⟩ := reads_bind.mp run
      obtain ⟨rest, v, restRun, last⟩ := reads_bind.mp later
      obtain ⟨rfl, rfl⟩ := reads_pure.mp last
      rcases List.mem_cons.mp member with rfl | inRest
      · exact ⟨s, u, firstRun, Std.Refl.refl s, keeps.readN n u rest t restRun⟩
      · obtain ⟨x, y, run, before, after⟩ := ih restRun inRest
        exact ⟨x, y, run, IsTrans.trans s u x (keeps s first u firstRun) before, after⟩

end Frame

end PrimJs.StateReader
