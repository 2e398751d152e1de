import PrimJs.Bytecode.Bytes
import PrimJs.Bytecode.Opcode

/-! Code as a sequence of whole instructions. -/

namespace PrimJs

/-- From `pos` on, `code` is a sequence of whole instructions that ends at its exact end and
every one of them satisfies `ok`. -/
inductive InstrsFrom (ok : List UInt8 → Nat → Prop) (code : List UInt8) : Nat → Prop where
  | done : InstrsFrom ok code code.length
  | instr {pos : Nat} (inside : pos < code.length) (here : ok code pos)
      (fits : pos + opSize (byteAt code pos) ≤ code.length)
      (later : InstrsFrom ok code (pos + opSize (byteAt code pos))) : InstrsFrom ok code pos

/-- The offsets at which a decoder that starts at 0 finds an instruction, and the offset it
stops at. -/
inductive Boundary (code : List UInt8) : Nat → Prop where
  | start : Boundary code 0
  | next {pos : Nat} (before : Boundary code pos) (inside : pos < code.length) :
      Boundary code (pos + opSize (byteAt code pos))

def ShippableAt (code : List UInt8) (pos : Nat) : Prop :=
  byteAt code pos ≠ opInvalid ∧ byteAt code pos < opShippableCount

section

variable {ok : List UInt8 → Nat → Prop} {code : List UInt8} {pos : Nat}

theorem InstrsFrom.mono {ok' : List UInt8 → Nat → Prop} (instrs : InstrsFrom ok code pos)
    (weaker : ∀ pos, ok code pos → ok' code pos) : InstrsFrom ok' code pos := by
  induction instrs with
  | done => exact .done
  | instr inside here fits later ih => exact .instr inside (weaker _ here) fits ih

theorem InstrsFrom.boundary (instrs : InstrsFrom ok code 0) (boundary : Boundary code pos) :
    InstrsFrom ok code pos := by
  induction boundary with
  | start => exact instrs
  | next before inside ih =>
      cases ih with
      | done => exact (Nat.lt_irrefl _ inside).elim
      | instr inside here fits later => exact later

theorem InstrsFrom.here (instrs : InstrsFrom ok code pos) (inside : pos < code.length) :
    ok code pos := by
  cases instrs with
  | done => exact (Nat.lt_irrefl _ inside).elim
  | instr _ here _ _ => exact here

end

/-- A sequence of whole known instructions that starts at `a` and ends exactly at `b`. -/
inductive Decodes (buf : List UInt8) : Nat → Nat → Prop where
  | done (a : Nat) : Decodes buf a a
  | instr {a b : Nat} (known : byteAt buf a < opCount)
      (later : Decodes buf (a + opSize (byteAt buf a)) b) : Decodes buf a b

namespace Decodes

variable {buf buf' : List UInt8} {a b c p q : Nat}

theorem le (run : Decodes buf a b) : a ≤ b := by
  induction run with
  | done => exact Nat.le_refl _
  | instr known later ih => omega

theorem trans (first : Decodes buf a b) (second : Decodes buf b c) : Decodes buf a c := by
  induction first with
  | done => exact second
  | instr known later ih => exact .instr known (ih second)

theorem one (known : byteAt buf a < opCount) : Decodes buf a (a + opSize (byteAt buf a)) :=
  .instr known (.done _)

theorem known (run : Decodes buf a b) (before : a < b) : byteAt buf a < opCount := by
  cases run with
  | done => exact (Nat.lt_irrefl _ before).elim
  | instr known later => exact known

theorem next (run : Decodes buf a b) (before : a < b) :
    Decodes buf (a + opSize (byteAt buf a)) b := by
  cases run with
  | done => exact (Nat.lt_irrefl _ before).elim
  | instr known later => exact later

theorem size_le (run : Decodes buf a b) (before : a < b) : a + opSize (byteAt buf a) ≤ b :=
  (run.next before).le

/-- Two decoders that start at the same place meet. -/
theorem suffix (short : Decodes buf a b) (long : Decodes buf a c) (order : b ≤ c) :
    Decodes buf b c := by
  induction short with
  | done => exact long
  | instr known later ih =>
      have positive := opSize_pos _ known
      have before := later.le
      exact ih (long.next (by omega)) order

theorem next_start (start : Decodes buf 0 p) (whole : Decodes buf 0 c) (before : p < c) :
    Decodes buf 0 (p + opSize (byteAt buf p)) :=
  start.trans (one ((start.suffix whole before.le).known before))

theorem next_le (start : Decodes buf 0 p) (later : Decodes buf 0 q) (before : p < q) :
    p + opSize (byteAt buf p) ≤ q :=
  (start.suffix later before.le).size_le before

theorem congr (run : Decodes buf a b)
    (same : ∀ i, a ≤ i → i < b → byteAt buf' i = byteAt buf i) : Decodes buf' a b := by
  induction run with
  | done => exact .done _
  | @instr a b known later ih =>
      have positive := opSize_pos _ known
      have order := later.le
      have first : byteAt buf' a = byteAt buf a := same a (Nat.le_refl _) (by omega)
      refine .instr (by rwa [first]) ?_
      rw [first]
      exact ih fun i low high => same i (by omega) high

theorem nops (order : a ≤ b) (filled : ∀ i, a ≤ i → i < b → byteAt buf i = opNop) :
    Decodes buf a b := by
  induction b, order using Nat.le_induction with
  | base => exact .done a
  | succ b order ih =>
      have last := filled b order (by omega)
      have step : Decodes buf b (b + opSize (byteAt buf b)) := one (by rw [last]; decide)
      rw [last] at step
      exact (ih fun i low high => filled i low (by omega)).trans step

/-- Replacing a run of whole instructions by another one of the same length keeps the rest. -/
theorem splice (start : Decodes buf 0 a) (stop : Decodes buf 0 b) (whole : Decodes buf 0 c)
    (inside : b ≤ c) (changed : Decodes buf' a b)
    (same : ∀ i, i < a ∨ b ≤ i → byteAt buf' i = byteAt buf i) : Decodes buf' 0 c := by
  have first : Decodes buf' 0 a := start.congr fun i _ before => same i (.inl before)
  have last : Decodes buf' b c := (stop.suffix whole inside).congr fun i after _ => same i (.inr after)
  exact (first.trans changed).trans last

def check (buf : List UInt8) : Nat → Nat → Nat → Bool
  | 0, a, b => a == b
  | fuel + 1, a, b =>
      a == b || (decide (byteAt buf a < opCount) && check buf fuel (a + opSize (byteAt buf a)) b)

theorem of_check {fuel : Nat} (checked : check buf fuel a b = true) : Decodes buf a b := by
  induction fuel generalizing a with
  | zero =>
      have same := beq_iff_eq.mp checked
      subst same
      exact .done a
  | succ fuel ih =>
      rcases Bool.or_eq_true_iff.mp checked with stop | more
      · have same := beq_iff_eq.mp stop
        subst same
        exact .done a
      · have ⟨known, later⟩ := Bool.and_eq_true_iff.mp more
        exact .instr (of_decide_eq_true known) (ih later)

end Decodes

end PrimJs
