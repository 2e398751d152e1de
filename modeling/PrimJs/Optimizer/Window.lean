import PrimJs.Bytecode.Rewriting
import PrimJs.Optimizer.Edit

/-! A rewritten window of `bc_out` that no live label points into: control enters it only at its
first instruction. -/

namespace PrimJs.BcOut

open TraceSimulation

variable {P P' : BcOut} {a e q : Nat}

/-- The instruction starts outside the window, its first instruction included. -/
def Outside (P : BcOut) (a e : Nat) (q : Nat) : Prop := P.Start q ∧ ¬ (a < q ∧ q < e)

variable {i : Instr}

theorem code_target {pos target : Nat} (here : P.code pos = some i)
    (jump : i.target = some target) : ∃ j ∈ P.jumpSlots, 0 < j.size ∧
      j.pos = (pos + labelOffset (P.opAt pos) : Nat) ∧ P.labelAddr j.label = target := by
  have ⟨_, same⟩ := code_eq_some here
  rw [same] at jump
  change P.target pos = some target at jump
  unfold BcOut.target at jump
  split at jump
  · have ⟨j, found, goesTo⟩ := Option.bind_eq_some_iff.mp jump
    have ⟨member, live, operand⟩ := slotAt_eq_some found
    refine ⟨j, member, live, operand, ?_⟩
    unfold slotTarget at goesTo
    split at goesTo
    · have addr := Option.some.inj goesTo
      omega
    · cases goesTo
  · cases jump

theorem Accurate.target_live (accurate : P.Accurate) {pos target : Nat}
    (here : P.code pos = some i) (jump : i.target = some target) :
    P.Start target ∧ (target < P.size → P.liveLabelTargets target = true) := by
  have ⟨j, member, live, _, addr⟩ := code_target here jump
  have ⟨goal, addr', start, _⟩ := accurate.targets j member live
  have same : goal = target := by omega
  subst same
  have ⟨k, _, found⟩ := exists_jp member
  subst found
  exact ⟨start, accurate.labelTargets_live live addr⟩

theorem code_size {pos : Nat} (here : P.code pos = some i) : i.size = opSize (P.opAt pos) := by
  rw [(code_eq_some here).2]

theorem code_op {pos : Nat} (here : P.code pos = some i) : i.op = P.opAt pos := by
  rw [(code_eq_some here).2]

theorem code_nop {pos : Nat} (inside : pos < P.size) (nop : P.opAt pos = opNop) :
    ∃ i, P.code pos = some i ∧ i.action = .nop ∧ i.size = 1 := by
  refine ⟨_, code_inside inside, ?_, ?_⟩
  · change actionOf (P.opAt pos) _ = .nop
    rw [nop, actionOf_nop]
  · change opSize (P.opAt pos) = 1
    rw [nop]
    rfl

theorem code_nops {a b : Nat} (inside : b ≤ P.size)
    (nops : ∀ q, a ≤ q → q < b → P.opAt q = opNop) :
    ∀ q, a ≤ q → q < b → ∃ i, P.code q = some i ∧ i.action = .nop ∧ i.size = 1 :=
  fun q low high => code_nop (by omega) (nops q low high)

theorem nop_pops (here : P.code q = some i) (nop : P.opAt q = opNop) : i.popCount = 0 := by
  simp only [Instr.popCount, code_op here, nop]
  rfl

theorem Accurate.target_eq (accurate : P.Accurate) {j : JumpSlot} {x L : Nat}
    (member : j ∈ P.jumpSlots) (live : 0 < j.size) (slot : P.SlotAccurate j x)
    (addr : P.labelAddr j.label = L) : P.target x = some L := by
  have jump := slot.jump
  have ⟨k, _, same⟩ := exists_jp member
  subst same
  rw [← slot.op] at jump
  have operand := slot.operand
  rw [← slot.op] at operand
  rw [target, if_pos jump, accurate.slotAt_eq live operand, Option.bind_some, slotTarget, addr,
    if_pos (Int.natCast_nonneg _), Int.toNat_natCast]

theorem outside_zero (P : BcOut) (a e : Nat) : P.Outside a e 0 := ⟨.done 0, by omega⟩

/-- What a window has to satisfy for the code around it to be the same. -/
structure WindowEdit (P P' : BcOut) (a e : Nat) : Prop where
  size : P'.size = P.size
  start : P.Start a
  stop : P.Start e
  inside : e ≤ P.size
  unlabelled : ∀ q, a < q → q < e → P.Start q → P.liveLabelTargets q = false
  same : ∀ q, P.Start q → q < P.size → q < a ∨ e ≤ q → P'.code q = P.code q

namespace WindowEdit

variable (edit : WindowEdit P P' a e) (accurate : P.Accurate)

include edit accurate in
theorem unchanged (visible : P.Outside a e q) (other : q ≠ a) :
    Unchanged (P.Outside a e) P.code P'.code q := by
  obtain ⟨start, outside⟩ := visible
  have side : q < a ∨ e ≤ q := by omega
  refine ⟨?_, ?_, ?_⟩
  · by_cases inside : q < P.size
    · exact edit.same q start inside side
    · rw [code, code, edit.size, if_neg inside, if_neg inside]
  · intro i here _
    obtain ⟨inside, _⟩ := code_eq_some here
    rw [code_size here]
    refine ⟨accurate.next start inside, ?_⟩
    rintro ⟨after, before⟩
    rcases side with below | above
    · have fits := start.next_le edit.start below
      unfold opAt at after
      omega
    · omega
  · intro i target here jump
    obtain ⟨startTarget, live⟩ := accurate.target_live here jump
    refine ⟨startTarget, ?_⟩
    rintro ⟨after, before⟩
    have labelled := live (Nat.lt_of_lt_of_le before edit.inside)
    rw [edit.unlabelled target after before startTarget] at labelled
    cases labelled

include edit accurate in
theorem sameBehaviour {V W : Type} (M : Machine V W) (w : W)
    (window : ∀ s : State V W, s.pc = a → s.Within (P.Outside a e) →
      Matched (M.step P.code) (M.step P'.code) (State.Within (P.Outside a e)) (fun _ => True) s) :
    SameBehaviour (M.step P.code) (M.step P'.code) (Machine.entry w) := by
  refine sameBehaviour_of_windows M w (P.outside_zero a e) fun s within => ?_
  by_cases here : s.pc = a
  · exact .inr (window s here within)
  · exact .inl (edit.unchanged accurate within.pc here)

end WindowEdit

end PrimJs.BcOut
