import PrimJs.Optimizer.GotoChain
import PrimJs.Optimizer.PostPeepholePass

/-! The passes of `lepusng_run_bytecode_post_pipeline` up to branch inversion, one after another. -/

namespace PrimJs

open TraceSimulation

namespace BcOut

/-- The pipeline up to `opt_branch_inversion`, with the fuel of the peephole scan. -/
def postPipelineFront (P : BcOut) (allocated : Bool) (fuel : Nat) : Option BcOut :=
  (P.postPeephole allocated fuel).map fun Q => Q.deadValueElim.gotoChainFollow.branchInversion

variable {P : BcOut}

theorem Accurate.postPeephole_scanned {level : Nat → Nat} (accurate : P.Accurate)
    (consistent : StackConsistent level P.code) (allocated : Bool) {fuel : Nat}
    (enough : 2 * P.size + 2 ≤ fuel) : ∃ Q, P.postPeephole allocated fuel = some Q ∧ Scanned P Q := by
  have shown : PeepholeConsistent level P.code := fun V W M w => consistent V W M.toMachine w
  unfold postPeephole
  split
  · exact ⟨P, rfl, accurate, ⟨level, shown⟩, fun _ _ _ _ => .refl _ _⟩
  · obtain ⟨Q, ends, scanned⟩ := postPeepholeFrom_spec accurate (.done 0) rfl shown
    refine ⟨Q, ends fuel ?_, scanned⟩
    unfold rounds
    split <;> omega

theorem Accurate.gotoChainFollow_follows (accurate : P.Accurate) :
    Follows P P.gotoChainFollow ∧ ∀ {V W : Type} (M : Machine V W) (w : W),
      SameBehaviour (M.step P.code) (M.step P.gotoChainFollow.code) (Machine.entry w) := by
  unfold gotoChainFollow
  split
  · exact ⟨.refl accurate, fun M w => .refl _ _⟩
  · exact followGotos_spec P.jumpSlots.length accurate accurate.posToJp_map

/-- The passes one after another keep labels and jump slots accurate and show the same events and
results, where no live label stands on a jump that dead value elimination or branch inversion
takes for its own. -/
theorem postPipelineFront_preserves {level : Nat → Nat} (accurate : P.Accurate)
    (consistent : StackConsistent level P.code) (allocated : Bool) {fuel : Nat}
    (enough : 2 * P.size + 2 ≤ fuel)
    (clear : ∀ Q, P.postPeephole allocated fuel = some Q →
      Q.MatchedJumpsUnlabelled ∧ Q.deadValueElim.gotoChainFollow.GotosUnlabelled) :
    ∃ T, P.postPipelineFront allocated fuel = some T ∧ T.Accurate ∧ SameShown P.code T.code := by
  obtain ⟨Q, scan, accurateQ, ⟨levelQ, consistentQ⟩, shownQ⟩ :=
    accurate.postPeephole_scanned consistent allocated enough
  obtain ⟨unlabelled, gotos⟩ := clear Q scan
  obtain ⟨moved, elim⟩ := deadValueElim_eliminated accurateQ
  have plain : ∀ j, Q.JumpsTo moved j → Q.liveLabelTargets (jumpPos j) = false := by
    rintro j ⟨member, live, inMoved⟩
    exact unlabelled j.label (elim.matched _ inMoved) j (mem_slotsOf.mpr ⟨member, rfl, live⟩)
  obtain ⟨follows, sameFollow⟩ := (elim.accurate_after accurateQ).gotoChainFollow_follows
  obtain ⟨accurateT, -, sameInvert⟩ := branchInversion_spec follows.accurate
  refine ⟨_, by rw [postPipelineFront, scan]; rfl, accurateT, fun V W M w => ?_⟩
  have sameElim := (elim.steady_after accurateQ plain M.toMachine w (consistentQ V W M w)).1
  have same := (sameElim.trans (sameFollow M.toMachine w)).trans (sameInvert gotos M.toMachine w)
  exact (shownQ V W M w).trans same.observed

theorem postPipelineFront_preserves_deadPush : ∃ T, deadPush.postPipelineFront true 12 = some T ∧
    T.Accurate ∧ SameShown deadPush.code T.code := by
  refine postPipelineFront_preserves (accurate_of_check (by decide +kernel))
    (Levels.consistent [some 0, some 1, none, some 1, some 0] (by decide +kernel)) true (by decide) ?_
  intro Q scan
  have same : deadPush.postPeephole true 12 = some deadPush := by decide +kernel
  obtain rfl := Option.some.inj (same.symm.trans scan)
  exact ⟨matchedJumpsUnlabelled_of_check (by decide +kernel),
    gotosUnlabelled_of_check (by decide +kernel)⟩

end BcOut

end PrimJs
