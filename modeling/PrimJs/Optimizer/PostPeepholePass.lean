import PrimJs.Optimizer.PostPeepholePatterns

/-! `opt_post_peephole` ends, and an execution shows the same before and after it. -/

namespace PrimJs

open TraceSimulation

/-- Every position has one stack depth, on every machine with the laws of the shorthands. -/
def PeepholeConsistent (level : Nat → Nat) (code : Code) : Prop :=
  ∀ (V W : Type) (M : PeepholeMachine V W) (w : W), M.Steady level code (Machine.entry w)

def SameShown (code code' : Code) : Prop :=
  ∀ (V W : Type) (M : PeepholeMachine V W) (w : W),
    SameBehaviour (M.observedStep code) (M.observedStep code') (Machine.entry w)

theorem SameShown.trans {code code' code'' : Code} (first : SameShown code code')
    (second : SameShown code' code'') : SameShown code code'' :=
  fun V W M w => (first V W M w).trans (second V W M w)

namespace BcOut

variable {P P' : BcOut} {p : Nat}

/-- The rounds the scan needs from `p` on: a position is looked at a second time only after a
rewriting to a `set`, which no pattern that stays there matches. -/
def rounds (P : BcOut) (p : Nat) : Nat :=
  2 * (P.size - p) + if isSetOp (P.opAt p) then 0 else 1

theorem rounds_lt {next : Nat} (size : P'.size = P.size) (inside : p < P.size) (behind : p < next) :
    P'.rounds next < P.rounds p := by
  have before : P.size - next + 1 ≤ P.size - p := by omega
  have bound : ∀ b : Bool, (if b then 0 else 1) ≤ 1 := by decide
  have last := bound (isSetOp (P'.opAt next))
  unfold rounds
  rw [size]
  omega

theorem rounds_lt_again (size : P'.size = P.size) (other : isSetOp (P.opAt p) = false)
    (set : isSetOp (P'.opAt p) = true) : P'.rounds p < P.rounds p := by
  unfold rounds
  rw [size, set, other]
  simp

theorem liveLabelTargets_congr (size : P'.size = P.size) (labels : P'.labelSlots = P.labelSlots) :
    P'.liveLabelTargets = P.liveLabelTargets := by
  funext pos
  rw [liveLabelTargets, liveLabelTargets, labelTargets, labelTargets, size, labels]

/-- What the scan has done when it ends -/
structure Scanned (P Q : BcOut) : Prop where
  accurate : Q.Accurate
  consistent : ∃ level, PeepholeConsistent level Q.code
  same : SameShown P.code Q.code

theorem postPeepholeFrom_spec {isLabelTarget : Nat → Bool} {level : Nat → Nat}
    (accurate : P.Accurate) (start : P.Start p) (labels : isLabelTarget = P.liveLabelTargets)
    (consistent : PeepholeConsistent level P.code) :
    ∃ Q, (∀ fuel, P.rounds p < fuel → postPeepholeFrom isLabelTarget fuel p P = some Q) ∧
      Scanned P Q := by
  induction bound : P.rounds p using Nat.strongRecOn generalizing P p level with
  | _ n ih =>
      subst bound
      by_cases ended : P.size ≤ p
      · refine ⟨P, fun fuel enough => ?_, accurate, ⟨level, consistent⟩, fun _ _ _ _ => .refl _ _⟩
        cases fuel with
        | zero => exact absurd enough (Nat.not_lt_zero _)
        | succ fuel => rw [postPeepholeFrom, if_pos ended]
      · have inside : p < P.size := by omega
        have positive := accurate.size_pos start inside
        have scan : Scan P isLabelTarget p (P.skipNops isLabelTarget (p + opSize (P.opAt p))) :=
          ⟨accurate, start, inside, rfl, labels⟩
        cases found : patterns.findSome? (fun pattern => pattern P isLabelTarget p
            (P.skipNops isLabelTarget (p + opSize (P.opAt p)))) with
        | none =>
            have less : P.rounds (p + opSize (P.opAt p)) < P.rounds p :=
              rounds_lt rfl inside (by omega)
            have ⟨Q, ends, scanned⟩ :=
              ih _ less accurate (accurate.next start inside) labels consistent rfl
            refine ⟨Q, fun fuel enough => ?_, scanned⟩
            cases fuel with
            | zero => exact absurd enough (Nat.not_lt_zero _)
            | succ fuel =>
                rw [postPeepholeFrom, if_neg ended]
                dsimp only
                rw [if_neg positive.ne', found]
                exact ends fuel (by omega)
        | some r =>
            have ⟨pattern, member, matches_⟩ := List.exists_of_findSome?_eq_some found
            have ⟨m, e, window, next⟩ := patterns_sound pattern member _ _ _ _ r scan matches_
            have behind : p < e := by
              have headStop := window.old.headStop
              have tailStop := window.old.tailStop
              have tailSize := opSize_pos _ window.old.tail.known
              omega
            have less : (P.writeAll r.writes).rounds r.next < P.rounds p := by
              rcases next with atStop | ⟨again, other, set⟩
              · rw [atStop]
                exact rounds_lt window.size inside behind
              · rw [again]
                exact rounds_lt_again window.size other set
            have startNext : (P.writeAll r.writes).Start r.next := by
              rcases next with atStop | ⟨again, _⟩
              · rw [atStop]
                exact window.segmentEdit.keeps_start window.segmentEdit.stop (.inr le_rfl)
              · rw [again]
                exact window.segmentEdit.keeps_start start (.inl le_rfl)
            have labels' : isLabelTarget = (P.writeAll r.writes).liveLabelTargets := by
              rw [labels, liveLabelTargets_congr window.size window.labels]
            have kept := fun V W (M : PeepholeMachine V W) w =>
              window.preserves accurate M w (consistent V W M w)
            have ⟨Q, ends, scanned⟩ := ih _ less (window.accurate_after accurate) startNext labels'
              (fun V W M w => (kept V W M w).2) rfl
            refine ⟨Q, fun fuel enough => ?_, scanned.accurate, scanned.consistent,
              SameShown.trans (fun V W M w => (kept V W M w).1) scanned.same⟩
            cases fuel with
            | zero => exact absurd enough (Nat.not_lt_zero _)
            | succ fuel =>
                rw [postPeepholeFrom, if_neg ended]
                dsimp only
                rw [if_neg positive.ne', found]
                exact ends fuel (by omega)

/-- The pass ends, with the labels still accurate and every stack depth fixed, and every execution
shows the same events and ends alike. -/
theorem postPeephole_preserves {level : Nat → Nat} (accurate : P.Accurate)
    (consistent : StackConsistent level P.code) (allocated : Bool) :
    ∃ Q, (∀ fuel, 2 * P.size + 2 ≤ fuel → P.postPeephole allocated fuel = some Q) ∧
      Scanned P Q := by
  have consistent : PeepholeConsistent level P.code := fun V W M w => consistent V W M.toMachine w
  by_cases idle : P.size = 0 ∨ allocated = false
  · refine ⟨P, fun fuel _ => ?_, accurate, ⟨level, consistent⟩, fun _ _ _ _ => .refl _ _⟩
    rw [postPeephole, if_pos idle]
  · have ⟨Q, ends, scanned⟩ := postPeepholeFrom_spec accurate (Decodes.done 0) rfl consistent
    refine ⟨Q, fun fuel enough => ?_, scanned⟩
    rw [postPeephole, if_neg idle]
    apply ends
    have bound : P.rounds 0 ≤ 2 * P.size + 1 := by
      unfold rounds
      split <;> omega
    omega

end BcOut

/-! ### A machine of plain values -/

inductive Prim where
  | undefined | null | bool (b : Bool) | int (n : Int)
  deriving DecidableEq, Repr

namespace Prim

def truth : Prim → Bool
  | .bool b => b
  | .int n => decide (n ≠ 0)
  | _ => false

def pushed (op : Nat) (operands : List UInt8) : Prim :=
  if op = opUndefined then .undefined
  else if op = opNull then .null
  else if op = opPushTrue then .bool true
  else if op = opPushFalse then .bool false
  else .int (pushedInt op operands)

def ofNullish : Nullish → Prim
  | .undefined => .undefined
  | .null => .null

def sameEntry : StackEntry Prim → StackEntry Prim → Bool
  | .value a, .value b => decide (a = b)
  | .catchOffset a, .catchOffset b => decide (a = b)
  | .retPos a, .retPos b => decide (a = b)
  | _, _ => false

theorem sameEntry_value (e : StackEntry Prim) (v : Prim) :
    sameEntry e (.value v) = true ↔ e = .value v := by
  cases e with
  | value a => simp [sameEntry]
  | catchOffset pos => simp [sameEntry]
  | retPos pos => simp [sameEntry]

/-- Reading a property of `undefined` or `null` throws. -/
def property : StackEntry Prim → Except Prim Prim
  | .value .undefined => .error .undefined
  | .value .null => .error .null
  | _ => .ok .undefined

def exec (op : Nat) (args : List (StackEntry Prim)) (w : Var → Prim) : Effect Prim (Var → Prim) :=
  match args with
  | [b, a] => if op = opStrictEq then .next [.value (.bool (sameEntry a b))] w else .finish .undefined w
  | [e] =>
      if op = opIsUndefined then .next [.value (.bool (sameEntry e (.value .undefined)))] w
      else if op = opIsNull then .next [.value (.bool (sameEntry e (.value .null)))] w
      else if op = opGetField then
        match property e with
        | .ok v => .next [.value v] w
        | .error error => .raise error w
      else if op = opGetField2 then
        match property e with
        | .ok v => .next [.value v, e] w
        | .error error => .raise error w
      else .finish .undefined w
  | _ => .finish .undefined w

section

variable {op : Nat} {args pushed : List (StackEntry Prim)} {w w' : Var → Prim}

/-- What the four opcodes leave on the stack -/
theorem exec_next (done : exec op args w = .next pushed w') :
    (∃ v, pushed = [.value v] ∧ (op = opStrictEq ∨ op = opIsUndefined ∨ op = opIsNull ∨
      op = opGetField)) ∨ ∃ v e, pushed = [.value v, e] ∧ e ∈ args ∧ op = opGetField2 := by
  unfold exec at done
  split at done
  · split at done
    · next strict =>
      cases done
      exact .inl ⟨_, rfl, .inl strict⟩
    · cases done
  · split at done
    · next test =>
      cases done
      exact .inl ⟨_, rfl, .inr (.inl test)⟩
    · split at done
      · next test =>
        cases done
        exact .inl ⟨_, rfl, .inr (.inr (.inl test))⟩
      · split at done
        · next field =>
          split at done
          · cases done
            exact .inl ⟨_, rfl, .inr (.inr (.inr field))⟩
          · cases done
        · split at done
          · next field =>
            split at done
            · cases done
              exact .inr ⟨_, _, rfl, List.mem_singleton_self _, field⟩
            · cases done
          · cases done
  · cases done

theorem exec_jump : exec op args w ≠ .jump pushed w' := by
  intro done
  unfold exec at done
  split at done
  · split at done <;> cases done
  · split at done
    · cases done
    · split at done
      · cases done
      · split at done
        · split at done <;> cases done
        · split at done
          · split at done <;> cases done
          · cases done
  · cases done

end

def machine : Machine Prim (Var → Prim) where
  dup _ w := w
  free _ w := w
  push op operands w := (pushed op operands, w)
  read x w := w x
  put x v w := Function.update w x v
  lnot v w := (.bool (!truth v), w)
  test v w := (truth v, w)
  uncatchable _ _ := false
  closeIterator _ w := w
  exec op _ args w := exec op args w
  free_dup _ _ := rfl
  free_push _ _ _ := rfl
  push_again _ _ _ _ := rfl
  read_dup _ _ _ := rfl
  read_put x v w := Function.update_self x v w
  dup_put _ _ _ := rfl
  test_lnot _ _ := rfl
  test_dup _ _ := rfl
  free_test _ _ := rfl
  exec_within op operands args w pushed w' done visible within e member := by
    rcases done with done | done
    · rcases exec_next done with ⟨v, rfl, _⟩ | ⟨v, e', rfl, arg, _⟩
      · rw [List.mem_singleton] at member
        subst member
        trivial
      · simp only [List.mem_cons, List.not_mem_nil, or_false] at member
        rcases member with rfl | rfl
        · trivial
        · exact within _ arg
    · exact absurd done exec_jump
  exec_next i args w pushed w' done := by
    rcases exec_next done with ⟨v, rfl, op | op | op | op⟩ | ⟨v, e, rfl, _, op⟩
    all_goals
      simp only [Instr.pushCount, op]
      rfl
  exec_jump op operands args w pushed w' done := absurd done exec_jump

@[simp] theorem freeEntry_machine (e : StackEntry Prim) (w : Var → Prim) :
    machine.freeEntry e w = w := by
  cases e <;> rfl

@[simp] theorem dupEntry_machine (e : StackEntry Prim) (w : Var → Prim) :
    machine.dupEntry e w = w := by
  cases e <;> rfl

def peepholeMachine : PeepholeMachine Prim (Var → Prim) where
  toMachine := machine
  ofBool := .bool
  nullish := ofNullish
  isNullish k e := sameEntry e (.value (ofNullish k))
  strictEq a b _ := sameEntry a b
  getProperty _ e w := (property e, w)
  push_nullish k w := by cases k <;> rfl
  free_nullish _ _ := rfl
  isNullish_iff k e := sameEntry_value e (ofNullish k)
  strictEq_nullish k e w := sameEntry_value e (ofNullish k)
  exec_strictEq a b w := by
    rw [freeEntry_machine, freeEntry_machine]
    rfl
  exec_isNullish k e w := by
    rw [freeEntry_machine, ite_self]
    cases k <;> rfl
  exec_getField atom e w := by
    change (match property e with
      | .ok v => Effect.next [.value v] w
      | .error error => .raise error w) = _
    cases property e with
    | ok v => dsimp only; rw [freeEntry_machine]
    | error error => dsimp only; rw [freeEntry_machine]
  exec_getField2 atom e w := by
    change (match property e with
      | .ok v => Effect.next [.value v, e] w
      | .error error => .raise error w) = _
    cases property e with
    | ok v => rfl
    | error error => dsimp only; rw [freeEntry_machine]
  getProperty_dup atom e w := by rw [dupEntry_machine]
  getProperty_error atom e w error raised := by
    cases e with
    | value v => exact ⟨v, rfl⟩
    | catchOffset pos => cases raised
    | retPos pos => cases raised
  uncatchable_free _ _ _ := rfl

end Prim

namespace BcOut

/-- `push_i8 5; put_loc8 7; get_loc8 7; get_loc8 7; drop; if_false8 L; undefined; return;
L: undefined; return` -/
def loc8Run : BcOut where
  buf := [186, 5, 192, 7, 191, 7, 191, 7, 14, 231, 3, 6, 40, 6, 40]
  jumpSlots := [⟨opIfFalse8, 1, 10, 0⟩]
  labelSlots := [⟨1, 13⟩]

example : loc8Run.postPeephole true 32 = some { loc8Run with
    buf := [186, 5, 193, 7, 176, 176, 17, 176, 14, 231, 3, 41, 176, 41, 176] } := by
  decide +kernel

def loc8Levels : Levels :=
  [some 0, none, some 1, none, some 0, none, some 1, none, some 2, some 1, none, some 0, some 1,
    some 0, some 1]

theorem postPeephole_preserves_loc8Run : ∃ Q, (∀ fuel, 32 ≤ fuel →
    loc8Run.postPeephole true fuel = some Q) ∧ Q.Accurate ∧
      SameBehaviour (Prim.peepholeMachine.observedStep loc8Run.code)
        (Prim.peepholeMachine.observedStep Q.code) (Machine.entry fun _ => .null) := by
  have accurate : loc8Run.Accurate := accurate_of_check (by decide +kernel)
  have consistent : StackConsistent (fun pc => (loc8Levels.at pc).getD 0) loc8Run.code :=
    loc8Levels.consistent (by decide +kernel)
  have ⟨Q, ends, scanned⟩ := postPeephole_preserves accurate consistent true
  exact ⟨Q, ends, scanned.accurate, scanned.same _ _ Prim.peepholeMachine fun _ => .null⟩

end BcOut

end PrimJs
