import PrimJs.Optimizer.BranchInversion

/-! `opt_goto_chain_follow`. -/

namespace PrimJs

open TraceSimulation

namespace BcOut

def isTerminal (op : Nat) : Bool := op == opReturn || op == opReturnUndef || op == opThrow

/-- The chain of `goto`s from a label, for at most `depth` of them: the `return`, `return_undef` or
`throw` it leads to. -/
def findTerminal (P : BcOut) (posToJp : Nat → Option Nat) : Nat → Nat → Option Nat
  | 0, _ => none
  | depth + 1, curLabel =>
      let L := P.labelAddr curLabel
      if L < 0 ∨ (P.size : Int) ≤ L then none
      else
        let tgt := P.skipNops (fun _ => false) L.toNat
        if P.size ≤ tgt then none
        else
          let targetOp := P.opAt tgt
          if isTerminal targetOp then some targetOp
          else if gotoSize targetOp = 0 then none
          else
            match P.findJumpSlot posToJp tgt with
            | none => none
            | some k =>
                -- cycle detection
                if (P.jp k).label = curLabel then none
                else P.findTerminal posToJp depth (P.jp k).label

/-- The terminal instruction takes the place of the `goto` of slot `j`. -/
def replaceGoto (P : BcOut) (j terminal : Nat) : BcOut :=
  let jp := P.jp j
  let P := (P.write (jp.pos - 1).toNat terminal).writeNops jp.pos.toNat jp.size
  let P := P.setJp j { jp with size := 0, op := opNop }
  P.decRef jp.label

/-- The loop over the slots from `j` on -/
def followGotos : Nat → Nat → BcOut → (Nat → Option Nat) → BcOut
  | 0, _, P, _ => P
  | count + 1, j, P, posToJp =>
      let jp := P.jp j
      if jp.size = 0 ∨ gotoSize jp.op = 0 then followGotos count (j + 1) P posToJp
      else
        match P.findTerminal posToJp 10 jp.label with
        | some terminal =>
            followGotos count (j + 1) (P.replaceGoto j terminal)
              (Function.update posToJp jp.pos.toNat none)
        | none => followGotos count (j + 1) P posToJp

def gotoChainFollow (P : BcOut) : BcOut :=
  if P.size = 0 then P else followGotos P.jumpSlots.length 0 P P.posToJp

/-! ### Where control lands -/

/-- Control that enters the code at `pos` meets at `tgt` its first instruction that is neither a
`nop` nor a `goto`. -/
inductive Lands (P : BcOut) : Nat → Nat → Prop where
  | here {pos : Nat} (inside : pos < P.size) (notNop : P.opAt pos ≠ opNop)
      (notGoto : gotoSize (P.opAt pos) = 0) : Lands P pos pos
  | nop {pos tgt : Nat} (inside : pos < P.size) (isNop : P.opAt pos = opNop)
      (later : Lands P (pos + 1) tgt) : Lands P pos tgt
  | goto {pos goal tgt : Nat} (inside : pos < P.size) (isGoto : gotoSize (P.opAt pos) ≠ 0)
      (goes : P.target pos = some goal) (later : Lands P goal tgt) : Lands P pos tgt

variable {P P' : BcOut} {posToJp : Nat → Option Nat}

theorem gotoSize_nop : gotoSize opNop = 0 := rfl

theorem Lands.functional {pos tgt tgt' : Nat} (first : P.Lands pos tgt) (second : P.Lands pos tgt') :
    tgt = tgt' := by
  induction first with
  | here _ notNop notGoto =>
      cases second with
      | here => rfl
      | nop _ isNop => exact absurd isNop notNop
      | goto _ isGoto => exact absurd notGoto isGoto
  | nop _ isNop _ ih =>
      cases second with
      | here _ notNop => exact absurd isNop notNop
      | nop _ _ later => exact ih later
      | goto _ isGoto => exact absurd gotoSize_nop (isNop ▸ isGoto)
  | goto _ isGoto goes _ ih =>
      cases second with
      | here _ _ notGoto => exact absurd notGoto isGoto
      | nop _ isNop => exact absurd gotoSize_nop (isNop ▸ isGoto)
      | goto _ _ goes' later =>
          obtain rfl := Option.some.inj (goes.symm.trans goes')
          exact ih later

theorem Lands.inside {pos tgt : Nat} (lands : P.Lands pos tgt) :
    tgt < P.size ∧ P.opAt tgt ≠ opNop ∧ gotoSize (P.opAt tgt) = 0 := by
  induction lands with
  | here inside notNop notGoto => exact ⟨inside, notNop, notGoto⟩
  | nop _ _ _ ih => exact ih
  | goto _ _ _ _ ih => exact ih

theorem Lands.skip {a b tgt : Nat} (order : a ≤ b)
    (nops : ∀ q, a ≤ q → q < b → q < P.size ∧ P.opAt q = opNop) (later : P.Lands b tgt) :
    P.Lands a tgt := by
  induction order using Nat.decreasingInduction with
  | self => exact later
  | of_succ a order ih =>
      have ⟨inside, isNop⟩ := nops a le_rfl order
      exact .nop inside isNop (ih fun q low high => nops q (by omega) high)

/-- The machine runs there without an event. -/
theorem Lands.path {V W : Type} (M : Machine V W) {pos tgt : Nat} (lands : P.Lands pos tgt)
    (stack : List (StackEntry V)) (w : W) :
    ∃ n, Path (M.step P.code) (fun _ => True) n ⟨pos, stack, w⟩ [] ⟨tgt, stack, w⟩ := by
  induction lands with
  | here => exact ⟨0, .refl _⟩
  | @nop pos _ inside isNop _ ih =>
      have ⟨i, found, action, size⟩ := code_nop inside isNop
      have first : M.step P.code ⟨pos, stack, w⟩ = .running [] ⟨pos + 1, stack, w⟩ := by
        rw [step_nop M found action, size]
      have ⟨n, later⟩ := ih
      exact ⟨1 + n, (Path.free first).append later⟩
  | @goto pos goal _ inside isGoto goes _ ih =>
      have ⟨_, _, _, _, action⟩ := gotoSize_spec isGoto
      have first : M.step P.code ⟨pos, stack, w⟩ = .running [] ⟨goal, stack, w⟩ := by
        rw [step_goto M (code_inside inside) (action _)]
        dsimp only
        rw [goes]
        rfl
      have ⟨n, later⟩ := ih
      exact ⟨1 + n, (Path.free first).append later⟩

/-! ### The chain -/

theorem isTerminal_cases {op : Nat} (terminal : isTerminal op = true) :
    op = opReturn ∨ op = opReturnUndef ∨ op = opThrow := by
  simpa [isTerminal, or_assoc] using terminal

theorem isTerminal_spec {op : Nat} (terminal : isTerminal op = true) :
    op < opCount ∧ opSize op = 1 ∧ gotoSize op = 0 ∧ op ≠ opNop ∧ hasLabelOperand op = false := by
  obtain rfl | rfl | rfl := isTerminal_cases terminal
  · exact ⟨by decide, rfl, rfl, by decide, rfl⟩
  · exact ⟨by decide, rfl, rfl, by decide, rfl⟩
  · exact ⟨by decide, rfl, rfl, by decide, rfl⟩

/-- A terminal instruction is the same wherever it stands. -/
theorem code_terminal {pos : Nat} (inside : pos < P.size)
    (terminal : isTerminal (P.opAt pos) = true) :
    P.code pos = some ⟨P.opAt pos, 1, [], none⟩ := by
  have ⟨_, size, _, _, noLabel⟩ := isTerminal_spec terminal
  have target : P.target pos = none := by
    rw [BcOut.target, if_neg (by simp [noLabel])]
  have operands : P.operandBytes pos = [] := by
    unfold operandBytes
    rw [size]
    obtain op | op | op := isTerminal_cases terminal <;> rw [op] <;> rfl
  rw [code_inside inside, size, operands, target]

theorem step_terminal {V W : Type} (M : Machine V W) {code code' : Code} {a b op : Nat}
    (terminal : isTerminal op = true) (here : code a = some ⟨op, 1, [], none⟩)
    (there : code' b = some ⟨op, 1, [], none⟩) (stack : List (StackEntry V)) (w : W) :
    M.step code' ⟨b, stack, w⟩ = M.step code ⟨a, stack, w⟩ := by
  simp only [Machine.step, here, there]
  obtain rfl | rfl | rfl := isTerminal_cases terminal
  · rcases stack with _ | ⟨_ | _ | _, rest⟩ <;> rfl
  · rcases stack with _ | ⟨_ | _ | _, rest⟩ <;> rfl
  · rcases stack with _ | ⟨_ | _ | _, rest⟩ <;> rfl

/-- The slot of a `goto` gives it its target. -/
theorem Accurate.target_goto (accurate : P.Accurate) (map : P.JumpMap posToJp) {pos k : Nat}
    (start : P.Start pos)
    (found : P.findJumpSlot posToJp pos = some k) :
    ∃ goal : Nat, P.target pos = some goal ∧ P.labelAddr (P.jp k).label = goal ∧ P.Start goal := by
  have slotFound : posToJp (pos + 1) = some k := by
    unfold findJumpSlot at found
    split at found
    · cases found
    · exact found
  have ⟨live, operand⟩ := (map _ _).mp slotFound
  have slot := accurate.slot_of_pos start live operand
  have ⟨goal, addr, startGoal, _⟩ := accurate.jumpTarget live
  exact ⟨goal, accurate.target_eq (jp_mem (jp_live_lt live)) live slot addr, addr, startGoal⟩

theorem start_skip {a b : Nat} (start : P.Start a) (order : a ≤ b)
    (nops : ∀ q, a ≤ q → q < b → P.opAt q = opNop) : P.Start b :=
  start.trans (Decodes.nops order nops)

/-- The chain ends at a terminal instruction where control lands. -/
theorem findTerminal_spec (accurate : P.Accurate) (map : P.JumpMap posToJp) {depth label op : Nat}
    {goal : Nat} (addr : P.labelAddr label = goal) (start : P.Start goal)
    (found : P.findTerminal posToJp depth label = some op) :
    isTerminal op = true ∧ ∃ tgt, P.Lands goal tgt ∧ P.opAt tgt = op := by
  induction depth generalizing label goal with
  | zero => cases found
  | succ depth ih =>
      rw [findTerminal] at found
      dsimp only at found
      rw [addr, Int.toNat_natCast] at found
      split at found
      · cases found
      · next within =>
        have skipped : ∀ q, goal ≤ q → q < P.skipNops (fun _ => false) goal →
            q < P.size ∧ P.opAt q = opNop := fun q low high =>
          ⟨(skipNops_skipped _ low high).1, (skipNops_skipped _ low high).2.1⟩
        have order := le_skipNops (P := P) (fun _ => false) goal
        have startTgt := start_skip start order fun q low high => (skipped q low high).2
        generalize P.skipNops (fun _ => false) goal = tgt at found skipped order startTgt
        split at found
        · cases found
        · next inside =>
          split at found
          · next terminal =>
            obtain rfl := Option.some.inj found
            have ⟨_, _, notGoto, notNop, _⟩ := isTerminal_spec terminal
            exact ⟨terminal, tgt, (Lands.here (by omega) notNop notGoto).skip order skipped, rfl⟩
          · split at found
            · cases found
            · next isGoto =>
              cases slot : P.findJumpSlot posToJp tgt with
              | none =>
                  rw [slot] at found
                  cases found
              | some k =>
                  rw [slot] at found
                  dsimp only at found
                  split at found
                  · cases found
                  · have ⟨next, goes, addr', start'⟩ :=
                      accurate.target_goto map startTgt slot
                    have ⟨terminal, last, lands, here⟩ := ih addr' start' found
                    refine ⟨terminal, last, ?_, here⟩
                    exact (Lands.goto (by omega) isGoto goes lands).skip order skipped

/-! ### One replacement -/

/-- Slot `j` is a `goto` at `g` from which control lands on a terminal instruction. -/
structure GotoAt (P : BcOut) (j g terminal : Nat) : Prop where
  live : 0 < (P.jp j).size
  slot : P.SlotAccurate (P.jp j) g
  isGoto : gotoSize (P.opAt g) ≠ 0
  isTerminal : BcOut.isTerminal terminal = true
  lands : ∃ tgt, P.Lands g tgt ∧ P.opAt tgt = terminal

namespace GotoAt

variable {j g terminal : Nat} (window : GotoAt P j g terminal)
include window

theorem operand : (P.jp j).pos = (g + 1 : Nat) := by
  have ⟨_, _, _, offset, _⟩ := gotoSize_spec window.isGoto
  have here := window.slot.operand
  rwa [← window.slot.op, offset] at here

theorem opSize_goto : opSize (P.opAt g) = 1 + (P.jp j).size := by
  have width := window.slot.width
  rw [← window.slot.op] at width
  have isGoto := window.isGoto
  unfold gotoSize at isGoto
  split_ifs at isGoto with short medium long
  · rw [width, short]
    rfl
  · rw [width, medium]
    rfl
  · rw [width, long]
    rfl
  · exact absurd rfl isGoto

theorem room (accurate : P.Accurate) : g + (1 + (P.jp j).size) ≤ P.size := by
  have fits := (window.slot.start.suffix accurate.decodes window.slot.inside.le).size_le
    window.slot.inside
  have size := window.opSize_goto
  unfold opAt at size
  omega

theorem replace_buf : (P.replaceGoto j terminal).buf =
    ((P.write g terminal).writeNops (g + 1) (P.jp j).size).buf := by
  have here := window.operand
  have first : ((P.jp j).pos - 1).toNat = g := by omega
  have second : (P.jp j).pos.toNat = g + 1 := by omega
  change ((P.write ((P.jp j).pos - 1).toNat terminal).writeNops (P.jp j).pos.toNat
    (P.jp j).size).buf = _
  rw [first, second]

theorem replace_opAt_goto : (P.replaceGoto j terminal).opAt g = terminal := by
  have ⟨known, _⟩ := isTerminal_spec window.isTerminal
  have byte : (P.replaceGoto j terminal).opAt g =
      ((P.write g terminal).writeNops (g + 1) (P.jp j).size).opAt g := by
    rw [opAt, opAt, window.replace_buf]
  rw [byte, opAt_writeNops_outside (by omega),
    opAt_write_same window.slot.inside (known.trans (by decide))]

theorem replace_size : (P.replaceGoto j terminal).size = P.size := by
  rw [BcOut.size, window.replace_buf]
  exact (writeNops_size _ _ _).trans (write_size _ _ _)

theorem replace_opAt_nop (accurate : P.Accurate) {i : Nat} (low : g + 1 ≤ i)
    (high : i < g + (1 + (P.jp j).size)) : (P.replaceGoto j terminal).opAt i = opNop := by
  have room := window.room accurate
  have byte : (P.replaceGoto j terminal).opAt i =
      ((P.write g terminal).writeNops (g + 1) (P.jp j).size).opAt i := by
    rw [opAt, opAt, window.replace_buf]
  rw [byte]
  exact opAt_writeNops_inside low (by omega) (by rw [write_size]; omega)

theorem replace_opAt {i : Nat} (outside : i < g ∨ g + (1 + (P.jp j).size) ≤ i) :
    (P.replaceGoto j terminal).opAt i = P.opAt i := by
  have byte : (P.replaceGoto j terminal).opAt i =
      ((P.write g terminal).writeNops (g + 1) (P.jp j).size).opAt i := by
    rw [opAt, opAt, window.replace_buf]
  rw [byte, opAt_writeNops_outside (by omega), opAt_write_ne (by omega)]

theorem segmentEdit (accurate : P.Accurate) :
    SegmentEdit P (P.replaceGoto j terminal) g (g + opSize (P.opAt g)) where
  size := window.replace_size
  start := window.slot.start
  stop := accurate.next window.slot.start window.slot.inside
  order := Nat.le_add_right _ _
  inside := by
    rw [window.opSize_goto]
    exact window.room accurate
  decodes := by
    have ⟨known, size, _⟩ := isTerminal_spec window.isTerminal
    have here := window.replace_opAt_goto
    have first : Decodes (P.replaceGoto j terminal).buf g (g + 1) := by
      have single : Decodes (P.replaceGoto j terminal).buf g
          (g + opSize ((P.replaceGoto j terminal).opAt g)) :=
        Decodes.one (by rw [opAt] at here; rwa [here])
      rwa [here, size] at single
    have rest : Decodes (P.replaceGoto j terminal).buf (g + 1) (g + (1 + (P.jp j).size)) :=
      Decodes.nops (by omega) fun i low high => window.replace_opAt_nop accurate low high
    rw [window.opSize_goto]
    exact first.trans rest
  same i outside := by
    rw [window.opSize_goto] at outside
    exact window.replace_opAt outside

omit window in
theorem replace_jp_other {k : Nat} (other : k ≠ j) : (P.replaceGoto j terminal).jp k = P.jp k :=
  jp_setJp_ne other _

theorem replace_jp : (P.replaceGoto j terminal).jp j = { P.jp j with size := 0, op := opNop } :=
  jp_setJp_same (jp_live_lt window.live) _

omit window in
theorem replace_labelAddr (label : Nat) :
    (P.replaceGoto j terminal).labelAddr label = P.labelAddr label :=
  (decRef_labelAddr (BcOut.setJp _ _ _) _ _).trans rfl

theorem accurate_after (accurate : P.Accurate) : (P.replaceGoto j terminal).Accurate :=
  accurate.edit_kill window.live window.slot (window.segmentEdit accurate) rfl rfl rfl

theorem outside {q : Nat} (start : P.Start q) (other : q ≠ g) :
    q < g ∨ g + opSize (P.opAt g) ≤ q := by
  rcases Nat.lt_trichotomy q g with before | same | after
  · exact .inl before
  · exact absurd same other
  · exact .inr (window.slot.start.next_le start after)

/-- No instruction but the `goto` changes. -/
theorem code_same (accurate : P.Accurate) {q : Nat} (start : P.Start q) (other : q ≠ g) :
    (P.replaceGoto j terminal).code q = P.code q := by
  by_cases inside : q < P.size
  · have outside := window.outside start other
    have edit := window.segmentEdit accurate
    refine edit.code_eq start (accurate.known start inside) outside ?_
    refine accurate.target_congr (window.accurate_after accurate) (edit.same q outside)
      replace_labelAddr fun label k operand => replace_jp_other fun same => ?_
    have ⟨after, before⟩ := accurate.operand_inside start inside label
    have here := window.operand
    have size := window.opSize_goto
    have fits : q < g → q + opSize (P.opAt q) ≤ g := fun low => start.next_le window.slot.start low
    subst same
    rw [window.replace_jp] at operand
    dsimp only at operand
    omega
  · rw [code, code, window.replace_size, if_neg inside, if_neg inside]

theorem opAt_same {q : Nat} (start : P.Start q) (other : q ≠ g) :
    (P.replaceGoto j terminal).opAt q = P.opAt q := by
  have outside := window.outside start other
  rw [window.opSize_goto] at outside
  exact window.replace_opAt outside

theorem target_same (accurate : P.Accurate) {q : Nat} (start : P.Start q) (inside : q < P.size)
    (other : q ≠ g) : (P.replaceGoto j terminal).target q = P.target q := by
  have inside' : q < (P.replaceGoto j terminal).size := window.replace_size ▸ inside
  have same := window.code_same accurate start other
  rw [code_inside inside, code_inside inside'] at same
  exact congrArg Instr.target (Option.some.inj same)

/-- The terminal instruction that has taken the place of the `goto` is the one control landed on. -/
theorem code_goto {tgt : Nat} (lands : P.Lands g tgt) :
    (P.replaceGoto j terminal).code g = P.code tgt ∧
      P.code tgt = some ⟨terminal, 1, [], none⟩ := by
  obtain ⟨tgt', lands', here⟩ := window.lands
  obtain rfl := lands.functional lands'
  have there := window.replace_opAt_goto
  have old : P.code tgt = some ⟨P.opAt tgt, 1, [], none⟩ :=
    code_terminal lands.inside.1 (by rw [here]; exact window.isTerminal)
  have new : (P.replaceGoto j terminal).code g =
      some ⟨(P.replaceGoto j terminal).opAt g, 1, [], none⟩ :=
    code_terminal (by rw [window.replace_size]; exact window.slot.inside)
      (by rw [there]; exact window.isTerminal)
  rw [there] at new
  rw [here] at old
  exact ⟨new.trans old.symm, old⟩

theorem lands_goto : (P.replaceGoto j terminal).Lands g g := by
  have ⟨_, _, notGoto, notNop, _⟩ := isTerminal_spec window.isTerminal
  have there := window.replace_opAt_goto
  refine .here ?_ ?_ ?_
  · rw [window.replace_size]
    exact window.slot.inside
  · rw [there]
    exact notNop
  · rw [there]
    exact notGoto

section

variable (accurate : P.Accurate)

include accurate

theorem lands_after {pos tgt : Nat} (start : P.Start pos) (lands : P.Lands pos tgt) :
    ∃ tgt', (P.replaceGoto j terminal).Lands pos tgt' ∧
      (P.replaceGoto j terminal).code tgt' = P.code tgt := by
  have size := window.replace_size
  induction lands with
  | @here pos inside notNop notGoto =>
      have other : pos ≠ g := fun same => window.isGoto (same ▸ notGoto)
      have op := window.opAt_same start other
      refine ⟨pos, .here (size ▸ inside) ?_ ?_, window.code_same accurate start other⟩
      · rw [op]
        exact notNop
      · rw [op]
        exact notGoto
  | @nop pos _ inside isNop _ ih =>
      have other : pos ≠ g := fun same => window.isGoto (same ▸ isNop ▸ gotoSize_nop)
      have next := accurate.next start inside
      rw [isNop] at next
      have ⟨tgt', later, code⟩ := ih next
      exact ⟨tgt', .nop (size ▸ inside) ((window.opAt_same start other).trans isNop) later, code⟩
  | @goto pos goal tgt inside isGoto goes later ih =>
      by_cases own : pos = g
      · subst own
        have old : P.Lands pos tgt := .goto inside isGoto goes later
        exact ⟨pos, window.lands_goto, (window.code_goto old).1⟩
      · have ⟨startGoal, _⟩ := accurate.target_live (code_inside inside) goes
        have ⟨tgt', later', code⟩ := ih startGoal
        refine ⟨tgt', .goto (size ▸ inside) ?_ ?_ later', code⟩
        · rw [window.opAt_same start own]
          exact isGoto
        · rw [window.target_same accurate start inside own]
          exact goes

theorem lands_before {pos tgt' : Nat} (start : P.Start pos)
    (lands : (P.replaceGoto j terminal).Lands pos tgt') : ∃ tgt, P.Lands pos tgt ∧
      (P.replaceGoto j terminal).code tgt' = P.code tgt := by
  have size := window.replace_size
  have ⟨_, _, terminalGoto, terminalNop, _⟩ := isTerminal_spec window.isTerminal
  induction lands with
  | @here pos inside notNop notGoto =>
      by_cases own : pos = g
      · subst own
        have ⟨tgt, lands, _⟩ := window.lands
        exact ⟨tgt, lands, (window.code_goto lands).1⟩
      · rw [window.opAt_same start own] at notNop notGoto
        exact ⟨pos, .here (size ▸ inside) notNop notGoto, window.code_same accurate start own⟩
  | @nop pos _ inside isNop _ ih =>
      have other : pos ≠ g := by
        rintro rfl
        exact terminalNop (window.replace_opAt_goto.symm.trans isNop)
      rw [window.opAt_same start other] at isNop
      rw [size] at inside
      have next := accurate.next start inside
      rw [isNop] at next
      have ⟨tgt, later, code⟩ := ih next
      exact ⟨tgt, .nop inside isNop later, code⟩
  | @goto pos goal tgt inside isGoto goes later ih =>
      have other : pos ≠ g := by
        rintro rfl
        rw [window.replace_opAt_goto] at isGoto
        exact isGoto terminalGoto
      rw [window.opAt_same start other] at isGoto
      rw [size] at inside
      rw [window.target_same accurate start inside other] at goes
      have ⟨startGoal, _⟩ := accurate.target_live (code_inside inside) goes
      have ⟨tgt, later', code⟩ := ih startGoal
      exact ⟨tgt, .goto inside isGoto goes later', code⟩

theorem windowEdit :
    WindowEdit P (P.replaceGoto j terminal) g (g + opSize (P.opAt g)) where
  size := window.replace_size
  start := window.slot.start
  stop := accurate.next window.slot.start window.slot.inside
  inside := (window.segmentEdit accurate).inside
  unlabelled q low high start := by
    have fits := window.slot.start.next_le start low
    unfold opAt at high
    omega
  same q start _ outside := by
    have positive := accurate.size_pos window.slot.start window.slot.inside
    exact window.code_same accurate start (by omega)

theorem sameBehaviour {V W : Type} (M : Machine V W) (w : W) :
    SameBehaviour (M.step P.code) (M.step (P.replaceGoto j terminal).code)
      (Machine.entry w) := by
  refine (window.windowEdit accurate).sameBehaviour accurate M w fun s here within => ?_
  have ⟨pc, stack, world⟩ := s
  dsimp only at here
  subst here
  have ⟨tgt, lands, _⟩ := window.lands
  have ⟨codes, old⟩ := window.code_goto lands
  have ⟨n, run⟩ := lands.path M stack world
  refine matched_of_meet run (.refl _) trivial
    (step_terminal M window.isTerminal old (codes.trans old) stack world) ?_
  intro events t next
  have members : ∀ e ∈ (⟨tgt, stack, world⟩ : State V W).stack, e.Within _ := within.stack
  refine M.step_within old members (fun falls => ?_) (fun pos jump => ?_) next
  · obtain rfl | rfl | rfl := isTerminal_cases window.isTerminal
    · exact falls.elim
    · exact falls.elim
    · exact falls.elim
  · cases jump

/-- The map of the pass without the slot of the `goto` -/
theorem jumpMap (map : P.JumpMap posToJp) :
    (P.replaceGoto j terminal).JumpMap (Function.update posToJp (P.jp j).pos.toNat none) := by
  intro q k
  have operand := window.operand
  by_cases erased : q = (P.jp j).pos.toNat
  · subst erased
    rw [Function.update_self]
    constructor
    · intro found
      cases found
    · intro ⟨live, here⟩
      by_cases own : k = j
      · rw [own, window.replace_jp] at live
        exact absurd live (lt_irrefl 0)
      · rw [replace_jp_other own] at live here
        exact absurd (accurate.index_eq live window.live (by omega)) own
  · rw [Function.update_of_ne erased, map q k]
    by_cases own : k = j
    · subst own
      rw [window.replace_jp]
      constructor
      · intro ⟨_, here⟩
        exact absurd (by omega) erased
      · intro ⟨live, _⟩
        exact absurd live (lt_irrefl 0)
    · rw [replace_jp_other own]

end

end GotoAt

/-! ### The pass -/

/-- What the pass keeps. No jump goes elsewhere: a slot and the address of its label stay as they
are, or the slot is that of a `goto` and is erased. -/
structure Follows (P Q : BcOut) : Prop where
  accurate : Q.Accurate
  size : Q.size = P.size
  starts : ∀ pos, P.Start pos → Q.Start pos
  addrs : ∀ label, Q.labelAddr label = P.labelAddr label
  slots : ∀ k, Q.jp k = P.jp k ∨ gotoSize (P.jp k).op ≠ 0 ∧ (Q.jp k).size = 0
  others : ∀ pos, P.Start pos → gotoSize (P.opAt pos) = 0 → Q.code pos = P.code pos
  lands : ∀ pos i, P.Start pos → ((∃ tgt, P.Lands pos tgt ∧ P.code tgt = some i) ↔
    ∃ tgt, Q.Lands pos tgt ∧ Q.code tgt = some i)

theorem Follows.refl (accurate : P.Accurate) : Follows P P :=
  ⟨accurate, rfl, fun _ start => start, fun _ => rfl, fun _ => .inl rfl, fun _ _ _ => rfl,
    fun _ _ _ => Iff.rfl⟩

theorem Follows.trans {Q R : BcOut} (first : Follows P Q) (second : Follows Q R) :
    Follows P R where
  accurate := second.accurate
  size := second.size.trans first.size
  starts pos start := second.starts pos (first.starts pos start)
  addrs label := (second.addrs label).trans (first.addrs label)
  slots k := by
    rcases first.slots k with kept | ⟨isGoto, dead⟩
    · rcases second.slots k with kept' | ⟨isGoto, dead⟩
      · exact .inl (kept'.trans kept)
      · exact .inr ⟨kept ▸ isGoto, dead⟩
    · rcases second.slots k with kept' | ⟨_, dead'⟩
      · exact .inr ⟨isGoto, kept' ▸ dead⟩
      · exact .inr ⟨isGoto, dead'⟩
  others pos start notGoto := by
    have same := first.others pos start notGoto
    by_cases inside : pos < P.size
    · have inside' : pos < Q.size := first.size ▸ inside
      rw [code_inside inside, code_inside inside'] at same
      have op : Q.opAt pos = P.opAt pos := congrArg Instr.op (Option.some.inj same)
      have same' := second.others pos (first.starts pos start) (by rw [op]; exact notGoto)
      exact same'.trans (first.others pos start notGoto)
    · rw [code, code, second.size, first.size, if_neg inside, if_neg inside]
  lands pos i start :=
    (first.lands pos i start).trans (second.lands pos i (first.starts pos start))

theorem GotoAt.follows {j g terminal : Nat} (window : GotoAt P j g terminal)
    (accurate : P.Accurate) : Follows P (P.replaceGoto j terminal) where
  accurate := window.accurate_after accurate
  size := window.replace_size
  starts pos start := by
    apply (window.segmentEdit accurate).keeps_start start
    by_cases own : pos = g
    · exact .inl own.le
    · exact (window.outside start own).imp Nat.le_of_lt id
  addrs := replace_labelAddr
  slots k := by
    by_cases own : k = j
    · subst own
      have isGoto := window.isGoto
      rw [window.slot.op] at isGoto
      exact .inr ⟨isGoto, by rw [window.replace_jp]⟩
    · exact .inl (replace_jp_other own)
  others pos start notGoto := by
    apply window.code_same accurate start
    rintro rfl
    exact window.isGoto notGoto
  lands pos i start := by
    constructor
    · rintro ⟨tgt, lands, code⟩
      have ⟨tgt', lands', same⟩ := window.lands_after accurate start lands
      exact ⟨tgt', lands', same.trans code⟩
    · rintro ⟨tgt', lands', code⟩
      have ⟨tgt, lands, same⟩ := window.lands_before accurate start lands'
      exact ⟨tgt, lands, same.symm.trans code⟩

/-- What a round of the loop has found -/
theorem gotoAt_of_found (accurate : P.Accurate) (map : P.JumpMap posToJp) {j terminal : Nat}
    (live : (P.jp j).size ≠ 0) (isGoto : gotoSize (P.jp j).op ≠ 0)
    (found : P.findTerminal posToJp 10 (P.jp j).label = some terminal) :
    ∃ g, GotoAt P j g terminal := by
  have positive := Nat.pos_of_ne_zero live
  have ⟨g, slot⟩ := accurate.slot positive
  have ⟨goal, addr, start, _⟩ := accurate.jumpTarget positive
  have ⟨isTerminal, tgt, lands, op⟩ := findTerminal_spec accurate map addr start found
  have goes := accurate.target_eq (jp_mem (jp_live_lt positive)) positive slot addr
  have isGoto' : gotoSize (P.opAt g) ≠ 0 := by
    rw [slot.op]
    exact isGoto
  exact ⟨g, positive, slot, isGoto', isTerminal, tgt, .goto slot.inside isGoto' goes lands, op⟩

theorem followGotos_spec (count : Nat) {j : Nat} (accurate : P.Accurate)
    (map : P.JumpMap posToJp) :
    Follows P (followGotos count j P posToJp) ∧ ∀ {V W : Type} (M : Machine V W) (w : W),
      SameBehaviour (M.step P.code) (M.step (followGotos count j P posToJp).code)
        (Machine.entry w) := by
  induction count generalizing P j posToJp with
  | zero => exact ⟨.refl accurate, fun M w => .refl _ _⟩
  | succ count ih =>
      rw [followGotos]
      split
      · exact ih accurate map
      · next here =>
        cases found : P.findTerminal posToJp 10 (P.jp j).label with
        | none => exact ih accurate map
        | some terminal =>
            have ⟨g, window⟩ := gotoAt_of_found accurate map (fun dead => here (.inl dead))
              (fun other => here (.inr other)) found
            have ⟨follows, same⟩ := @ih _ _ (j + 1) (window.accurate_after accurate)
              (window.jumpMap accurate map)
            exact ⟨(window.follows accurate).trans follows,
              fun M w => (window.sameBehaviour accurate M w).trans (same M w)⟩

/-- `goto A; A: goto B; B: return_undef; C: goto C`, all with one-byte offsets -/
def gotoChain : BcOut where
  buf := [233, 1, 233, 1, 41, 233, 255]
  jumpSlots := [⟨opGoto8, 1, 1, 0⟩, ⟨opGoto8, 1, 3, 1⟩, ⟨opGoto8, 1, 6, 2⟩]
  labelSlots := [⟨1, 2⟩, ⟨1, 4⟩, ⟨1, 5⟩]

example : gotoChain.gotoChainFollow.buf = [41, 176, 41, 176, 41, 233, 255] := by decide +kernel

end BcOut

end PrimJs
