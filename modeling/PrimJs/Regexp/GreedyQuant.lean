import PrimJs.Regexp.QuantifierOuts
import PrimJs.Regexp.SimpleAtom

/-! What `REOP_simple_greedy_quant` offers: the positions after its matches, the later ones computed
from the earlier ones by stepping back. -/

namespace PrimJs.Regexp

variable {x : ExecContext}

/-! ### Reading forward and stepping back -/

def midPair (x : ExecContext) (cptr : Nat) : Bool :=
  x.cbuf_type = .utf16 && 0 < cptr && isHighSurrogate (x.unit (cptr - 1)) &&
    isLowSurrogate (x.unit cptr)

theorem not_low_of_high {c : Nat} (high : isHighSurrogate c = true) : isLowSurrogate c = false := by
  simp only [isHighSurrogate, isLowSurrogate, Bool.and_eq_true, Bool.and_eq_false_iff,
    decide_eq_true_eq, decide_eq_false_iff_not] at high ⊢
  omega

theorem unit_after (x : ExecContext) {cptr : Nat} (h : x.cbuf_end ≤ cptr) : x.unit cptr = 0 := by
  rw [ExecContext.unit, List.getD_eq_default _ _ h]

/-- Reading a character does not stop in the middle of a pair. -/
theorem midPair_getChar (x : ExecContext) (cptr : Nat) :
    midPair x (getChar x cptr x.cbuf_end).2 = false := by
  by_contra mid
  simp only [midPair, Bool.not_eq_false, Bool.and_eq_true, decide_eq_true_eq] at mid
  obtain ⟨⟨⟨type, -⟩, high⟩, low⟩ := mid
  unfold getChar at high low
  dsimp only at high low
  split at high
  · next pair =>
    simp only [Bool.and_eq_true, decide_eq_true_eq] at pair
    rw [Nat.add_sub_cancel] at high
    rw [not_low_of_high high] at pair
    exact absurd pair.2 Bool.false_ne_true
  · next single =>
    rw [if_neg single] at low
    dsimp only at high low
    rw [Nat.add_sub_cancel] at high
    have inside : cptr + 1 < x.cbuf_end := by
      by_contra out
      rw [unit_after x (Nat.le_of_not_lt out)] at low
      cases low
    exact single (by simp [high, low, type, inside])

/-- Stepping back over a character that was read, except to the middle of a pair. -/
theorem prevChar_getChar (x : ExecContext) (cptr : Nat) :
    prevChar x (getChar x cptr x.cbuf_end).2 0 = if midPair x cptr then cptr - 1 else cptr := by
  unfold prevChar getPrevChar getChar
  dsimp only
  split
  · next pair =>
    simp only [Bool.and_eq_true, decide_eq_true_eq] at pair
    obtain ⟨⟨⟨high, type⟩, inside⟩, low⟩ := pair
    have notMid : midPair x cptr = false := by
      simp [midPair, not_low_of_high high]
    simp [high, type, low, notMid]
  · next single =>
    dsimp only
    rw [Nat.add_sub_cancel]
    have same : (isLowSurrogate (x.unit cptr) && decide (x.cbuf_type = .utf16) && decide (cptr > 0) &&
        isHighSurrogate (x.unit (cptr - 1))) = midPair x cptr := by
      rw [midPair, Bool.eq_iff_iff]
      simp only [Bool.and_eq_true, decide_eq_true_eq]
      tauto
    rw [same]
    split <;> rfl

theorem giveBack_succ (x : ExecContext) (n cptr : Nat) :
    giveBack x (n + 1) cptr = prevChar x (giveBack x n cptr) 0 := by
  induction n generalizing cptr with
  | zero => rfl
  | succ n ih =>
      rw [giveBack, ih]
      rfl

theorem midPair_charOp {op : REOp} {cptr cptr' : Nat} (h : lreMatchCharOp x op cptr = some cptr') :
    cptr < x.cbuf_end ∧ cptr' = (getChar x cptr x.cbuf_end).2 := by
  unfold lreMatchCharOp at h
  split at h
  · cases h
  · next inside =>
    dsimp only at h
    split at h
    · exact ⟨Nat.lt_of_not_le inside, (Option.some.inj h).symm⟩
    · cases h

variable {atom : List REOp}

section

variable {n cptr cptr' : Nat} (simple : reIsSimpleQuantifier atom = some n)
  (h : simpleRun x atom cptr = some cptr')

include simple h

/-- Giving back a match of the atom. -/
theorem giveBack_simpleRun :
    giveBack x n cptr' = if 0 < n ∧ midPair x cptr = true then cptr - 1 else cptr := by
  refine simpleRun_induction (motive := fun n cptr cptr' => giveBack x n cptr' =
    if 0 < n ∧ midPair x cptr = true then cptr - 1 else cptr) (fun _ => rfl) (fun test back => ?_)
    simple h
  obtain ⟨inside, rfl⟩ := midPair_charOp test
  rw [midPair_getChar x _, if_neg (by simp)] at back
  rw [giveBack_succ, back, prevChar_getChar x _]
  simp

/-- A match that reads something does not stop in the middle of a pair. -/
theorem midPair_simpleRun : cptr' = cptr ∧ n = 0 ∨ midPair x cptr' = false := by
  refine simpleRun_induction (motive := fun n cptr cptr' =>
    cptr' = cptr ∧ n = 0 ∨ midPair x cptr' = false) (fun _ => .inl ⟨rfl, rfl⟩)
    (fun test later => ?_) simple h
  obtain ⟨inside, rfl⟩ := midPair_charOp test
  obtain ⟨rfl, -⟩ | notMid := later
  · exact .inr (midPair_getChar x _)
  · exact .inr notMid

end

/-! ### The points -/

/-- The matches of the atom that the instruction counts, and the position after them. -/
def simpleCount (x : ExecContext) (atom : List REOp) (quant_max : Nat) :
    (fuel q cptr : Nat) → Nat × Nat
  | 0, q, cptr => (q, cptr)
  | fuel + 1, q, cptr =>
      if q = quant_max ∧ quant_max ≠ INT32_MAX then (q, cptr)
      else
        match simpleRun x atom cptr with
        | none => (q, cptr)
        | some cptr => simpleCount x atom quant_max fuel (q + 1) cptr

/-- The last position and the `count` positions that stepping back gives. -/
def givenBack (x : ExecContext) (char_count : Nat) : (count cptr : Nat) → List Nat
  | 0, cptr => [cptr]
  | count + 1, cptr => cptr :: givenBack x char_count count (giveBack x char_count cptr)

def greedyOuts (x : ExecContext) (atom : List REOp) (quant_min quant_max char_count : Nat)
    (p : Point) : List Point :=
  let (q, cptr) := simpleCount x atom quant_max (x.cbuf_end + 1) 0 p.cptr
  if q < quant_min then [] else (givenBack x char_count (q - quant_min) cptr).map p.moveTo

section

variable {cptr count cptr₁ cptr₂ : Nat} (h : SimpleMatches x atom cptr count cptr₁)

include h

theorem SimpleMatches.functional (h' : SimpleMatches x atom cptr count cptr₂) : cptr₁ = cptr₂ := by
  induction h with
  | none =>
      cases h'
      rfl
  | more first _ ih =>
      cases h' with
      | more first' rest' =>
          obtain rfl := Option.some.inj (first.symm.trans first')
          exact ih rest'

theorem SimpleMatches.next {count' : Nat} (h' : SimpleMatches x atom cptr count' cptr₂)
    (fewer : count < count') : ∃ cptr', simpleRun x atom cptr₁ = some cptr' := by
  induction h generalizing count' with
  | none =>
      cases h' with
      | none => exact absurd fewer (lt_irrefl _)
      | more first _ => exact ⟨_, first⟩
  | more first _ ih =>
      cases h' with
      | none => exact absurd fewer (Nat.not_lt_zero _)
      | more first' rest' =>
          obtain rfl := Option.some.inj (first.symm.trans first')
          exact ih rest' (Nat.lt_of_succ_lt_succ fewer)

end

theorem Greedy.functional {quant_max cptr count count' cptr₁ cptr₂ : Nat}
    (h : Greedy x atom quant_max cptr count cptr₁)
    (h' : Greedy x atom quant_max cptr count' cptr₂) : count = count' ∧ cptr₁ = cptr₂ := by
  have least : ∀ {count count' cptr₁ cptr₂ : Nat}, Greedy x atom quant_max cptr count cptr₁ →
      Greedy x atom quant_max cptr count' cptr₂ → ¬count < count' := by
    intro count count' cptr₁ cptr₂ h h' fewer
    obtain ⟨full, bounded⟩ | none_ := h.last
    · have := h'.bounded bounded
      omega
    · obtain ⟨cptr', some_⟩ := h.matches_.next h'.matches_ fewer
      rw [none_] at some_
      cases some_
  have same : count = count' :=
    Nat.le_antisymm (Nat.le_of_not_lt (least h' h)) (Nat.le_of_not_lt (least h h'))
  subst same
  exact ⟨rfl, h.matches_.functional h'.matches_⟩

section

variable {n : Nat} (simple : reIsSimpleQuantifier atom = some n)

include simple

theorem simpleCount_spec {quant_max start : Nat} (nonempty : 0 < n) (fuel q cptr : Nat)
    (positive : 0 < fuel) (enough : x.cbuf_end < cptr + fuel)
    (done : SimpleMatches x atom start q cptr) (below : quant_max ≠ INT32_MAX → q ≤ quant_max) :
    Greedy x atom quant_max start (simpleCount x atom quant_max fuel q cptr).1
      (simpleCount x atom quant_max fuel q cptr).2 := by
  induction fuel generalizing q cptr with
  | zero => exact absurd positive (lt_irrefl 0)
  | succ fuel ih =>
      rw [simpleCount]
      split
      · next full => exact ⟨done, below, .inl full⟩
      · next notFull =>
        cases run : simpleRun x atom cptr with
        | none => exact ⟨done, below, .inr run⟩
        | some cptr₁ =>
            obtain ⟨forward, inside, within⟩ := simpleRun_bounds simple run
            have inside := within nonempty
            exact ih (q + 1) cptr₁ (by omega) (by omega) (done.snoc run) (by omega)

/-- The count of the instruction. -/
theorem greedy_simpleCount (nonempty : 0 < n) (quant_max cptr : Nat) :
    Greedy x atom quant_max cptr (simpleCount x atom quant_max (x.cbuf_end + 1) 0 cptr).1
      (simpleCount x atom quant_max (x.cbuf_end + 1) 0 cptr).2 :=
  simpleCount_spec simple nonempty _ 0 cptr (Nat.succ_pos _) (by omega) (.none cptr)
    fun _ => Nat.zero_le _

theorem SimpleMatches.le {cptr count cptr' : Nat} (h : SimpleMatches x atom cptr count cptr') :
    cptr ≤ cptr' ∧ cptr' ≤ max cptr x.cbuf_end := by
  induction h with
  | none => exact ⟨le_refl _, le_max_left _ _⟩
  | more first _ ih =>
      have := simpleRun_bounds simple first
      omega

end

theorem prevChar_le (x : ExecContext) (cptr : Nat) : prevChar x cptr 0 ≤ cptr := by
  unfold prevChar getPrevChar
  dsimp only
  split <;> dsimp only <;> omega

theorem giveBack_le (x : ExecContext) (n cptr : Nat) : giveBack x n cptr ≤ cptr := by
  induction n with
  | zero => exact le_refl _
  | succ n ih =>
      rw [giveBack_succ]
      exact (prevChar_le x _).trans ih

theorem givenBack_le (x : ExecContext) (n count cptr : Nat) :
    ∀ cptr' ∈ givenBack x n count cptr, cptr' ≤ cptr := by
  induction count generalizing cptr with
  | zero => simp [givenBack]
  | succ count ih =>
      intro cptr' member
      obtain rfl | later := List.mem_cons.mp member
      · exact le_refl _
      · exact (ih _ cptr' later).trans (giveBack_le x n cptr)

/-! ### The instruction -/

section

variable {base : Slots} {size : Nat}

/-- The failures that go back to the frame of the instruction, by induction on the matches left. -/
theorem offers_giveBack {pc exit char_count next_pos quant_min quant_max : Nat}
    (fetched : fetch x.code pc = some (.simple_greedy_quant next_pos quant_min quant_max char_count))
    (after : exit = pc + 17 + next_pos) {counters : List Word} {below : List CopyFrame} {m : Slots}
    {p : Point} (arrived : Arrived size counters exit p ⟨exit, p.cptr, counters.length, m, below⟩)
    (count cptr : Nat) :
    Offers x base size pc exit counters below
      (backtrack x base (⟨.greedy_quant (count + 1), pc + 1, cptr, counters.length, m⟩ :: below))
      ((givenBack x char_count count (giveBack x char_count cptr)).map p.moveTo) := by
  have operands : greedyOperands x (pc + 1) = some (exit, char_count) := by
    rw [greedyOperands, Nat.add_sub_cancel, fetched, after]
  have there : ∀ cptr frames, Arrived size counters exit (p.moveTo cptr)
      ⟨exit, cptr, counters.length, m, frames⟩ := fun cptr frames =>
    ⟨rfl, rfl, rfl, arrived.capture, arrived.size, arrived.counters⟩
  induction count generalizing cptr with
  | zero =>
      rw [backtrack]
      dsimp only
      rw [operands]
      exact .out (there _ _) (List.nil_append _).symm (by rintro f ⟨⟩) (.fail rfl)
  | succ count ih =>
      rw [backtrack]
      dsimp only
      rw [operands]
      refine .out (there _ _)
        (List.singleton_append (x := CopyFrame.mk (.greedy_quant (count + 1)) (pc + 1)
          (giveBack x char_count cptr) counters.length m)).symm ?_ (ih _)
      rintro f (_ | ⟨_, ⟨⟩⟩)
      rfl

theorem Piece.simple {Valid : Point → Prop} {atom : List REOp} {next_pos quant_min quant_max n : Nat}
    (simple : IsSimpleAtom atom next_pos quant_min quant_max n)
    (moves : ∀ (p : Point) cptr, Valid p → cptr ≤ max p.cptr x.cbuf_end → Valid (p.moveTo cptr)) :
    Piece x base size Valid
      (.simple_greedy_quant next_pos quant_min quant_max n :: atom ++ [.match])
      (greedyOuts x atom quant_min quant_max n) where
  keeps := by
    intro p valid q member
    have greedy := greedy_simpleCount (x := x) simple.simple simple.nonempty quant_max p.cptr
    unfold greedyOuts at member
    dsimp only at member
    split at member
    · cases member
    · obtain ⟨cptr, given, rfl⟩ := List.mem_map.mp member
      exact moves p cptr valid ((givenBack_le x _ _ _ cptr given).trans
        (greedy.matches_.le simple.simple).2)
  runs := by
    intro pc at_ counters p valid room s arrived
    obtain ⟨front, back, code, rfl⟩ := at_
    have fetched : fetch x.code (codeSize front) =
        some (.simple_greedy_quant next_pos quant_min quant_max n) := by
      rw [code, List.append_assoc]
      exact fetch_middle front _ _
    have code' : x.code = (front ++ [.simple_greedy_quant next_pos quant_min quant_max n]) ++ atom ++
        .match :: back := by
      rw [code]
      simp
    obtain ⟨q, cptr, count, greedy⟩ := simpleGreedyCount_spec code' simple p.cptr
    obtain ⟨sameCount, sameCptr⟩ := greedy.functional
      (greedy_simpleCount simple.simple simple.nonempty quant_max p.cptr)
    have start : codeSize (front ++ [.simple_greedy_quant next_pos quant_min quant_max n]) =
        codeSize front + 17 := by
      simp [REOp.size]
    have after : codeSize front + codeSize (.simple_greedy_quant next_pos quant_min quant_max n ::
        atom ++ [.match]) = codeSize front + 17 + next_pos := by
      simp only [List.cons_append, codeSize_cons, codeSize_append, codeSize_nil, simple.size,
        REOp.size]
      omega
    rw [start] at count
    rw [after]
    have act : action x s.slots s.stack_len s.pc s.cptr =
        if q < quant_min then .noMatch
        else if q > quant_min then
          .push (.greedy_quant (q - quant_min)) (codeSize front + 1)
            (codeSize front + 17 + next_pos) cptr
        else .goOn (codeSize front + 17 + next_pos) cptr := by
      rw [action, arrived.pc, fetched, arrived.cptr]
      dsimp only [REOp.size]
      rw [count, show codeSize front + 17 - 16 = codeSize front + 1 by omega]
    have there : ∀ (p : Point) frames, s.slots.capture = p.capture →
        Arrived size counters (codeSize front + 17 + next_pos) p
          ⟨codeSize front + 17 + next_pos, p.cptr, counters.length, s.slots, frames⟩ :=
      fun p frames same => ⟨rfl, rfl, rfl, same, arrived.size, arrived.counters⟩
    refine .step (by rw [arrived.pc]) (by rw [arrived.pc]; omega) ?_
    unfold greedyOuts
    dsimp only
    rw [← sameCount, ← sameCptr, copyStep, act, arrived.stack_len]
    by_cases few : q < quant_min
    · rw [if_pos few, if_pos few]
      exact .fail rfl
    · rw [if_neg few, if_neg few]
      by_cases some_ : q > quant_min
      · rw [if_pos some_]
        obtain ⟨more, hmore⟩ := Nat.exists_eq_succ_of_ne_zero (Nat.sub_ne_zero_of_lt some_)
        rw [hmore, givenBack, List.map_cons]
        refine .out (there (p.moveTo cptr) _ arrived.capture)
          (List.singleton_append (x := CopyFrame.mk (.greedy_quant (more + 1)) (codeSize front + 1)
            cptr counters.length s.slots)).symm ?_
          (offers_giveBack fetched rfl (there p _ arrived.capture) more cptr)
        rintro f (_ | ⟨_, ⟨⟩⟩)
        rfl
      · rw [if_neg some_, Nat.sub_eq_zero_of_le (Nat.le_of_not_lt some_)]
        exact .out (there (p.moveTo cptr) s.frames arrived.capture) (List.nil_append _).symm
          (by rintro f ⟨⟩) (.fail rfl)

end

end PrimJs.Regexp
