import PrimJs.Regexp.Node

/-! The atoms of simple greedy quantifiers, and what the quantifier counts. -/

namespace PrimJs.Regexp

/-! ### The code after the instruction -/

/-- The atom of a simple greedy quantifier, up to its `match`. -/
structure IsSimpleAtom (atom : List REOp) (next_pos quant_min quant_max char_count : Nat) : Prop where
  size : next_pos = codeSize atom + 1
  simple : reIsSimpleQuantifier atom = some char_count
  nonempty : 0 < char_count
  some_match : 0 < quant_max
  ordered : quant_min ≤ quant_max

def GreedyAtoms : List REOp → Prop
  | [] => True
  | .simple_greedy_quant next_pos quant_min quant_max char_count :: code =>
      (∃ atom back, code = atom ++ .match :: back ∧
        IsSimpleAtom atom next_pos quant_min quant_max char_count) ∧ GreedyAtoms code
  | _ :: code => GreedyAtoms code

def REOp.isGreedy : REOp → Bool
  | .simple_greedy_quant _ _ _ _ => true
  | _ => false

theorem greedyAtoms_cons {op : REOp} (h : op.isGreedy = false) (code : List REOp) :
    GreedyAtoms (op :: code) ↔ GreedyAtoms code := by
  cases op with
  | simple_greedy_quant => cases h
  | _ => exact Iff.rfl

theorem GreedyAtoms.append {front back : List REOp} (h : GreedyAtoms front)
    (h' : GreedyAtoms back) : GreedyAtoms (front ++ back) := by
  induction front with
  | nil => exact h'
  | cons op front ih =>
      cases greedy : op.isGreedy with
      | false => exact (greedyAtoms_cons greedy _).mpr (ih ((greedyAtoms_cons greedy _).mp h))
      | true =>
          cases op with
          | simple_greedy_quant =>
              obtain ⟨⟨atom, rest, rfl, simple⟩, later⟩ := h
              exact ⟨⟨atom, rest ++ back, by simp, simple⟩, ih later⟩
          | _ => cases greedy

theorem GreedyAtoms.atom {front back : List REOp} {next_pos quant_min quant_max char_count : Nat}
    (h : GreedyAtoms (front ++ .simple_greedy_quant next_pos quant_min quant_max char_count :: back)) :
    ∃ atom back', back = atom ++ .match :: back' ∧
      IsSimpleAtom atom next_pos quant_min quant_max char_count := by
  induction front with
  | nil => exact h.1
  | cons op front ih =>
      cases greedy : op.isGreedy with
      | false => exact ih ((greedyAtoms_cons greedy _).mp h)
      | true =>
          cases op with
          | simple_greedy_quant => exact ih h.2
          | _ => cases greedy

theorem isGreedy_splitOp (greedy : Bool) (offset : Int) : (splitOp greedy offset).isGreedy = false := by
  cases greedy <;> rfl

section Quantifier

variable {atom : List REOp} (h : GreedyAtoms atom)
include h

theorem greedyAtoms_star (greedy check : Bool) : GreedyAtoms (emitStar atom greedy check) := by
  unfold emitStar
  dsimp only
  split
  · refine (greedyAtoms_cons (isGreedy_splitOp _ _) _).mpr ?_
    exact GreedyAtoms.append h trivial
  · refine (greedyAtoms_cons (isGreedy_splitOp _ _) _).mpr ?_
    exact GreedyAtoms.append h trivial

theorem greedyAtoms_upTo (greedy : Bool) (max : Nat) : GreedyAtoms (emitUpTo atom greedy max) := by
  refine (greedyAtoms_cons rfl _).mpr ((greedyAtoms_cons (isGreedy_splitOp _ _) _).mpr ?_)
  exact GreedyAtoms.append h trivial

theorem greedyAtoms_times (min : Nat) : GreedyAtoms (emitTimes atom min) := by
  unfold emitTimes
  split
  · exact h
  · exact @GreedyAtoms.append _ [.loop _, .drop] h trivial

theorem greedyAtoms_loop (quant_min quant_max : Nat) (greedy check : Bool) (last cap : Nat) :
    GreedyAtoms (emitLoop atom quant_min quant_max greedy check last cap) := by
  have reset : GreedyAtoms (if last ≠ cap then [REOp.save_reset last (cap - 1)] else []) := by
    split <;> trivial
  have option : ∀ offset, GreedyAtoms (splitOp greedy offset :: atom) :=
    fun offset => (greedyAtoms_cons (isGreedy_splitOp _ _) _).mpr h
  unfold emitLoop
  dsimp only
  generalize (if last ≠ cap then [REOp.save_reset last (cap - 1)] else []) = reset_ at reset ⊢
  split_ifs
  · exact reset
  · exact reset.append (option _)
  · exact reset.append (greedyAtoms_star h greedy check)
  · exact reset.append (greedyAtoms_upTo h greedy quant_max)
  · exact h.append ((greedyAtoms_cons (isGreedy_splitOp _ _) _).mpr trivial)
  · exact (greedyAtoms_times h quant_min).append (greedyAtoms_star h greedy check)
  · exact (greedyAtoms_times h quant_min).append (greedyAtoms_upTo h greedy _)
  · exact greedyAtoms_times h quant_min

theorem greedyAtoms_quantifier {quant_min quant_max : Nat} (ordered : quant_min ≤ quant_max)
    (greedy : Bool) (last cap : Nat) :
    GreedyAtoms (emitQuantifier atom quant_min quant_max greedy last cap) := by
  unfold emitQuantifier
  dsimp only
  by_cases some_match : (greedy && decide (quant_max > 0)) = true
  · rw [if_pos some_match]
    split
    · next positive =>
      cases simple : reIsSimpleQuantifier atom with
      | none =>
          rw [simple] at positive
          exact absurd positive (by decide)
      | some count =>
          rw [simple] at positive
          refine ⟨⟨atom, [], rfl, rfl, simple, positive, ?_, ordered⟩, GreedyAtoms.append h trivial⟩
          simp only [Bool.and_eq_true, decide_eq_true_eq] at some_match
          exact some_match.2
    · exact greedyAtoms_loop h _ _ _ _ _ _
  · rw [if_neg some_match, if_neg (by decide)]
    exact greedyAtoms_loop h _ _ _ _ _ _

end Quantifier

theorem greedyAtoms_emit (node : Node) (dir : Bool) (count : Nat) :
    GreedyAtoms (node.emit dir count) := by
  induction node generalizing dir count with
  | empty => trivial
  | charTest op char =>
      have plain : op.isGreedy = false := by
        cases op with
        | simple_greedy_quant => cases char.char
        | _ => rfl
      rw [Node.emit, emitCharTest]
      split
      · exact (greedyAtoms_cons rfl _).mpr ((greedyAtoms_cons plain _).mpr trivial)
      · exact (greedyAtoms_cons plain _).mpr trivial
  | assertion op test =>
      refine (greedyAtoms_cons ?_ _).mpr trivial
      cases op with
      | simple_greedy_quant => cases test
      | _ => rfl
  | backReference index =>
      rw [Node.emit]
      split <;> trivial
  | seq first second ih ih' =>
      rw [Node.emit]
      split
      · exact (ih' _ _).append (ih _ _)
      · exact (ih _ _).append (ih' _ _)
  | alt left right ih ih' =>
      refine @GreedyAtoms.append (.split_next_first _ :: _) _ (ih _ _) ?_
      exact (greedyAtoms_cons rfl _).mpr (ih' _ _)
  | capture body ih =>
      rw [Node.emit, captureCode]
      split
      · exact @GreedyAtoms.append (.save_end _ :: _) _ (ih _ _) trivial
      · exact @GreedyAtoms.append (.save_start _ :: _) _ (ih _ _) trivial
  | look is_neg behind body ih =>
      have inner : GreedyAtoms (body.emit behind count ++ [.match]) := (ih _ _).append trivial
      rw [Node.emit, lookaroundCode]
      split
      · exact (greedyAtoms_cons rfl _).mpr inner
      · exact (greedyAtoms_cons rfl _).mpr inner
  | quant atom quant_min quant_max bounds greedy ih =>
      exact greedyAtoms_quantifier (ih _ _) bounds.1 greedy _ _

theorem lreCompile_greedyAtoms {u : UnicodeData} {buf : Bytes} {flags : REFlags} {bc : REByteCode}
    (h : lreCompile u buf flags = .ok bc) : GreedyAtoms bc.code := by
  obtain ⟨node, hcode, -, -, -⟩ := lreCompile_emit h
  rw [hcode]
  refine GreedyAtoms.append (GreedyAtoms.append ?_ (greedyAtoms_emit _ _ _)) trivial
  split <;> trivial

/-! ### Characters -/

section

variable {x : ExecContext}

theorem getChar_bounds {cptr : Nat} (h : cptr < x.cbuf_end) :
    cptr < (getChar x cptr x.cbuf_end).2 ∧ (getChar x cptr x.cbuf_end).2 ≤ x.cbuf_end := by
  unfold getChar
  dsimp only
  split
  · next pair =>
    simp only [Bool.and_eq_true, decide_eq_true_eq] at pair
    omega
  · dsimp only
    omega

variable {atom : List REOp} {op : REOp}

theorem lreMatchCharOp_bounds {cptr cptr' : Nat} (h : lreMatchCharOp x op cptr = some cptr') :
    cptr < cptr' ∧ cptr' ≤ x.cbuf_end := by
  unfold lreMatchCharOp at h
  split at h
  · cases h
  · next inside =>
    have bounds := @getChar_bounds x cptr (by omega)
    dsimp only at h
    split at h
    · obtain rfl := Option.some.inj h
      exact bounds
    · cases h

/-! ### The atom -/

def simpleRun (x : ExecContext) : List REOp → Nat → Option Nat
  | [], cptr => some cptr
  | op :: atom, cptr =>
      match simpleTest x op cptr with
      | some (some cptr) => simpleRun x atom cptr
      | _ => none

/-- An instruction of a simple atom: it tests a character or asserts something. -/
theorem reIsSimpleQuantifier_cons {n : Nat} (h : reIsSimpleQuantifier (op :: atom) = some n) :
    (isCharOp op = true ∧ ∃ m, reIsSimpleQuantifier atom = some m ∧ n = m + 1) ∨
      (isAssertionOp op = true ∧ reIsSimpleQuantifier atom = some n) := by
  cases op with
  | char | char32 | dot | any | range | range32 =>
      obtain ⟨m, rest, rfl⟩ := Option.map_eq_some_iff.mp h
      exact .inl ⟨rfl, m, rest, rfl⟩
  | line_start | line_end | word_boundary | not_word_boundary => exact .inr ⟨rfl, h⟩
  | _ => cases h

theorem simpleTest_charOp (h : isCharOp op = true) (cptr : Nat) :
    simpleTest x op cptr = some (lreMatchCharOp x op cptr) := by
  cases op with
  | char | char32 | dot | any | range | range32 => rfl
  | _ => cases h

theorem simpleTest_assertion (h : isAssertionOp op = true) (cptr : Nat) :
    simpleTest x op cptr = some none ∨ simpleTest x op cptr = some (some cptr) := by
  cases op with
  | line_start | line_end | word_boundary | not_word_boundary =>
      simp only [simpleTest]
      split <;> simp
  | _ => cases h

/-- A match of a simple atom reads one character after the other; its assertions hold where they
stand. -/
theorem simpleRun_induction {motive : Nat → Nat → Nat → Prop} (nil : ∀ cptr, motive 0 cptr cptr)
    (char : ∀ {op m cptr cptr₁ cptr'}, lreMatchCharOp x op cptr = some cptr₁ →
      motive m cptr₁ cptr' → motive (m + 1) cptr cptr') {n cptr cptr' : Nat}
    (simple : reIsSimpleQuantifier atom = some n) (h : simpleRun x atom cptr = some cptr') :
    motive n cptr cptr' := by
  induction atom generalizing n cptr with
  | nil =>
      obtain rfl := Option.some.inj simple
      obtain rfl := Option.some.inj h
      exact nil cptr
  | cons op atom ih =>
      rw [simpleRun] at h
      obtain ⟨isChar, m, rest, rfl⟩ | ⟨assertion, rest⟩ := reIsSimpleQuantifier_cons simple
      · rw [simpleTest_charOp isChar] at h
        cases test : lreMatchCharOp x op cptr with
        | none =>
            rw [test] at h
            cases h
        | some cptr₁ =>
            rw [test] at h
            exact char test (ih rest h)
      · obtain test | test := simpleTest_assertion (x := x) assertion cptr
        · rw [test] at h
          cases h
        · rw [test] at h
          exact ih rest h

/-- A match of the atom reads its characters. -/
theorem simpleRun_bounds {n cptr cptr' : Nat} (simple : reIsSimpleQuantifier atom = some n)
    (h : simpleRun x atom cptr = some cptr') :
    cptr + n ≤ cptr' ∧ cptr' ≤ max cptr x.cbuf_end ∧ (0 < n → cptr < x.cbuf_end) := by
  refine simpleRun_induction (motive := fun n cptr cptr' => cptr + n ≤ cptr' ∧
    cptr' ≤ max cptr x.cbuf_end ∧ (0 < n → cptr < x.cbuf_end)) (fun cptr => ?_)
    (fun test later => ?_) simple h
  · exact ⟨le_refl _, le_max_left _ _, fun positive => absurd positive (lt_irrefl 0)⟩
  · obtain ⟨forward, inside⟩ := lreMatchCharOp_bounds test
    omega

/-- `lre_exec_backtrack` with `no_recurse` runs the atom. -/
theorem execAtom_eq {front back : List REOp} {n : Nat}
    (code : x.code = front ++ atom ++ .match :: back)
    (simple : reIsSimpleQuantifier atom = some n) (fuel cptr : Nat)
    (enough : codeSize atom < fuel) :
    execAtom x fuel (codeSize front) cptr = some (simpleRun x atom cptr) := by
  induction atom generalizing front n fuel cptr with
  | nil =>
      obtain ⟨fuel, rfl⟩ := Nat.exists_eq_succ_of_ne_zero (Nat.ne_of_gt (Nat.zero_lt_of_lt enough))
      have fetched : fetch x.code (codeSize front) = some .match := by
        rw [code, List.append_nil]
        exact fetch_middle front back .match
      rw [execAtom, fetched]
      rfl
  | cons op atom ih =>
      obtain ⟨fuel, rfl⟩ := Nat.exists_eq_succ_of_ne_zero (Nat.ne_of_gt (Nat.zero_lt_of_lt enough))
      have fetched : fetch x.code (codeSize front) = some op := by
        rw [code, List.append_assoc]
        exact fetch_middle front _ op
      have next : ∀ m, reIsSimpleQuantifier atom = some m → ∀ cptr,
          execAtom x fuel (codeSize front + op.size) cptr = some (simpleRun x atom cptr) := by
        intro m rest cptr
        have := op.size_pos
        have run := @ih (front ++ [op]) _ (by rw [code]; simp) rest fuel cptr (by
          rw [codeSize_cons] at enough
          omega)
        simpa using run
      have goOn : ∀ test, simpleTest x op cptr = some test → op ≠ .match →
          (∃ m, reIsSimpleQuantifier atom = some m) →
          execAtom x (fuel + 1) (codeSize front) cptr = some (simpleRun x (op :: atom) cptr) := by
        rintro test htest hmatch ⟨m, rest⟩
        rw [execAtom, fetched, simpleRun, htest]
        cases op with
        | «match» => exact absurd rfl hmatch
        | _ =>
            dsimp only
            rw [htest]
            cases test with
            | none => rfl
            | some cptr => exact next m rest cptr
      obtain ⟨char, m, rest, -⟩ | ⟨assertion, rest⟩ := reIsSimpleQuantifier_cons simple
      · exact goOn _ (simpleTest_charOp char cptr) (by rintro rfl; cases char) ⟨m, rest⟩
      · obtain test | test := simpleTest_assertion (x := x) assertion cptr
        · exact goOn _ test (by rintro rfl; cases assertion) ⟨n, rest⟩
        · exact goOn _ test (by rintro rfl; cases assertion) ⟨n, rest⟩

/-! ### The count -/

/-- `count` matches of the atom in a row, to `cptr'`. -/
inductive SimpleMatches (x : ExecContext) (atom : List REOp) : Nat → Nat → Nat → Prop where
  | none (cptr : Nat) : SimpleMatches x atom cptr 0 cptr
  | more {cptr cptr₁ cptr' count : Nat} : simpleRun x atom cptr = some cptr₁ →
      SimpleMatches x atom cptr₁ count cptr' → SimpleMatches x atom cptr (count + 1) cptr'

/-- As many matches as there are, up to the maximum. -/
structure Greedy (x : ExecContext) (atom : List REOp) (quant_max cptr count cptr' : Nat) : Prop where
  matches_ : SimpleMatches x atom cptr count cptr'
  bounded : quant_max ≠ INT32_MAX → count ≤ quant_max
  last : count = quant_max ∧ quant_max ≠ INT32_MAX ∨ simpleRun x atom cptr' = none

theorem SimpleMatches.snoc {cptr count cptr₁ cptr' : Nat}
    (h : SimpleMatches x atom cptr count cptr₁) (last : simpleRun x atom cptr₁ = some cptr') :
    SimpleMatches x atom cptr (count + 1) cptr' := by
  induction h with
  | none => exact .more last (.none _)
  | more first _ ih => exact .more first (ih last)

/-- The loop with the nested run. -/
theorem simpleGreedyLoop_spec {front back : List REOp} {n quant_max start : Nat}
    (code : x.code = front ++ atom ++ .match :: back)
    (simple : reIsSimpleQuantifier atom = some n) (nonempty : 0 < n) (fuel q cptr : Nat)
    (positive : 0 < fuel) (enough : x.cbuf_end < cptr + fuel)
    (done : SimpleMatches x atom start q cptr) (below : q < quant_max ∨ quant_max = INT32_MAX) :
    ∃ count cptr', simpleGreedyLoop x (codeSize front) quant_max fuel q cptr = some (count, cptr') ∧
      Greedy x atom quant_max start count cptr' := by
  induction fuel generalizing q cptr with
  | zero => exact absurd positive (lt_irrefl 0)
  | succ fuel ih =>
      have size : codeSize atom < codeSize x.code + 1 := by
        rw [code, codeSize_append, codeSize_append]
        omega
      rw [simpleGreedyLoop, execAtom_eq code simple _ _ size]
      cases run : simpleRun x atom cptr with
      | none => exact ⟨q, cptr, rfl, done, fun _ => by omega, .inr run⟩
      | some cptr₁ =>
          obtain ⟨forward, inside, within⟩ := simpleRun_bounds simple run
          have inside := within nonempty
          dsimp only
          split
          · next stop =>
            simp only [Bool.and_eq_true, decide_eq_true_eq, ne_eq] at stop
            exact ⟨q + 1, cptr₁, rfl, done.snoc run, fun _ => by omega, .inl ⟨by omega, stop.2⟩⟩
          · next goOn =>
            simp only [Bool.and_eq_true, decide_eq_true_eq, ne_eq, not_and, not_not] at goOn
            exact ih (q + 1) cptr₁ (by omega) (by omega) (done.snoc run) (by omega)

/-- The loop in place. -/
theorem simpleCharLoop_spec {quant_max start : Nat} (char : isCharOp op = true)
    (fuel q cptr : Nat) (positive : 0 < fuel) (enough : x.cbuf_end < cptr + fuel)
    (done : SimpleMatches x [op] start q cptr) (below : quant_max ≠ INT32_MAX → q ≤ quant_max) :
    ∃ count cptr', simpleCharLoop x op quant_max fuel q cptr = some (count, cptr') ∧
      Greedy x [op] quant_max start count cptr' := by
  have single : ∀ cptr, simpleRun x [op] cptr = lreMatchCharOp x op cptr := by
    intro cptr
    rw [simpleRun, simpleTest_charOp char]
    cases lreMatchCharOp x op cptr <;> rfl
  induction fuel generalizing q cptr with
  | zero => exact absurd positive (lt_irrefl 0)
  | succ fuel ih =>
      rw [simpleCharLoop]
      split
      · next goOn =>
        simp only [Bool.or_eq_true, decide_eq_true_eq] at goOn
        cases test : lreMatchCharOp x op cptr with
        | none => exact ⟨q, cptr, rfl, done, below, .inr ((single cptr).trans test)⟩
        | some cptr₁ =>
            obtain ⟨forward, inside⟩ := lreMatchCharOp_bounds test
            exact ih (q + 1) cptr₁ (by omega) (by omega) (done.snoc ((single cptr).trans test))
              (by omega)
      · next stop =>
        simp only [Bool.or_eq_true, decide_eq_true_eq, not_or] at stop
        have := below stop.2
        exact ⟨q, cptr, rfl, done, below, .inl ⟨by omega, stop.2⟩⟩

/-- What the instruction counts. -/
theorem simpleGreedyCount_spec {front back : List REOp}
    {next_pos quant_min quant_max char_count : Nat}
    (code : x.code = front ++ atom ++ .match :: back)
    (simple : IsSimpleAtom atom next_pos quant_min quant_max char_count) (cptr : Nat) :
    ∃ count cptr', simpleGreedyCount x (codeSize front) next_pos quant_max cptr =
        some (count, cptr') ∧ Greedy x atom quant_max cptr count cptr' := by
  obtain ⟨op, rest, rfl⟩ : ∃ op rest, atom = op :: rest := by
    cases atom with
    | nil =>
        obtain rfl := Option.some.inj simple.simple
        exact absurd simple.nonempty (lt_irrefl 0)
    | cons op rest => exact ⟨op, rest, rfl⟩
  have fetched : fetch x.code (codeSize front) = some op := by
    rw [code, List.append_assoc]
    exact fetch_middle front _ op
  have some_match := simple.some_match
  rw [simpleGreedyCount, fetched]
  dsimp only
  split
  · next inPlace =>
    simp only [Bool.and_eq_true, decide_eq_true_eq, simple.size, codeSize_cons] at inPlace
    have alone : rest = [] := by
      cases rest with
      | nil => rfl
      | cons op' rest =>
          have := op'.size_pos
          rw [codeSize_cons] at inPlace
          omega
    rw [alone]
    exact simpleCharLoop_spec inPlace.1 _ 0 cptr (Nat.succ_pos _) (by omega) (.none cptr)
      (fun _ => Nat.zero_le _)
  · exact simpleGreedyLoop_spec code simple.simple simple.nonempty _ 0 cptr (Nat.succ_pos _)
      (by omega) (.none cptr) (.inl some_match)

end

end PrimJs.Regexp
