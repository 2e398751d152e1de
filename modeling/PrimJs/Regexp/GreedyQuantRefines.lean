import PrimJs.Regexp.GreedyQuant
import PrimJs.Regexp.LreExec

/-! `REOP_simple_greedy_quant` and the general code of the same quantifier. -/

namespace PrimJs.Regexp

variable {x : ExecContext} {atom : List REOp} {n : Nat}

/-! ### The general code -/

def simpleOuts (x : ExecContext) (atom : List REOp) (p : Point) : List Point :=
  ((simpleRun x atom p.cptr).map p.moveTo).toList

/-- The position after `count` matches. -/
def reach (x : ExecContext) (atom : List REOp) : (count cptr : Nat) → Option Nat
  | 0, cptr => some cptr
  | count + 1, cptr => (simpleRun x atom cptr).bind (reach x atom count)

/-- The positions after up to `count` matches, the last one first. -/
def descend (x : ExecContext) (atom : List REOp) : (count cptr : Nat) → List Nat
  | 0, cptr => [cptr]
  | count + 1, cptr => (simpleRun x atom cptr).toList.flatMap (descend x atom count) ++ [cptr]

theorem times_simpleOuts (count : Nat) (p : Point) :
    timesOuts (simpleOuts x atom) count p = ((reach x atom count p.cptr).map p.moveTo).toList := by
  induction count generalizing p with
  | zero => rfl
  | succ count ih =>
      rw [timesOuts, reach, simpleOuts]
      cases simpleRun x atom p.cptr with
      | none => rfl
      | some cptr =>
          simp only [Option.map_some, Option.toList_some, List.flatMap_singleton, Option.bind_some]
          exact ih _

theorem prefer_simple (count : Nat) (p : Point) :
    prefer true ((simpleOuts x atom p).flatMap fun q => (descend x atom count q.cptr).map q.moveTo) p =
      (descend x atom (count + 1) p.cptr).map p.moveTo := by
  rw [prefer, if_pos rfl, descend, simpleOuts]
  cases simpleRun x atom p.cptr with
  | none => rfl
  | some cptr =>
      simp only [Option.map_some, Option.toList_some, List.flatMap_singleton, List.map_append,
        List.map_cons, List.map_nil]
      rfl

theorem upTo_simpleOuts (count : Nat) (p : Point) :
    upToOuts true (simpleOuts x atom) count p = (descend x atom count p.cptr).map p.moveTo := by
  induction count generalizing p with
  | zero => rfl
  | succ count ih =>
      rw [upToOuts, funext ih]
      exact prefer_simple count p

theorem star_simpleOuts (count : Nat) (p : Point) :
    starOuts true false (simpleOuts x atom) (count + 1) p =
      (descend x atom count p.cptr).map p.moveTo := by
  induction count generalizing p with
  | zero =>
      have none_ : ((simpleOuts x atom p).flatMap fun q =>
          if false = true ∧ q.cptr = p.cptr then [q]
          else starOuts true false (simpleOuts x atom) 0 q) = [] :=
        List.flatMap_eq_nil_iff.mpr fun _ _ => rfl
      rw [starOuts, none_]
      rfl
  | succ count ih =>
      rw [starOuts]
      simp only [Bool.false_eq_true, false_and, if_false, funext ih]
      exact prefer_simple count p

/-! ### The positions of both -/

section

variable {cptr cptr' count : Nat}

theorem SimpleMatches.reach (h : SimpleMatches x atom cptr count cptr') :
    reach x atom count cptr = some cptr' := by
  induction h with
  | none => rfl
  | more first _ ih =>
      rw [Regexp.reach, first]
      exact ih

theorem simpleMatches_of_reach (h : reach x atom count cptr = some cptr') :
    SimpleMatches x atom cptr count cptr' := by
  induction count generalizing cptr with
  | zero =>
      obtain rfl := Option.some.inj h
      exact .none cptr
  | succ count ih =>
      obtain ⟨cptr₁, first, rest⟩ := Option.bind_eq_some_iff.mp h
      exact .more first (ih rest)

/-- The matches split at any number of them. -/
theorem SimpleMatches.split {count' : Nat} (h : SimpleMatches x atom cptr (count + count') cptr') :
    ∃ cptr₁, SimpleMatches x atom cptr count cptr₁ ∧ SimpleMatches x atom cptr₁ count' cptr' := by
  induction count generalizing cptr with
  | zero => exact ⟨cptr, .none cptr, by rwa [Nat.zero_add] at h⟩
  | succ count ih =>
      rw [Nat.succ_add] at h
      cases h with
      | more first rest =>
          obtain ⟨cptr₁, done, later⟩ := ih rest
          exact ⟨cptr₁, .more first done, later⟩

/-- With the matches at an end, a larger bound changes nothing. -/
theorem SimpleMatches.descend_eq {bound : Nat} (h : SimpleMatches x atom cptr count cptr')
    (last : count = bound ∨ count ≤ bound ∧ simpleRun x atom cptr' = Option.none) :
    descend x atom bound cptr = descend x atom count cptr := by
  induction h generalizing bound with
  | none =>
      obtain rfl | ⟨-, stop⟩ := last
      · rfl
      · cases bound with
        | zero => rfl
        | succ bound => simp [descend, stop]
  | more first _ ih =>
      cases bound with
      | zero => exact absurd (last.elim Nat.le_of_eq And.left) (Nat.not_succ_le_zero _)
      | succ bound =>
          rw [descend, descend, first]
          simp only [Option.toList_some, List.flatMap_singleton]
          rw [ih (last.imp Nat.succ.inj fun stop => ⟨Nat.le_of_succ_le_succ stop.1, stop.2⟩)]

/-- One match more comes first. -/
theorem SimpleMatches.descend_succ {cptr₁ : Nat} (h : SimpleMatches x atom cptr count cptr₁)
    (last : simpleRun x atom cptr₁ = some cptr') :
    descend x atom (count + 1) cptr = cptr' :: descend x atom count cptr := by
  induction h with
  | none => simp [descend, last]
  | more first _ ih =>
      rw [descend, first]
      simp only [Option.toList_some, List.flatMap_singleton]
      rw [ih last, descend, first]
      simp

end

theorem descend_getLast (count cptr : Nat) : (descend x atom count cptr).getLast? = some cptr := by
  cases count with
  | zero => rfl
  | succ count => rw [descend, List.getLast?_concat]

section

variable {cptr cptr' count : Nat} (simple : reIsSimpleQuantifier atom = some n) (nonempty : 0 < n)

include simple nonempty

/-- Not in the middle of a pair, unless nothing was read. -/
theorem SimpleMatches.notMid (h : SimpleMatches x atom cptr (count + 1) cptr') :
    midPair x cptr' = false := by
  obtain ⟨cptr₁, -, last⟩ := h.split
  obtain _ | ⟨final, none_⟩ := last
  cases none_
  obtain ⟨-, wrong⟩ | notMid := midPair_simpleRun simple final
  · omega
  · exact notMid

/-- Stepping back gives the positions of the matches, except for a start in the middle of a pair. -/
theorem SimpleMatches.givenBack (h : SimpleMatches x atom cptr count cptr') :
    givenBack x n count cptr' = descend x atom count cptr ↔
      ¬(0 < count ∧ midPair x cptr = true) := by
  have last : ∀ {count cptr'}, SimpleMatches x atom cptr count cptr' →
      (Regexp.givenBack x n count cptr').getLast? =
        some (if 0 < count ∧ midPair x cptr = true then cptr - 1 else cptr) ∧
      (¬(0 < count ∧ midPair x cptr = true) →
        Regexp.givenBack x n count cptr' = descend x atom count cptr) := by
    intro count
    induction count with
    | zero =>
        intro cptr' h
        cases h
        exact ⟨rfl, fun _ => rfl⟩
    | succ count ih =>
        intro cptr' h
        obtain ⟨cptr₁, done, later⟩ := h.split
        obtain _ | ⟨final, none_⟩ := later
        cases none_
        have back := giveBack_simpleRun simple final
        rw [Regexp.givenBack]
        cases count with
        | zero =>
            cases done
            rw [back]
            refine ⟨by simp [Regexp.givenBack, nonempty], fun notMid => ?_⟩
            rw [if_neg (by simpa [nonempty] using notMid), (SimpleMatches.none cptr).descend_succ final]
            rfl
        | succ count =>
            rw [done.notMid simple nonempty, if_neg (by simp)] at back
            obtain ⟨lastBack, same⟩ := ih done
            rw [back]
            refine ⟨?_, fun start => ?_⟩
            · rw [List.getLast?_cons, lastBack]
              simp
            · rw [same (fun both => start ⟨Nat.succ_pos _, both.2⟩), done.descend_succ final]
  obtain ⟨lastBack, same⟩ := last h
  refine ⟨fun equal both => ?_, same⟩
  rw [equal, descend_getLast, if_pos both] at lastBack
  have positive : 0 < cptr := by
    have mid := both.2
    simp only [midPair, Bool.and_eq_true, decide_eq_true_eq] at mid
    exact mid.1.1.2
  have := Option.some.inj lastBack
  omega

theorem SimpleMatches.count_le (h : SimpleMatches x atom cptr count cptr') :
    count ≤ x.cbuf_end := by
  have within : cptr + count ≤ max cptr x.cbuf_end := by
    induction h with
    | none => exact le_max_left _ _
    | more first _ ih =>
        have bounds := simpleRun_bounds simple first
        have := bounds.2.2 nonempty
        omega
  omega

end

theorem loopOuts_simple (bound quant_min quant_max capture_count : Nat) (p : Point) :
    loopOuts true false (simpleOuts x atom) (bound + 1) quant_min quant_max capture_count
        capture_count p =
      (reach x atom quant_min p.cptr).toList.flatMap fun cptr =>
        (descend x atom (if quant_max = INT32_MAX then bound else quant_max - quant_min) cptr).map
          p.moveTo := by
  have more : moreOuts true false (simpleOuts x atom) (bound + 1) quant_min quant_max = fun q =>
      (descend x atom (if quant_max = INT32_MAX then bound else quant_max - quant_min) q.cptr).map
        q.moveTo := by
    funext q
    unfold moreOuts
    split
    · exact star_simpleOuts bound q
    · exact upTo_simpleOuts _ q
  have start : (if quant_min = 0 then resetOuts capture_count capture_count p else p) = p := by
    simp [resetOuts]
  rw [loopOuts, start, times_simpleOuts, more]
  cases reach x atom quant_min p.cptr with
  | none => rfl
  | some cptr =>
      simp only [Option.map_some, Option.toList_some, List.flatMap_singleton]
      rfl

/-- The shortcut offers what the general code does, except where it steps back into a pair. -/
theorem greedyOuts_eq_iff (simple : reIsSimpleQuantifier atom = some n) (nonempty : 0 < n)
    {bound quant_min quant_max : Nat} (ordered : quant_min ≤ quant_max) (some_match : 0 < quant_max)
    (enough : x.cbuf_end ≤ bound) (capture_count : Nat) (p : Point) :
    greedyOuts x atom quant_min quant_max n p =
        loopOuts true false (simpleOuts x atom) (bound + 1) quant_min quant_max capture_count
          capture_count p ↔
      ¬(midPair x p.cptr = true ∧ quant_min = 0 ∧ simpleRun x atom p.cptr ≠ none) := by
  rw [loopOuts_simple]
  have greedy := greedy_simpleCount (x := x) simple nonempty quant_max p.cptr
  unfold greedyOuts
  generalize simpleCount x atom quant_max (x.cbuf_end + 1) 0 p.cptr = counted at greedy ⊢
  obtain ⟨q, cptr⟩ := counted
  dsimp only at greedy ⊢
  by_cases few : q < quant_min
  · have none_ : reach x atom quant_min p.cptr = none := by
      cases reached : reach x atom quant_min p.cptr with
      | none => rfl
      | some cptr' =>
          obtain ⟨cptr'', some_⟩ := greedy.matches_.next (simpleMatches_of_reach reached) few
          obtain ⟨full, -⟩ | none_ := greedy.last
          · omega
          · rw [none_] at some_
            cases some_
    rw [if_pos few, none_]
    refine ⟨fun _ both => ?_, fun _ => rfl⟩
    omega
  · rw [if_neg few]
    obtain ⟨more, rfl⟩ := Nat.exists_eq_add_of_le (Nat.le_of_not_lt few)
    obtain ⟨cptr₁, done, later⟩ := greedy.matches_.split
    have count := later.count_le simple nonempty
    have ends : descend x atom (if quant_max = INT32_MAX then bound else quant_max - quant_min) cptr₁ =
        descend x atom more cptr₁ := by
      refine later.descend_eq ?_
      obtain ⟨full, bounded⟩ | stop := greedy.last
      · rw [if_neg bounded]
        exact .inl (by omega)
      · refine .inr ⟨?_, stop⟩
        split
        · omega
        · next bounded =>
          have := greedy.bounded bounded
          omega
    rw [done.reach, Nat.add_sub_cancel_left]
    simp only [Option.toList_some, List.flatMap_singleton]
    rw [ends, List.map_inj_right fun c c' same => congrArg Point.cptr same,
      later.givenBack simple nonempty]
    refine not_congr ?_
    cases quant_min with
    | succ quant_min =>
        rw [done.notMid simple nonempty]
        simp
    | zero =>
        cases done
        have some_ : 0 < more ↔ simpleRun x atom p.cptr ≠ none := by
          constructor
          · intro positive
            cases later with
            | none => exact absurd positive (lt_irrefl 0)
            | more first _ =>
                rw [first]
                exact Option.some_ne_none _
          · intro some_
            refine Nat.pos_of_ne_zero fun zero => ?_
            subst zero
            obtain ⟨full, -⟩ | stop := greedy.last
            · omega
            · cases later
              exact some_ stop
        rw [some_, and_comm]
        simp

/-! ### The code of the atom -/

section

variable {base : Slots} {size : Nat}

theorem Piece.charOp {Valid : Point → Prop} {op : REOp} (char : isCharOp op = true)
    (moves : ∀ (p : Point) cptr, Valid p → lreMatchCharOp x op p.cptr = some cptr →
      Valid (p.moveTo cptr)) :
    Piece x base size Valid [op] fun p => ((lreMatchCharOp x op p.cptr).map p.moveTo).toList where
  keeps := by
    intro p valid q member
    cases test : lreMatchCharOp x op p.cptr with
    | none =>
        rw [test] at member
        cases member
    | some cptr =>
        rw [test] at member
        obtain rfl := List.mem_singleton.mp member
        exact moves p cptr valid test
  runs := by
    intro pc at_ counters p _ _
    simpa using @runs_charOp x base size pc counters p op char at_.fetch

theorem Piece.assertion {Valid : Point → Prop} {op : REOp} (assertion : isAssertionOp op = true) :
    Piece x base size Valid [op] fun p => if assertionTest x op p.cptr then [p] else [] where
  keeps := by
    intro p valid q member
    split at member
    · obtain rfl := List.mem_singleton.mp member
      exact valid
    · cases member
  runs := by
    intro pc at_ counters p _ _
    simpa using @runs_assertion x base size pc counters p op assertion at_.fetch

theorem simpleTest_assertionTest {op : REOp} (assertion : isAssertionOp op = true) (cptr : Nat) :
    simpleTest x op cptr = some (if assertionTest x op cptr then some cptr else none) := by
  cases op with
  | line_start | line_end | word_boundary => rfl
  | not_word_boundary =>
      dsimp only [simpleTest, assertionTest]
      by_cases boundary : wordBoundaryTest x cptr = true <;> simp [boundary]
  | _ => cases assertion

section

variable (simple : reIsSimpleQuantifier atom = some n)

include simple

/-- A simple atom leaves the counters alone. -/
theorem counters_simple : (∀ op ∈ atom, op.effect = 0) ∧ depth atom = 0 ∧ peak atom = 0 := by
  induction atom generalizing n with
  | nil => exact ⟨by rintro op ⟨⟩, rfl, rfl⟩
  | cons op atom ih =>
      have effect : op.effect = 0 := by
        obtain ⟨char, -⟩ | ⟨assertion, -⟩ := reIsSimpleQuantifier_cons simple
        · cases op <;> first | rfl | cases char
        · cases op <;> first | rfl | cases assertion
      obtain ⟨m, rest⟩ : ∃ m, reIsSimpleQuantifier atom = some m := by
        obtain ⟨-, m, rest, -⟩ | ⟨-, rest⟩ := reIsSimpleQuantifier_cons simple
        · exact ⟨m, rest⟩
        · exact ⟨n, rest⟩
      obtain ⟨effects, level, top⟩ := ih rest
      refine ⟨fun op' member => ?_, by rw [depth_cons, effect, level]; rfl,
        by rw [peak, effect, top]; rfl⟩
      obtain rfl | later := List.mem_cons.mp member
      · exact effect
      · exact effects op' later

/-- The atom of a simple quantifier, as it stands in the general code. -/
theorem Piece.simpleAtom : Piece x base size (fun _ => True) atom (simpleOuts x atom) := by
  induction atom generalizing n with
  | nil => exact .empty x base size _
  | cons op atom ih =>
      have level : depth [op] = 0 := by
        rw [depth_cons, (counters_simple simple).1 op List.mem_cons_self]
        rfl
      obtain ⟨char, m, rest, -⟩ | ⟨assertion, rest⟩ := reIsSimpleQuantifier_cons simple
      · have outs : simpleOuts x (op :: atom) = fun p =>
            ((lreMatchCharOp x op p.cptr).map p.moveTo).toList.flatMap (simpleOuts x atom) := by
          funext p
          rw [simpleOuts, simpleRun, simpleTest_charOp char]
          cases lreMatchCharOp x op p.cptr with
          | none => rfl
          | some cptr =>
              simp only [Option.map_some, Option.toList_some, List.flatMap_singleton]
              rfl
        rw [outs]
        exact Piece.append (.charOp char fun _ _ _ _ => trivial) level (ih rest)
      · have outs : simpleOuts x (op :: atom) = fun p =>
            (if assertionTest x op p.cptr then [p] else []).flatMap (simpleOuts x atom) := by
          funext p
          rw [simpleOuts, simpleRun, simpleTest_assertionTest assertion]
          split
          · next test =>
            split at test
            · next holds =>
              obtain rfl := Option.some.inj (Option.some.inj test)
              rw [if_pos holds, List.flatMap_singleton]
              rfl
            · cases test
          · next test =>
            split at test
            · exact absurd rfl (test _)
            · next fails =>
              rw [if_neg fails]
              rfl
        rw [outs]
        exact Piece.append (.assertion assertion) level (ih rest)

theorem reCheckAdvance_simple (nonempty : 0 < n) : reCheckAdvance atom = 1 := by
  have loop : ∀ {atom : List REOp} {n : Nat} {ret : Option Bool}, reIsSimpleQuantifier atom = some n →
      ret ≠ some false → reCheckAdvanceLoop atom ret [] [] =
        (if 0 < n then some true else ret, [], []) := by
    intro atom
    induction atom with
    | nil =>
        intro n ret simple _
        obtain rfl := Option.some.inj simple
        rfl
    | cons op atom ih =>
        intro n ret simple known
        obtain ⟨char, m, rest, rfl⟩ | ⟨assertion, rest⟩ := reIsSimpleQuantifier_cons simple
        · have some_ : some (ret.getD true) = some true := by
            cases ret with
            | none => rfl
            | some value => cases value <;> first | rfl | exact absurd rfl known
          have step := @ih m (some true) rest (by decide)
          cases op <;> first
            | (cases char; done)
            | (rw [reCheckAdvanceLoop, some_, step]; simp)
        · have step := ih rest known
          cases op <;> first
            | (cases assertion; done)
            | (rw [reCheckAdvanceLoop, step])
  rw [reCheckAdvance, loop simple (by decide), if_pos nonempty]
  rfl

theorem peak_loop_simple (quant_min quant_max capture_count : Nat) :
    peak (emitLoop atom quant_min quant_max true false capture_count capture_count) ≤ 1 := by
  obtain ⟨-, level, top⟩ := counters_simple simple
  unfold emitLoop emitTimes emitStar emitUpTo
  split_ifs <;> simp_all [peak_append, peak]

theorem decreases_simple (nonempty : 0 < n) :
    Decreases (fun _ => True) false (fun p => x.cbuf_end - p.cptr) (simpleOuts x atom) := by
  intro p _ q member
  rw [simpleOuts] at member
  cases run : simpleRun x atom p.cptr with
  | none =>
      rw [run] at member
      cases member
  | some cptr =>
      rw [run] at member
      obtain rfl := List.mem_singleton.mp member
      obtain ⟨forward, inside, within⟩ := simpleRun_bounds simple run
      have := within nonempty
      refine .inr ?_
      dsimp only [Point.moveTo]
      omega

end

end

/-! ### The positions that the machine visits -/

/-- The positions at which the machine gets to `exit`, when what follows fails each time. -/
inductive Visits (x : ExecContext) (base : Slots) (exit : Nat) :
    Except ExecResult CopyState → List Nat → Prop where
  | exhausted (m : Slots) : Visits x base exit (.error (.noMatch m)) []
  | step {s : CopyState} {positions : List Nat} : s.pc ≠ exit →
      Visits x base exit (copyStep x base s) positions → Visits x base exit (.ok s) positions
  | leave {s : CopyState} {positions : List Nat} : s.pc = exit →
      Visits x base exit (backtrack x base s.frames) positions →
      Visits x base exit (.ok s) (s.cptr :: positions)

theorem Visits.functional {base : Slots} {exit : Nat} {turn : Except ExecResult CopyState}
    {positions positions' : List Nat} (h : Visits x base exit turn positions)
    (h' : Visits x base exit turn positions') : positions = positions' := by
  induction h generalizing positions' with
  | exhausted =>
      cases h'
      rfl
  | step inside _ ih =>
      cases h' with
      | step _ later => exact ih later
      | leave out _ => exact absurd out inside
  | leave out _ ih =>
      cases h' with
      | step inside _ => exact absurd out inside
      | leave _ later => rw [ih later]

def visitsFor (x : ExecContext) (base : Slots) (exit : Nat) :
    (fuel : Nat) → Except ExecResult CopyState → Option (List Nat)
  | 0, _ => none
  | _ + 1, .error (.noMatch _) => some []
  | _ + 1, .error _ => none
  | fuel + 1, .ok s =>
      if s.pc = exit then (visitsFor x base exit fuel (backtrack x base s.frames)).map (s.cptr :: ·)
      else visitsFor x base exit fuel (copyStep x base s)

theorem visits_of_visitsFor {base : Slots} {exit fuel : Nat} {turn : Except ExecResult CopyState}
    {positions : List Nat} (h : visitsFor x base exit fuel turn = some positions) :
    Visits x base exit turn positions := by
  induction fuel generalizing turn positions with
  | zero => cases h
  | succ fuel ih =>
      cases turn with
      | error result =>
          cases result with
          | noMatch m =>
              obtain rfl := Option.some.inj h
              exact .exhausted m
          | _ => cases h
      | ok s =>
          rw [visitsFor] at h
          split at h
          · next out =>
            obtain ⟨rest, later, rfl⟩ := Option.map_eq_some_iff.mp h
            exact .leave out (ih later)
          · next inside => exact .step inside (ih h)

/-- Without frames below, the points offered are those visited. -/
theorem Offers.visits {base : Slots} {size entry exit : Nat} {counters : List Word}
    {turn : Except ExecResult CopyState} {outs : List Point}
    (h : Offers x base size entry exit counters [] turn outs) :
    Visits x base exit turn (outs.map Point.cptr) := by
  induction h with
  | fail back =>
      rw [back]
      exact .exhausted base
  | step _ high _ ih => exact .step (Nat.ne_of_lt high) ih
  | out arrived _ _ _ ih =>
      rw [List.map_cons, ← arrived.cptr]
      exact .leave arrived.pc ih

/-- The input and the flags of `x`, with other code. -/
def ExecContext.withCode (x : ExecContext) (code : List REOp) : ExecContext := { x with code := code }

theorem simpleRun_withCode (x : ExecContext) (code atom : List REOp) (cptr : Nat) :
    simpleRun (x.withCode code) atom cptr = simpleRun x atom cptr := by
  induction atom generalizing cptr with
  | nil => rfl
  | cons op atom ih =>
      have test : simpleTest (x.withCode code) op cptr = simpleTest x op cptr := by
        cases op <;> rfl
      rw [simpleRun, simpleRun, test]
      split
      · exact ih _
      · rfl

theorem Piece.visits {base : Slots} {size : Nat} {code : List REOp} {f : Point → List Point}
    (h : Piece x base size (fun _ => True) code f) {front back : List REOp}
    (at_ : x.code = front ++ code ++ back) {m : Slots} {len : Nat} (cptr : Nat)
    (size_ : m.stack.length = size) (room : len + peak code ≤ size) :
    Visits x base (codeSize front + codeSize code) (.ok ⟨codeSize front, cptr, len, m, []⟩)
      ((f ⟨cptr, m.capture⟩).map Point.cptr) := by
  have nonneg := peak_nonneg code
  have below : (m.stack.take len).length = len := by
    rw [List.length_take]
    omega
  refine (h.runs _ ⟨front, back, at_, rfl⟩ (m.stack.take len) ⟨cptr, m.capture⟩ trivial
    (by rw [below]; exact room) ⟨codeSize front, cptr, len, m, []⟩ ?_).visits
  exact ⟨rfl, rfl, below.symm, rfl, size_, List.take_prefix len m.stack⟩

/-- Points with the same captures are told apart by their positions. -/
theorem map_cptr_inj {outs outs' : List Point} {capture : List Word}
    (h : ∀ q ∈ outs, q.capture = capture) (h' : ∀ q ∈ outs', q.capture = capture) :
    outs.map Point.cptr = outs'.map Point.cptr ↔ outs = outs' := by
  refine ⟨fun same => ?_, fun same => by rw [same]⟩
  have back : ∀ outs : List Point, (∀ q ∈ outs, q.capture = capture) →
      outs = (outs.map Point.cptr).map fun cptr => ⟨cptr, capture⟩ := by
    intro outs all
    rw [List.map_map]
    refine (List.map_id outs).symm.trans (List.map_congr_left fun q member => ?_)
    obtain ⟨cptr, capture'⟩ := q
    obtain rfl := all _ member
    rfl
  rw [back _ h, same, ← back _ h']

theorem greedyOuts_capture (quant_min quant_max : Nat) (p : Point) :
    ∀ q ∈ greedyOuts x atom quant_min quant_max n p, q.capture = p.capture := by
  intro q member
  unfold greedyOuts at member
  dsimp only at member
  split at member
  · cases member
  · obtain ⟨cptr, -, rfl⟩ := List.mem_map.mp member
    rfl

theorem loopOuts_capture (bound quant_min quant_max capture_count : Nat) (p : Point) :
    ∀ q ∈ loopOuts true false (simpleOuts x atom) (bound + 1) quant_min quant_max capture_count
      capture_count p, q.capture = p.capture := by
  intro q member
  rw [loopOuts_simple] at member
  obtain ⟨cptr, -, later⟩ := List.mem_flatMap.mp member
  obtain ⟨cptr', -, rfl⟩ := List.mem_map.mp later
  rfl

/-- The shortcut and the general code of the same quantifier visit the same positions, unless the
shortcut steps back from the first match into the pair in whose middle it started. -/
theorem greedyQuant_visits_iff (x : ExecContext) (simple : reIsSimpleQuantifier atom = some n)
    (nonempty : 0 < n) {quant_min quant_max : Nat}
    (bounds : quant_min ≤ quant_max ∧ quant_max ≤ INT32_MAX) (some_match : 0 < quant_max)
    (front back front' back' : List REOp) (capture_count : Nat) (base m : Slots) {len : Nat}
    (room : len < m.stack.length) (cindex : Nat) :
    let shortcut := emitQuantifier atom quant_min quant_max true capture_count capture_count
    let general := emitLoop atom quant_min quant_max true (reCheckAdvance atom = 0) capture_count
      capture_count
    let ShortcutVisits := Visits (x.withCode (front ++ shortcut ++ back)) base
      (codeSize front + codeSize shortcut) (.ok ⟨codeSize front, cindex, len, m, []⟩)
    let GeneralVisits := Visits (x.withCode (front' ++ general ++ back')) base
      (codeSize front' + codeSize general) (.ok ⟨codeSize front', cindex, len, m, []⟩)
    (∃ positions, ShortcutVisits positions) ∧ (∃ positions, GeneralVisits positions) ∧
      ((∀ positions, ShortcutVisits positions ↔ GeneralVisits positions) ↔
        ¬(midPair x cindex = true ∧ quant_min = 0 ∧ simpleRun x atom cindex ≠ none)) := by
  have advance := reCheckAdvance_simple simple nonempty
  have shortcutCode : emitQuantifier atom quant_min quant_max true capture_count capture_count =
      .simple_greedy_quant (codeSize atom + 1) quant_min quant_max n :: atom ++ [.match] := by
    unfold emitQuantifier
    dsimp only
    have greedy : (true && decide (quant_max > 0)) = true := by simp [some_match]
    rw [if_pos greedy, simple, Option.getD_some, if_pos nonempty]
  have checked : decide ((1 : Int) = 0) = false := rfl
  rw [shortcutCode, advance, checked]
  intro shortcut general ShortcutVisits GeneralVisits
  have atomSpec : IsSimpleAtom atom (codeSize atom + 1) quant_min quant_max n :=
    ⟨rfl, simple, nonempty, some_match, bounds.1⟩
  have shortcutRun : ShortcutVisits
      ((greedyOuts (x.withCode (front ++ shortcut ++ back)) atom quant_min quant_max n
        ⟨cindex, m.capture⟩).map Point.cptr) := by
    have piece := @Piece.simple (x.withCode (front ++ shortcut ++ back)) base m.stack.length
      (fun _ => True) atom _ quant_min quant_max n atomSpec fun _ _ _ _ => trivial
    refine piece.visits rfl cindex rfl ?_
    have top : peak shortcut = 0 := by
      simp [shortcut, peak_append, peak, (counters_simple simple).2, REOp.effect]
    rw [top]
    omega
  have generalRun : GeneralVisits
      ((loopOuts true false (simpleOuts (x.withCode (front' ++ general ++ back')) atom)
        (x.cbuf_end + 1) quant_min quant_max capture_count capture_count
        ⟨cindex, m.capture⟩).map Point.cptr) := by
    have piece : Piece (x.withCode (front' ++ general ++ back')) base m.stack.length (fun _ => True)
        general (loopOuts true false (simpleOuts (x.withCode (front' ++ general ++ back')) atom)
          (x.cbuf_end + 1) quant_min quant_max capture_count capture_count) :=
      (Piece.simpleAtom simple).loop (counters_simple simple).2.1 true false bounds
        (fun _ => decreases_simple simple nonempty)
        (fun _ _ => Nat.lt_succ_of_le (Nat.sub_le _ _)) (fun wrong => absurd rfl wrong)
    refine piece.visits rfl cindex rfl ?_
    have top := peak_loop_simple simple quant_min quant_max capture_count
    change (len : Int) + peak general ≤ _
    change peak general ≤ 1 at top
    omega
  refine ⟨⟨_, shortcutRun⟩, ⟨_, generalRun⟩, ?_⟩
  have same : (∀ positions, ShortcutVisits positions ↔ GeneralVisits positions) ↔
      (greedyOuts (x.withCode (front ++ shortcut ++ back)) atom quant_min quant_max n
        ⟨cindex, m.capture⟩).map Point.cptr =
      (loopOuts true false (simpleOuts (x.withCode (front' ++ general ++ back')) atom)
        (x.cbuf_end + 1) quant_min quant_max capture_count capture_count
        ⟨cindex, m.capture⟩).map Point.cptr := by
    constructor
    · intro both
      exact ((both _).mp shortcutRun).functional generalRun
    · intro equal positions
      constructor
      · intro run
        rw [run.functional shortcutRun, equal]
        exact generalRun
      · intro run
        rw [run.functional generalRun, ← equal]
        exact shortcutRun
  have outs : simpleOuts (x.withCode (front' ++ general ++ back')) atom =
      simpleOuts (x.withCode (front ++ shortcut ++ back)) atom := by
    funext p
    rw [simpleOuts, simpleOuts, simpleRun_withCode, simpleRun_withCode]
  have iff_ := @greedyOuts_eq_iff (x.withCode (front ++ shortcut ++ back)) atom n simple nonempty
    x.cbuf_end quant_min quant_max bounds.1 some_match (le_refl _) capture_count ⟨cindex, m.capture⟩
  rw [simpleRun_withCode] at iff_
  rw [same, outs, map_cptr_inj (greedyOuts_capture _ _ _) (loopOuts_capture _ _ _ _ _)]
  exact iff_

def splitPair : ExecContext where
  unicode := UnicodeData.ascii
  code := []
  cbuf := [0xd83d, 0xde00]
  cbuf_type := .utf16
  capture_count := 1
  stack_size_max := 1
  multi_line := false
  ignore_case := false
  is_utf16 := true

/-- `[^]+` at the start of the pair. -/
theorem greedyQuant_visits_iff_splitPair :
    (∀ positions,
      Visits (splitPair.withCode ([] ++ emitQuantifier [.any] 1 INT32_MAX true 1 1 ++ []))
          (initialSlots 1 1) (codeSize [] + codeSize (emitQuantifier [.any] 1 INT32_MAX true 1 1))
          (.ok ⟨codeSize [], 0, 0, initialSlots 1 1, []⟩) positions ↔
        Visits (splitPair.withCode ([] ++
            emitLoop [.any] 1 INT32_MAX true (reCheckAdvance [.any] = 0) 1 1 ++ []))
          (initialSlots 1 1)
          (codeSize [] +
            codeSize (emitLoop [.any] 1 INT32_MAX true (reCheckAdvance [.any] = 0) 1 1))
          (.ok ⟨codeSize [], 0, 0, initialSlots 1 1, []⟩) positions) ↔
      ¬(midPair splitPair 0 = true ∧ 1 = 0 ∧ simpleRun splitPair [.any] 0 ≠ none) :=
  (greedyQuant_visits_iff splitPair rfl Nat.one_pos ⟨by decide, le_refl _⟩ (by decide) [] [] [] [] 1
    (initialSlots 1 1) (initialSlots 1 1) (by decide) 0).2.2

/-- `[^]*` in the middle of the pair: the shortcut gives back its match to the start of the pair. -/
theorem greedyQuant_midPair :
    let ShortcutVisits := Visits (splitPair.withCode (emitQuantifier [.any] 0 INT32_MAX true 1 1))
      (initialSlots 1 1) (codeSize (emitQuantifier [.any] 0 INT32_MAX true 1 1))
      (.ok ⟨0, 1, 0, initialSlots 1 1, []⟩)
    let general := emitLoop [.any] 0 INT32_MAX true (reCheckAdvance [.any] = 0) 1 1
    let GeneralVisits := Visits (splitPair.withCode general) (initialSlots 1 1) (codeSize general)
      (.ok ⟨0, 1, 0, initialSlots 1 1, []⟩)
    ShortcutVisits [2, 0] ∧ GeneralVisits [2, 1] ∧
      ¬∀ positions, ShortcutVisits positions ↔ GeneralVisits positions := by
  intro ShortcutVisits general GeneralVisits
  have shortcut : ShortcutVisits [2, 0] := @visits_of_visitsFor _ _ _ 9 _ _ (by decide +kernel)
  have other : GeneralVisits [2, 1] := @visits_of_visitsFor _ _ _ 9 _ _ (by decide +kernel)
  refine ⟨shortcut, other, fun same => ?_⟩
  have equal := ((same _).mp shortcut).functional other
  exact absurd equal (by decide)

end PrimJs.Regexp
