import PrimJs.Regexp.BacktrackLookahead
import PrimJs.Regexp.CopyingFrames
import PrimJs.Regexp.LreExec
import PrimJs.Regexp.Operands
import PrimJs.Regexp.SimpleAtom

/-! The search of `lre_exec` does what the search prefix does. -/

namespace PrimJs.Regexp

open Stepping

variable {x : ExecContext} {slots : Slots} {cptr : Nat}

/-! ### The prefix -/

variable {pc fuel : Nat} {test : REOp} {code : List REOp}

theorem hasSearchPrefix_fetch (h : lreHasSearchPrefix code = true) :
    fetch code 0 = some (.split_goto_first (1 + 5)) ∧ fetch code 5 = some .any ∧
      fetch code 6 = some (.goto (-(5 + 1 + 5))) := by
  simp only [lreHasSearchPrefix, Bool.and_eq_true, decide_eq_true_eq] at h
  exact ⟨h.1.1, h.1.2, h.2⟩

/-- A run of the prefix: the code after it, and one character further when that fails. -/
inductive PrefixRun (x : ExecContext) (slots : Slots) (cptr : Nat) (result : ExecResult) : Prop where
  | here : CopyingExec x slots RE_SEARCH_PREFIX_LEN cptr result → (∀ m, result ≠ .noMatch m) →
      PrefixRun x slots cptr result
  | exhausted : CopyingExec x slots RE_SEARCH_PREFIX_LEN cptr (.noMatch slots) →
      x.cbuf_end ≤ cptr → result = .noMatch slots → PrefixRun x slots cptr result
  | next : CopyingExec x slots RE_SEARCH_PREFIX_LEN cptr (.noMatch slots) → cptr < x.cbuf_end →
      CopyingExec x slots 0 (getChar x cptr x.cbuf_end).2 result → PrefixRun x slots cptr result

section

variable (h : lreHasSearchPrefix x.code = true) (cptr : Nat) (result : ExecResult)

include h

/-- After the code has failed at `cptr`. -/
theorem any_turn :
    Returns (copyStep x slots) ⟨5, cptr, 0, slots, []⟩ result ↔
      x.cbuf_end ≤ cptr ∧ result = .noMatch slots ∨
        cptr < x.cbuf_end ∧ CopyingExec x slots 0 (getChar x cptr x.cbuf_end).2 result := by
  obtain ⟨-, any, goto⟩ := hasSearchPrefix_fetch h
  have act : action x slots 0 5 cptr = testAction 6 (lreMatchCharOp x .any cptr) := by
    rw [action, any]
    rfl
  by_cases inside : cptr < x.cbuf_end
  · have turn : copyStep x slots ⟨5, cptr, 0, slots, []⟩ =
        .ok ⟨6, (getChar x cptr x.cbuf_end).2, 0, slots, []⟩ := by
      have test : lreMatchCharOp x .any cptr = some (getChar x cptr x.cbuf_end).2 := by
        rw [lreMatchCharOp, if_neg (by omega)]
        rfl
      rw [copyStep]
      dsimp only
      rw [act, test]
      rfl
    have back : copyStep x slots ⟨6, (getChar x cptr x.cbuf_end).2, 0, slots, []⟩ =
        .ok (copyStart slots 0 (getChar x cptr x.cbuf_end).2) := by
      rw [copyStep]
      dsimp only
      rw [action, goto]
      rfl
    rw [(Reaches.next turn (.single back)).returns_iff]
    exact ⟨fun run => .inr ⟨inside, run⟩, fun run => run.elim (fun out => by omega) (·.2)⟩
  · have turn : copyStep x slots ⟨5, cptr, 0, slots, []⟩ = .error (.noMatch slots) := by
      have test : lreMatchCharOp x .any cptr = none := by
        rw [lreMatchCharOp, if_pos (by omega)]
      rw [copyStep]
      dsimp only
      rw [act, test]
      rfl
    constructor
    · intro run
      exact .inl ⟨by omega, run.functional (.stop turn)⟩
    · rintro (⟨-, rfl⟩ | ⟨wrong, -⟩)
      · exact .stop turn
      · exact absurd wrong inside

theorem prefixRun_iff : CopyingExec x slots 0 cptr result ↔ PrefixRun x slots cptr result := by
  obtain ⟨split, -, -⟩ := hasSearchPrefix_fetch h
  have turn : copyStep x slots (copyStart slots 0 cptr) =
      .ok ((copyStart slots RE_SEARCH_PREFIX_LEN cptr).over [⟨.split, 5, cptr, 0, slots⟩]) := by
    rw [copyStep]
    dsimp only [copyStart]
    rw [action, split]
    rfl
  have after : Continues (copyStep x slots) (backtrack x slots [⟨.split, 5, cptr, 0, slots⟩]) result ↔
      Returns (copyStep x slots) ⟨5, cptr, 0, slots, []⟩ result :=
    ⟨fun goes => by cases goes with | goOn later => exact later, .goOn⟩
  rw [CopyingExec, (Reaches.single turn).returns_iff, returns_over rfl]
  constructor
  · rintro ⟨result', run, resumed⟩
    cases resumed with
    | stopped stops => exact .here run stops
    | failed later =>
        obtain rfl := noMatch_base run
        obtain ⟨out, rfl⟩ | ⟨inside, further⟩ := (any_turn h cptr result).mp (after.mp later)
        · exact .exhausted run out rfl
        · exact .next run inside further
  · rintro (⟨run, stops⟩ | ⟨run, out, rfl⟩ | ⟨run, inside, further⟩)
    · exact ⟨result, run, .stopped stops⟩
    · exact ⟨_, run, .failed (after.mpr ((any_turn h cptr _).mpr (.inl ⟨out, rfl⟩)))⟩
    · exact ⟨_, run, .failed (after.mpr ((any_turn h cptr _).mpr (.inr ⟨inside, further⟩)))⟩

end

/-- The code after the prefix does not match at `cptr`. -/
def Fails (x : ExecContext) (slots : Slots) (cptr : Nat) : Prop :=
  CopyingExec x slots RE_SEARCH_PREFIX_LEN cptr (.noMatch slots)

theorem Fails.next (fails : Fails x slots cptr) (h : lreHasSearchPrefix x.code = true)
    (inside : cptr < x.cbuf_end) (result : ExecResult) :
    CopyingExec x slots 0 cptr result ↔
      CopyingExec x slots 0 (getChar x cptr x.cbuf_end).2 result := by
  rw [prefixRun_iff h]
  constructor
  · rintro (⟨run, stops⟩ | ⟨-, out, -⟩ | ⟨-, -, further⟩)
    · exact absurd (run.functional fails) (stops slots)
    · omega
    · exact further
  · exact .next fails inside

theorem Fails.atEnd (fails : Fails x slots cptr) (h : lreHasSearchPrefix x.code = true)
    (out : x.cbuf_end ≤ cptr) (result : ExecResult) :
    CopyingExec x slots 0 cptr result ↔ result = .noMatch slots := by
  rw [prefixRun_iff h]
  constructor
  · rintro (⟨run, stops⟩ | ⟨-, -, same⟩ | ⟨-, inside, -⟩)
    · exact absurd (run.functional fails) (stops slots)
    · exact same
    · omega
  · exact .exhausted fails out

/-! ### The first character test -/

/-- What the search relies on: the code is the compiler's, and the captures are all there. -/
structure Searchable (x : ExecContext) (slots : Slots) : Prop where
  searchPrefix : lreHasSearchPrefix x.code = true
  greedyAtoms : GreedyAtoms x.code
  codeFits : CodeFits x.capture_count x.code
  captures : slots.capture.length = 2 * x.capture_count

theorem mem_of_fetch {op : REOp} (h : fetch code pc = some op) : op ∈ code := by
  obtain ⟨front, back, rfl, -⟩ := (fetch_eq_some_iff _ _ _).mp h
  simp

/-- Saving a capture that exists. -/
theorem copyStep_save {base : Slots} {s : CopyState} {index : Nat} {value : Word}
    (act : action x s.slots s.stack_len s.pc s.cptr = .write [(.capture index, value)] pc s.stack_len)
    (exists_ : index < s.slots.capture.length) :
    copyStep x base s =
      .ok { s with slots := s.slots.set (.capture index) value, pc := pc } := by
  have read : s.slots.get? (.capture index) = some s.slots.capture[index] :=
    List.getElem?_eq_getElem exists_
  rw [copyStep, act]
  simp only [Slots.setAll, read]

/-- The test at the head of a simple atom. -/
theorem firstTest_head {op : REOp} (fetched : fetch code pc = some op)
    (simple : isCharOp op = true ∨ isAssertionOp op = true)
    (found : lreGetFirstCharTest code fuel pc = some test) : test = op ∧ isCharOp op = true := by
  cases fuel with
  | zero => cases found
  | succ fuel =>
      rw [lreGetFirstCharTest, fetched] at found
      cases op with
      | char | char32 | range | range32 => exact ⟨(Option.some.inj found).symm, rfl⟩
      | dot | any | line_start | line_end | word_boundary | not_word_boundary => cases found
      | _ => rcases simple with wrong | wrong <;> cases wrong

/-- A quantifier whose atom fails at its first test counts no match. -/
theorem greedy_fails (h : GreedyAtoms x.code) {next_pos quant_min quant_max char_count : Nat}
    {cptr : Nat}
    (fetched : fetch x.code pc = some (.simple_greedy_quant next_pos quant_min quant_max char_count))
    (found : lreGetFirstCharTest x.code fuel (pc + 17) = some test)
    (fails : lreMatchCharOp x test cptr = none) :
    simpleGreedyCount x (pc + 17) next_pos quant_max cptr = some (0, cptr) := by
  obtain ⟨front, back, code, rfl⟩ := (fetch_eq_some_iff _ _ _).mp fetched
  obtain ⟨atom, back', rfl, simple⟩ := @GreedyAtoms.atom front _ _ _ _ _ (by rw [← code]; exact h)
  have code' : x.code = (front ++ [.simple_greedy_quant next_pos quant_min quant_max char_count]) ++
      atom ++ .match :: back' := by
    rw [code]
    simp
  obtain ⟨count, cptr', counted, greedy⟩ := simpleGreedyCount_spec code' simple cptr
  have place : codeSize (front ++
      [REOp.simple_greedy_quant next_pos quant_min quant_max char_count]) = codeSize front + 17 := by
    simp [REOp.size]
  rw [place] at counted
  cases greedy.matches_ with
  | none => exact counted
  | more first _ =>
      cases atom with
      | nil =>
          obtain rfl := Option.some.inj simple.simple
          exact absurd simple.nonempty (lt_irrefl 0)
      | cons op rest =>
          have head : fetch x.code (codeSize front + 17) = some op := by
            rw [code', ← place, List.append_assoc]
            exact fetch_middle _ _ op
          have kind : isCharOp op = true ∨ isAssertionOp op = true :=
            (reIsSimpleQuantifier_cons simple.simple).imp And.left And.left
          obtain ⟨rfl, char⟩ := firstTest_head head kind found
          rw [simpleRun, simpleTest_charOp char, fails] at first
          cases first

/-- Where the first character test fails, so does the code. -/
theorem firstTest_fails (h : Searchable x slots) (fuel : Nat) (s : CopyState)
    (frames : s.frames = []) (captures : s.slots.capture.length = 2 * x.capture_count)
    (found : lreGetFirstCharTest x.code fuel s.pc = some test)
    (fails : lreMatchCharOp x test s.cptr = none) :
    Returns (copyStep x slots) s (.noMatch slots) := by
  induction fuel generalizing s with
  | zero => cases found
  | succ fuel ih =>
      rw [lreGetFirstCharTest] at found
      have testFails : ∀ op, fetch x.code s.pc = some op → isCharOp op = true → test = op →
          Returns (copyStep x slots) s (.noMatch slots) := by
        rintro op fetched char rfl
        refine .stop ?_
        have act : action x s.slots s.stack_len s.pc s.cptr = .noMatch := by
          rw [action, fetched]
          cases test with
          | char | char32 | dot | any | range | range32 =>
              dsimp only
              rw [fails]
              rfl
          | _ => cases char
        rw [copyStep, act, frames]
        rfl
      split at found
      · next index fetched =>
        have bound : index < x.capture_count :=
          (h.codeFits _ (mem_of_fetch fetched)).captures index (by simp [REOp.captureIndexes])
        have act : action x s.slots s.stack_len s.pc s.cptr =
            .write [(.capture (2 * index), .ptr s.cptr)] (s.pc + 2) s.stack_len := by
          simp [action, fetched, bound, REOp.size]
        refine .next (copyStep_save act (by omega)) (ih _ frames ?_ found fails)
        simpa [Slots.set] using captures
      · next index fetched =>
        have bound : index < x.capture_count :=
          (h.codeFits _ (mem_of_fetch fetched)).captures index (by simp [REOp.captureIndexes])
        have act : action x s.slots s.stack_len s.pc s.cptr =
            .write [(.capture (2 * index + 1), .ptr s.cptr)] (s.pc + 2) s.stack_len := by
          simp [action, fetched, bound, REOp.size]
        refine .next (copyStep_save act (by omega)) (ih _ frames ?_ found fails)
        simpa [Slots.set] using captures
      · next next_pos quant_min quant_max char_count fetched =>
        split at found
        · cases found
        · next required =>
          refine .stop ?_
          have act : action x s.slots s.stack_len s.pc s.cptr = .noMatch := by
            have counted := greedy_fails h.greedyAtoms fetched found fails
            simp [action, fetched, REOp.size, counted, Nat.pos_of_ne_zero required]
          rw [copyStep, act, frames]
          rfl
      · next fetched => exact testFails _ fetched rfl (Option.some.inj found).symm
      · next fetched => exact testFails _ fetched rfl (Option.some.inj found).symm
      · next fetched => exact testFails _ fetched rfl (Option.some.inj found).symm
      · next fetched => exact testFails _ fetched rfl (Option.some.inj found).symm
      · cases found

theorem fails_of_test (h : Searchable x slots)
    (found : lreGetFirstCharTest x.code fuel RE_SEARCH_PREFIX_LEN = some test)
    (fails : lreMatchCharOp x test cptr = none) : Fails x slots cptr :=
  firstTest_fails h fuel (copyStart slots RE_SEARCH_PREFIX_LEN cptr) rfl h.captures found fails

/-- A one character test that `lre_get_first_char_test` returns. -/
theorem lreGetFirstCharTest_some (found : lreGetFirstCharTest code fuel pc = some test) :
    test ∈ code ∧ isCharOp test = true ∧ test ≠ .dot ∧ test ≠ .any := by
  induction fuel generalizing pc with
  | zero => cases found
  | succ fuel ih =>
      rw [lreGetFirstCharTest] at found
      split at found
      · exact ih found
      · exact ih found
      · split at found
        · cases found
        · exact ih found
      all_goals first
        | cases found; done
        | next fetched =>
          obtain rfl := Option.some.inj found
          exact ⟨mem_of_fetch fetched, rfl, by simp, by simp⟩

/-! ### Skipping -/

/-- Going on from `cptr'` is as good as going on from `cptr`. -/
def SameFrom (x : ExecContext) (slots : Slots) (cptr : Nat) (found : Option Nat) : Prop :=
  ∀ result, CopyingExec x slots 0 cptr result ↔
    match found with
    | some cptr' => CopyingExec x slots 0 cptr' result
    | none => result = .noMatch slots

theorem scanTest_same (h : Searchable x slots)
    (found : lreGetFirstCharTest x.code fuel RE_SEARCH_PREFIX_LEN = some test) (steps cptr : Nat)
    (enough : x.cbuf_end < cptr + steps) : SameFrom x slots cptr (scanTest x test steps cptr) := by
  obtain ⟨-, char, notDot, notAny⟩ := lreGetFirstCharTest_some found
  induction steps generalizing cptr with
  | zero =>
      have fails : Fails x slots cptr := by
        refine fails_of_test h found ?_
        rw [lreMatchCharOp, if_pos (by omega)]
      exact fun result => fails.atEnd h.searchPrefix (by omega) result
  | succ steps ih =>
      rw [scanTest]
      split
      · next out =>
        have fails : Fails x slots cptr := by
          refine fails_of_test h found ?_
          rw [lreMatchCharOp, if_pos out]
        exact fun result => fails.atEnd h.searchPrefix out result
      · next inside =>
        dsimp only
        split
        · exact fun result => Iff.rfl
        · next mismatch =>
          have forward := (@getChar_bounds x cptr (by omega)).1
          have same := ih (getChar x cptr x.cbuf_end).2 (by omega)
          have fails : Fails x slots cptr := by
            refine fails_of_test h found ?_
            rw [lreMatchCharOp, if_neg inside]
            dsimp only
            refine if_neg ?_
            cases test with
            | char | char32 | range | range32 => exact mismatch
            | dot => exact absurd rfl notDot
            | any => exact absurd rfl notAny
            | _ => cases char
          exact fun result => (fails.next h.searchPrefix (by omega) result).trans (same result)

/-- A character is a code unit, or one above all code units. -/
theorem getChar_unit (x : ExecContext) (cptr : Nat) :
    getChar x cptr x.cbuf_end = (x.unit cptr, cptr + 1) ∨
      0x10000 ≤ (getChar x cptr x.cbuf_end).1 ∧ (getChar x cptr x.cbuf_end).2 = cptr + 2 ∧
        x.cbuf_type = .utf16 ∧ cptr + 1 < x.cbuf_end ∧ isLowSurrogate (x.unit (cptr + 1)) = true := by
  unfold getChar
  dsimp only
  split
  · next pair =>
    simp only [Bool.and_eq_true, decide_eq_true_eq] at pair
    exact .inr ⟨Nat.le_add_left _ _, rfl, pair.1.1.2, pair.1.2, pair.2⟩
  · exact .inl rfl

theorem unit_mismatch {c : Nat} (plain : x.ignore_case = false) (small : c ≤ 0xffff)
    (mismatch : x.unit cptr ≠ c) : lreMatchCharOp x (.char c) cptr = none := by
  rw [lreMatchCharOp]
  split
  · rfl
  · dsimp only
    refine if_neg ?_
    have differs : (getChar x cptr x.cbuf_end).1 ≠ c := by
      obtain single | ⟨large, -⟩ := getChar_unit x cptr
      · rwa [single]
      · omega
    simpa [charOpTest, lreCharOpMatch, plain] using differs

theorem scanUnit_same (h : Searchable x slots) {c : Nat}
    (found : lreGetFirstCharTest x.code fuel RE_SEARCH_PREFIX_LEN = some (.char c))
    (plain : x.ignore_case = false) (single : x.cbuf_type ≠ .utf16 ∨ isLowSurrogate c = false)
    (steps cptr : Nat) (enough : x.cbuf_end < cptr + steps) :
    SameFrom x slots cptr (scanUnit x c steps cptr) := by
  have small : c ≤ 0xffff := (h.codeFits _ (lreGetFirstCharTest_some found).1).char c rfl
  have atEnd : ∀ cptr, x.cbuf_end ≤ cptr → SameFrom x slots cptr none := by
    intro cptr out
    have fails : Fails x slots cptr := by
      refine fails_of_test h found ?_
      rw [lreMatchCharOp, if_pos out]
    exact fun result => fails.atEnd h.searchPrefix out result
  induction steps using Nat.strongRecOn generalizing cptr with
  | _ steps ih =>
      cases steps with
      | zero => exact atEnd cptr (by omega)
      | succ steps =>
          rw [scanUnit]
          split
          · next out => exact atEnd cptr out
          · next inside =>
            split
            · exact fun result => Iff.rfl
            · next mismatch =>
              have fails : Fails x slots cptr :=
                fails_of_test h found (unit_mismatch plain small mismatch)
              have further := fails.next h.searchPrefix (by omega)
              obtain unit | ⟨-, two, utf16, within, low⟩ := getChar_unit x cptr
              · rw [unit] at further
                exact fun result => (further result).trans
                  (ih steps (by omega) (cptr + 1) (by omega) result)
              · -- the second half of a pair is no match for the scan
                rw [two] at further
                have other : x.unit (cptr + 1) ≠ c := by
                  rintro rfl
                  obtain wrong | wrong := single
                  · exact wrong utf16
                  · rw [wrong] at low
                    cases low
                obtain ⟨steps, rfl⟩ : ∃ k, steps = k + 1 := ⟨steps - 1, by omega⟩
                rw [scanUnit, if_neg (by omega), if_neg other]
                exact fun result => (further result).trans
                  (ih steps (by omega) (cptr + 2) (by omega) result)

/-- An 8 bit input has no unit above 255. -/
theorem scanUnit_none {c : Nat} (narrow : ∀ unit ∈ x.cbuf, unit < c) (steps cptr : Nat) :
    scanUnit x c steps cptr = none := by
  induction steps generalizing cptr with
  | zero => rfl
  | succ steps ih =>
      rw [scanUnit]
      split
      · rfl
      · next inside =>
        have member : x.unit cptr ∈ x.cbuf := by
          have bound : cptr < x.cbuf.length := by
            rw [ExecContext.cbuf_end] at inside
            omega
          rw [ExecContext.unit, List.getD_eq_getElem _ _ bound]
          exact List.getElem_mem bound
        rw [if_neg (Nat.ne_of_lt (narrow _ member))]
        exact ih (cptr + 1)

/-- The positions that the search skips make no difference. -/
theorem searchSkip_same (h : Searchable x slots)
    (narrow : x.cbuf_type = .bits8 → ∀ unit ∈ x.cbuf, unit ≤ 0xff) (cptr : Nat) :
    SameFrom x slots cptr (searchSkip x RE_SEARCH_PREFIX_LEN cptr) := by
  unfold searchSkip
  dsimp only
  cases found : lreGetFirstCharTest x.code (codeSize x.code) RE_SEARCH_PREFIX_LEN with
  | none => exact fun result => Iff.rfl
  | some test =>
      cases scan : scanChar x (some test) with
      | none => exact scanTest_same h found _ cptr (by omega)
      | some c =>
          have kind : test = .char c ∧ x.ignore_case = false ∧
              (x.cbuf_type ≠ .utf16 ∨ isLowSurrogate c = false) := by
            cases test with
            | char c' =>
                rw [scanChar] at scan
                split at scan
                · next plain =>
                  obtain rfl := Option.some.inj scan
                  simp only [Bool.and_eq_true, Bool.not_eq_true', Bool.or_eq_true,
                    decide_eq_true_eq] at plain
                  refine ⟨rfl, plain.1, ?_⟩
                  obtain (narrow | low) | high := plain.2
                  · exact .inl narrow
                  · right
                    simp only [isLowSurrogate, Bool.and_eq_false_iff, decide_eq_false_iff_not]
                    omega
                  · right
                    simp only [isLowSurrogate, Bool.and_eq_false_iff, decide_eq_false_iff_not]
                    omega
                · cases scan
            | _ => cases scan
          obtain ⟨rfl, plain, single⟩ := kind
          have same := scanUnit_same h found plain single (x.cbuf_end + 1) cptr (by omega)
          dsimp only
          split
          · next wide =>
            simp only [Bool.and_eq_true, decide_eq_true_eq] at wide
            rwa [scanUnit_none (fun unit member => by
              have := narrow wide.1 unit member
              omega)] at same
          · exact same

/-- The search goes forward. -/
theorem searchSkip_le {cptr' : Nat} (found : searchSkip x pc cptr = some cptr') : cptr ≤ cptr' := by
  have unit : ∀ c steps cptr, scanUnit x c steps cptr = some cptr' → cptr ≤ cptr' := by
    intro c steps
    induction steps with
    | zero => rintro cptr ⟨⟩
    | succ steps ih =>
        intro cptr here
        rw [scanUnit] at here
        split_ifs at here
        · exact (Option.some.inj here).le
        · exact (Nat.le_succ _).trans (ih _ here)
  have test : ∀ op steps cptr, scanTest x op steps cptr = some cptr' → cptr ≤ cptr' := by
    intro op steps
    induction steps with
    | zero => rintro cptr ⟨⟩
    | succ steps ih =>
        intro cptr here
        rw [scanTest] at here
        dsimp only at here
        split_ifs at here with out
        · exact (Option.some.inj here).le
        · exact (getChar_bounds (not_le.mp out)).1.le.trans (ih _ here)
  unfold searchSkip at found
  dsimp only at found
  split at found
  · split at found
    · cases found
    · exact unit _ _ _ found
  · split at found
    · exact test _ _ _ found
    · exact (Option.some.inj found).le

/-! ### The search -/

section

variable {alloc : Nat → Bool}

section

variable (narrow : x.cbuf_type = .bits8 → ∀ unit ∈ x.cbuf, unit ≤ 0xff) {result : ExecResult}
  (h : Searchable x slots)

include narrow h

/-- A result of the search is one of the prefix, on the copying machine. -/
theorem copying_of_search {stack_buf : List StackElem}
    (run : LreExecSearch x alloc RE_SEARCH_PREFIX_LEN slots stack_buf cptr result) :
    CopyingExec x slots 0 cptr result ∨ GaveUp alloc result := by
  induction run with
  | @exhausted slots stack_buf cptr skip =>
      have same := searchSkip_same h narrow cptr (.noMatch slots)
      rw [skip] at same
      exact .inl (same.mpr rfl)
  | @found slots stack_buf cptr cptr' result skip run stops =>
      have same := searchSkip_same h narrow cptr result
      rw [skip] at same
      obtain copied | gaveUp := copying_of_backtrack run
      · exact .inl (same.mpr ((prefixRun_iff h.searchPrefix _ _).mpr (.here copied stops)))
      · exact .inr gaveUp
  | @atEnd slots slots' stack_buf cptr cptr' skip run out =>
      obtain copied | ⟨wrong, -⟩ := copying_of_backtrack run
      · obtain rfl := noMatch_base copied
        have same := searchSkip_same h narrow cptr (.noMatch slots')
        rw [skip] at same
        exact .inl (same.mpr ((prefixRun_iff h.searchPrefix _ _).mpr (.exhausted copied out rfl)))
      · cases wrong
  | @next slots slots' stack_buf stack_buf' cptr cptr' result skip leaves inside _ ih =>
      obtain ⟨t, reached, last, -⟩ := leaves
      obtain copied | ⟨wrong, -⟩ := copying_of_backtrack (reached.returns (.stop last))
      · obtain rfl := noMatch_base copied
        have same := searchSkip_same h narrow cptr result
        rw [skip] at same
        obtain further | gaveUp := ih h
        · exact .inl (same.mpr ((prefixRun_iff h.searchPrefix _ _).mpr (.next copied inside further)))
        · exact .inr gaveUp
      · cases wrong

/-- A result of the prefix is found by the search. -/
theorem search_of_copying (stack_buf : List StackElem) (run : CopyingExec x slots 0 cptr result) :
    ∃ result', LreExecSearch x alloc RE_SEARCH_PREFIX_LEN slots stack_buf cptr result' ∧
      (result' = result ∨ GaveUp alloc result') := by
  generalize left : x.cbuf_end - cptr = n
  induction n using Nat.strongRecOn generalizing cptr stack_buf with
  | _ n ih =>
      have same := searchSkip_same h narrow cptr result
      cases skip : searchSkip x RE_SEARCH_PREFIX_LEN cptr with
      | none =>
          rw [skip] at same
          obtain rfl := same.mp run
          exact ⟨_, .exhausted skip, .inl rfl⟩
      | some cptr' =>
          rw [skip] at same
          have forward := searchSkip_le skip
          have abort : LreExecBacktrack x alloc slots stack_buf RE_SEARCH_PREFIX_LEN cptr' .noMemory ∧
              (∃ n, alloc n = false) →
              ∃ result', LreExecSearch x alloc RE_SEARCH_PREFIX_LEN slots stack_buf cptr result' ∧
                (result' = result ∨ GaveUp alloc result') :=
            fun ⟨out, refused⟩ =>
              ⟨.noMemory, .found skip out (by rintro m ⟨⟩), .inr ⟨rfl, refused⟩⟩
          obtain ⟨copied, stops⟩ | ⟨fails, out, rfl⟩ | ⟨fails, inside, further⟩ :=
            (prefixRun_iff h.searchPrefix _ _).mp (same.mp run)
          · obtain exec | out := backtrack_of_copying alloc stack_buf copied
            · exact ⟨result, .found skip exec stops, .inl rfl⟩
            · exact abort out
          · obtain exec | out' := backtrack_of_copying alloc stack_buf fails
            · exact ⟨_, .atEnd skip exec out, .inl rfl⟩
            · exact abort out'
          · obtain exec | out := backtrack_of_copying alloc stack_buf fails
            · obtain ⟨t, reached, last⟩ := exec.last
              have advance := (getChar_bounds inside).1
              obtain ⟨result', search, agree⟩ := ih _ (by omega) t.stack_buf further rfl
              exact ⟨result', .next skip ⟨t, reached, last, rfl⟩ inside search, agree⟩
            · exact abort out

end

end

/-- Code with the search prefix of a compiled pattern. -/
theorem lreCompile_searchable {u : UnicodeData} {buf : Bytes} {flags : REFlags} {bc : REByteCode}
    (h : lreCompile u buf flags = .ok bc) (nonsticky : flags.sticky = false) (cbuf : List Nat)
    (cbuf_type : CbufType) :
    Searchable (execContext u bc cbuf cbuf_type) (initialSlots bc.capture_count bc.stack_size) where
  searchPrefix := by
    obtain ⟨node, hcode, -, -, -⟩ := lreCompile_emit h
    rw [nonsticky, if_neg Bool.false_ne_true] at hcode
    dsimp only [execContext]
    rw [hcode]
    rfl
  greedyAtoms := lreCompile_greedyAtoms h
  codeFits := lreCompile_codeFits h
  captures := List.length_replicate

/-- The search returns what a run of the code with its prefix returns, with the same captures,
unless one of them runs out of memory. -/
theorem lreExecSearch_agrees {u : UnicodeData} {buf : Bytes} {flags : REFlags} {bc : REByteCode}
    (h : lreCompile u buf flags = .ok bc) (nonsticky : flags.sticky = false) (cbuf : List Nat)
    (cbuf_type : CbufType) (narrow : cbuf_type = .bits8 → ∀ unit ∈ cbuf, unit ≤ 0xff)
    (alloc : Nat → Bool) (stack_buf : List StackElem) (cindex : Nat) :
    let x := execContext u bc cbuf cbuf_type
    let slots := initialSlots bc.capture_count bc.stack_size
    let Search := LreExecSearch x alloc RE_SEARCH_PREFIX_LEN slots stack_buf cindex
    let Prefix := LreExecBacktrack x alloc slots stack_buf 0 cindex
    lreHasSearchPrefix bc.code = true ∧
      (∀ result, Search result → Prefix result ∨
        (result = .noMemory ∨ Prefix .noMemory) ∧ ∃ n, alloc n = false) ∧
      ∀ result, Prefix result → Search result ∨
        (result = .noMemory ∨ Search .noMemory) ∧ ∃ n, alloc n = false := by
  have searchable := lreCompile_searchable h nonsticky cbuf cbuf_type
  have narrow' : (execContext u bc cbuf cbuf_type).cbuf_type = .bits8 →
      ∀ unit ∈ cbuf, unit ≤ 0xff := by
    intro type
    refine narrow ?_
    dsimp only [execContext] at type
    split at type
    · cases type
    · exact type
  refine ⟨searchable.searchPrefix, fun result search => ?_, fun result run => ?_⟩
  · obtain copied | ⟨out, refused⟩ := copying_of_search narrow' searchable search
    · obtain exec | ⟨out, refused⟩ := backtrack_of_copying alloc stack_buf copied
      · exact .inl exec
      · exact .inr ⟨.inr out, refused⟩
    · exact .inr ⟨.inl out, refused⟩
  · obtain copied | ⟨out, refused⟩ := copying_of_backtrack run
    · obtain ⟨result', search, rfl | ⟨rfl, refused⟩⟩ :=
        @search_of_copying _ _ _ alloc narrow' _ searchable stack_buf copied
      · exact .inl search
      · exact .inr ⟨.inr search, refused⟩
    · exact .inr ⟨.inl out, refused⟩

/-- `/\u0101/` on the bytes `aa`. -/
def wideChar : REByteCode where
  flags := ⟨false, false, false, false, false⟩
  capture_count := 1
  stack_size := 0
  code := searchPrefix ++ [.save_start 0, .char 0x101, .save_end 0, .match]
  group_names := none

theorem lreCompile_wideChar :
    lreCompile UnicodeData.ascii ['\\', 'u', '0', '1', '0', '1'] ⟨false, false, false, false, false⟩ =
      .ok wideChar := by
  decide +kernel

theorem lreExecSearch_agrees_wideChar :
    let x := execContext UnicodeData.ascii wideChar [97, 97] .bits8
    let slots := initialSlots 1 0
    let Search := LreExecSearch x (fun _ => true) RE_SEARCH_PREFIX_LEN slots staticStackBuf 0
    let Prefix := LreExecBacktrack x (fun _ => true) slots staticStackBuf 0 0
    lreHasSearchPrefix wideChar.code = true ∧
      (∀ result, Search result → Prefix result ∨
        (result = .noMemory ∨ Prefix .noMemory) ∧ ∃ n : Nat, (fun _ => true) n = false) ∧
      ∀ result, Prefix result → Search result ∨
        (result = .noMemory ∨ Search .noMemory) ∧ ∃ n : Nat, (fun _ => true) n = false :=
  lreExecSearch_agrees lreCompile_wideChar rfl [97, 97] .bits8 (by decide) (fun _ => true)
    staticStackBuf 0

end PrimJs.Regexp
