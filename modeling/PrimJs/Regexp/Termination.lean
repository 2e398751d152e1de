import PrimJs.Regexp.CounterStackRun
import PrimJs.Regexp.NodePieces
import PrimJs.Regexp.Search

/-! Matching terminates when the loops of the pattern advance. -/

namespace PrimJs.Regexp

open Stepping

/-! ### The result of the code -/

/-- At the end of the code the first point offered is a match; without one there is none. -/
inductive OffersResult (base : Slots) : List Point → ExecResult → Prop where
  | noMatch : OffersResult base [] (.noMatch base)
  | «match» {p : Point} {outs : List Point} {m : Slots} : m.capture = p.capture →
      OffersResult base (p :: outs) (.match m)

theorem OffersResult.cases_result {base : Slots} {outs : List Point} {result : ExecResult}
    (h : OffersResult base outs result) : (∃ m, result = .match m) ∨ result = .noMatch base := by
  cases h with
  | noMatch => exact .inr rfl
  | «match» => exact .inl ⟨_, rfl⟩

theorem Offers.returns {x : ExecContext} {base : Slots} {size entry exit : Nat} {counters : List Word}
    {turn : Except ExecResult CopyState} {outs : List Point}
    (fetched : fetch x.code exit = some .match)
    (h : Offers x base size entry exit counters [] turn outs) :
    ∃ result, Continues (copyStep x base) turn result ∧ OffersResult base outs result := by
  induction h with
  | fail back =>
      rw [back]
      exact ⟨.noMatch base, .stop _, .noMatch⟩
  | step _ _ _ ih =>
      obtain ⟨result, later, offers⟩ := ih
      exact ⟨result, .goOn (returns_iff_continues.mpr later), offers⟩
  | @out s p own outs arrived frames plain _ _ =>
      have none_ : enclosingLookahead s.frames = none := by
        rw [frames, List.append_nil]
        clear frames
        induction own with
        | nil => rfl
        | cons f own ih =>
            rw [enclosingLookahead, plain f List.mem_cons_self, if_neg Bool.false_ne_true]
            exact ih fun g member => plain g (List.mem_cons_of_mem _ member)
      have stops : copyStep x base s = .error (.match s.slots) := by
        rw [copyStep, action, arrived.pc, fetched]
        dsimp only
        rw [succeed, none_]
      exact ⟨.match s.slots, .goOn (.stop stops), .match arrived.capture⟩

/-! ### The code of a compiled pattern -/

/-- The pattern that the code was emitted for. -/
structure REByteCode.IsFor (bc : REByteCode) (node : Node) : Prop where
  code : bc.code = (if bc.flags.sticky then [] else searchPrefix) ++
    (Node.capture node).emit false 0 ++ [.match]
  captures : bc.capture_count = (Node.capture node).captures

variable {u : UnicodeData} {buf : Bytes} {flags : REFlags} {bc : REByteCode}

theorem lreCompile_isFor (h : lreCompile u buf flags = .ok bc) : ∃ node, bc.IsFor node := by
  obtain ⟨node, code, captures, -, same⟩ := lreCompile_emit h
  exact ⟨node, by rw [same]; exact code, captures⟩

/-- The program counter after the search prefix. -/
def REByteCode.bodyPc (bc : REByteCode) : Nat := if bc.flags.sticky then 0 else RE_SEARCH_PREFIX_LEN

theorem peak_le_of_depth {code : List REOp} {n : Int}
    (h : ∀ front back, code = front ++ back → depth front ≤ n) : peak code ≤ n := by
  induction code generalizing n with
  | nil => exact h [] [] rfl
  | cons op code ih =>
      have zero := h [] (op :: code) rfl
      have later : peak code ≤ n - op.effect := by
        refine ih fun front back split => ?_
        have bound := h (op :: front) back (by rw [split]; rfl)
        rw [depth_cons] at bound
        omega
      rw [depth_nil] at zero
      rw [peak]
      omega

section

variable (h : lreCompile u buf flags = .ok bc)

include h

/-- The run of the code after the prefix. -/
theorem body_returns {node : Node} (isFor : bc.IsFor node) (cbuf : List Nat)
    (cbuf_type : CbufType)
    (advance : (Node.capture node).LoopsAdvance (execContext u bc cbuf cbuf_type) false 0)
    {cptr : Nat} (inside : cptr ≤ cbuf.length) :
    ∃ result, CopyingExec (execContext u bc cbuf cbuf_type)
        (initialSlots bc.capture_count bc.stack_size) bc.bodyPc cptr result ∧
      OffersResult (initialSlots bc.capture_count bc.stack_size)
        ((Node.capture node).outs (execContext u bc cbuf cbuf_type) false 0
          ⟨cptr, (initialSlots bc.capture_count bc.stack_size).capture⟩) result := by
  obtain ⟨-, -, -, hsize, -⟩ := lreCompile_emit h
  have closed := lreCompile_closed h
  obtain ⟨-, bounded⟩ := computeStackSizeLoop_spec (le_refl 0) hsize
    (fun front back split => by simpa using depth_nonneg closed split)
  generalize hfront : (if bc.flags.sticky then [] else searchPrefix) = front at *
  have code : bc.code = front ++ (Node.capture node).emit false 0 ++ [.match] := by
    rw [← hfront]
    exact isFor.code
  have frontSize : codeSize front = bc.bodyPc := by
    rw [← hfront, REByteCode.bodyPc]
    split <;> rfl
  have frontDepth : depth front = 0 := by
    rw [← hfront]
    split <;> rfl
  have room : peak ((Node.capture node).emit false 0) ≤ bc.stack_size := by
    refine peak_le_of_depth fun inner rest split => ?_
    have bound := bounded (front ++ inner) (rest ++ [.match]) (by rw [code, split]; simp)
    rw [depth_append, frontDepth] at bound
    omega
  have piece := @Node.piece (execContext u bc cbuf cbuf_type)
    (initialSlots bc.capture_count bc.stack_size) bc.stack_size (.capture node) false 0
    (by rw [Nat.zero_add]; exact Nat.le_of_eq isFor.captures.symm) advance
  have valid : Valid (execContext u bc cbuf cbuf_type)
      ⟨cptr, (initialSlots bc.capture_count bc.stack_size).capture⟩ :=
    ⟨inside, List.length_replicate⟩
  have offers := piece.runs (codeSize front) ⟨front, [.match], code, rfl⟩ [] _ valid
    (by simpa using room) (copyStart (initialSlots bc.capture_count bc.stack_size) (codeSize front) cptr)
    ⟨rfl, rfl, rfl, rfl, List.length_replicate, List.nil_prefix⟩
  have fetched : fetch bc.code (codeSize front + codeSize ((Node.capture node).emit false 0)) =
      some .match := by
    rw [code, ← codeSize_append]
    exact fetch_middle _ [] _
  obtain ⟨result, run, offered⟩ := Offers.returns fetched offers
  refine ⟨result, ?_, offered⟩
  rw [← frontSize]
  cases run with
  | goOn run => exact run

/-- The run of the whole code, with the search prefix. -/
theorem prefix_returns (nonsticky : flags.sticky = false) {node : Node} (isFor : bc.IsFor node)
    (cbuf : List Nat) (cbuf_type : CbufType)
    (advance : (Node.capture node).LoopsAdvance (execContext u bc cbuf cbuf_type) false 0)
    {cptr : Nat} (inside : cptr ≤ cbuf.length) :
    ∃ slots, CopyingExec (execContext u bc cbuf cbuf_type)
        (initialSlots bc.capture_count bc.stack_size) 0 cptr (.match slots) ∨
      CopyingExec (execContext u bc cbuf cbuf_type)
        (initialSlots bc.capture_count bc.stack_size) 0 cptr (.noMatch slots) := by
  have searchable := (lreCompile_searchable h nonsticky cbuf cbuf_type).searchPrefix
  have bodyPc : bc.bodyPc = RE_SEARCH_PREFIX_LEN := by
    obtain ⟨-, -, -, -, same⟩ := lreCompile_emit h
    rw [REByteCode.bodyPc, same, nonsticky, if_neg Bool.false_ne_true]
  generalize gap : cbuf.length - cptr = n
  induction n using Nat.strongRecOn generalizing cptr with
  | ind n ih =>
      obtain ⟨result, run, offers⟩ := body_returns h isFor cbuf cbuf_type advance inside
      rw [bodyPc] at run
      obtain ⟨m, rfl⟩ | rfl := offers.cases_result
      · exact ⟨m, .inl ((prefixRun_iff searchable _ _).mpr (.here run (by rintro m ⟨⟩)))⟩
      · by_cases more : cptr < cbuf.length
        · have bounds := @getChar_bounds (execContext u bc cbuf cbuf_type) cptr more
          obtain ⟨slots, found | failed⟩ := ih _ (by
            have := bounds.1
            omega) bounds.2 rfl
          · exact ⟨slots, .inl ((prefixRun_iff searchable _ _).mpr (.next run more found))⟩
          · exact ⟨slots, .inr ((prefixRun_iff searchable _ _).mpr (.next run more failed))⟩
        · exact ⟨_, .inr ((prefixRun_iff searchable _ _).mpr
            (.exhausted run (Nat.le_of_not_lt more) rfl))⟩

/-- Sticky code has no search prefix. -/
theorem sticky_noPrefix (sticky : flags.sticky = true) : lreHasSearchPrefix bc.code = false := by
  obtain ⟨node, code, -⟩ := lreCompile_emit h
  rw [code, sticky, if_pos rfl]
  rfl

end

/-- A match of a pattern whose loops advance reaches a result, when the stack can grow. -/
theorem lreExec_terminates (h : lreCompile u buf flags = .ok bc) :
    (∃ node, bc.IsFor node) ∧
      ∀ node, bc.IsFor node → ∀ (cbuf : List Nat) (cbuf_type : CbufType) (cindex : Nat),
        cindex ≤ cbuf.length → (cbuf_type = .bits8 → ∀ unit ∈ cbuf, unit ≤ 0xff) →
        (Node.capture node).LoopsAdvance (execContext u bc cbuf cbuf_type) false 0 →
        ∃ slots, LreExec u bc cbuf cbuf_type cindex (fun _ => true) (.match slots) ∨
          LreExec u bc cbuf cbuf_type cindex (fun _ => true) (.noMatch slots) := by
  refine ⟨lreCompile_isFor h, fun node isFor cbuf cbuf_type cindex inside narrow advance => ?_⟩
  have noRefusal : ∀ result, ¬GaveUp (fun _ => true) result := by
    rintro result ⟨-, n, refused⟩
    cases refused
  cases sticky : flags.sticky with
  | true =>
      obtain ⟨result, run, offers⟩ := body_returns h isFor cbuf cbuf_type advance inside
      have bodyPc : bc.bodyPc = 0 := by
        obtain ⟨-, -, -, -, same⟩ := lreCompile_emit h
        rw [REByteCode.bodyPc, same, sticky, if_pos rfl]
      rw [bodyPc] at run
      have exec : LreExec u bc cbuf cbuf_type cindex (fun _ => true) result := by
        unfold LreExec
        rw [sticky_noPrefix h sticky, if_neg Bool.false_ne_true]
        exact (backtrack_of_copying (fun _ => true) staticStackBuf run).resolve_right
          fun gaveUp => noRefusal .noMemory ⟨rfl, gaveUp.2⟩
      obtain ⟨m, rfl⟩ | rfl := offers.cases_result
      · exact ⟨m, .inl exec⟩
      · exact ⟨_, .inr exec⟩
  | false =>
      have searchable := lreCompile_searchable h sticky cbuf cbuf_type
      have narrow' : (execContext u bc cbuf cbuf_type).cbuf_type = .bits8 →
          ∀ unit ∈ cbuf, unit ≤ 0xff := by
        intro type
        refine narrow ?_
        dsimp only [execContext] at type
        split at type
        · cases type
        · exact type
      have exec : ∀ result, CopyingExec (execContext u bc cbuf cbuf_type)
          (initialSlots bc.capture_count bc.stack_size) 0 cindex result →
          LreExec u bc cbuf cbuf_type cindex (fun _ => true) result := by
        intro result run
        obtain ⟨result', search, rfl | gaveUp⟩ :=
          @search_of_copying _ _ _ (fun _ => true) narrow' _ searchable staticStackBuf run
        · unfold LreExec
          rw [show lreHasSearchPrefix bc.code = true from searchable.searchPrefix, if_pos rfl]
          exact search
        · exact absurd gaveUp (noRefusal _)
      obtain ⟨slots, found | failed⟩ := prefix_returns h sticky isFor cbuf cbuf_type advance inside
      · exact ⟨slots, .inl (exec _ found)⟩
      · exact ⟨slots, .inr (exec _ failed)⟩

/-- The code of `(?:a|)*b`. -/
def optionalChars : REByteCode where
  flags := ⟨false, false, false, false, false⟩
  capture_count := 1
  stack_size := 1
  code := searchPrefix ++ [.save_start 0, .split_next_first 19, .push_char_pos, .split_next_first 8,
    .char 97, .goto 0, .bne_char_pos (-24), .char 98, .save_end 0, .match]
  group_names := none

theorem lreCompile_optionalChars :
    lreCompile UnicodeData.ascii ['(', '?', ':', 'a', '|', ')', '*', 'b']
      ⟨false, false, false, false, false⟩ = .ok optionalChars := by
  decide +kernel

def charNode (c : Nat) (h : c ≤ 0xffff) : Node :=
  .charTest (.char c) ⟨rfl, by rintro _ ⟨⟩; exact h⟩

theorem optionalChars_isFor : optionalChars.IsFor
    (.seq (.quant (.alt (charNode 97 (by decide)) .empty) 0 INT32_MAX ⟨Nat.zero_le _, le_refl _⟩ true)
      (charNode 98 (by decide))) :=
  ⟨rfl, rfl⟩

theorem lreExec_terminates_optionalChars :
    ∃ slots, LreExec UnicodeData.ascii optionalChars [97, 97] .bits8 0 (fun _ => true) (.match slots) ∨
      LreExec UnicodeData.ascii optionalChars [97, 97] .bits8 0 (fun _ => true) (.noMatch slots) := by
  refine (lreExec_terminates lreCompile_optionalChars).2 _ optionalChars_isFor [97, 97] .bits8 0
    (Nat.zero_le _) (by decide) ?_
  refine ⟨⟨⟨trivial, trivial⟩, fun _ unchecked => ?_⟩, trivial⟩
  obtain lazy | minus := unchecked
  · cases lazy
  · exact absurd minus (by decide)

/-- The code of `(?:)*?x` with the sticky flag. -/
def lazyEmpty : REByteCode where
  flags := ⟨false, false, false, false, true⟩
  capture_count := 1
  stack_size := 0
  code := [.save_start 0, .split_goto_first 5, .goto (-10), .char 120, .save_end 0, .match]
  group_names := none

inductive LazyEmptyState : CopyState → Prop where
  | start : LazyEmptyState ⟨0, 0, 0, initialSlots 1 0, []⟩
  | split : LazyEmptyState ⟨2, 0, 0, ⟨[.ptr 0, .null], []⟩, []⟩
  | leave : LazyEmptyState ⟨12, 0, 0, ⟨[.ptr 0, .null], []⟩,
      [⟨.split, 7, 0, 0, ⟨[.ptr 0, .null], []⟩⟩]⟩
  | again : LazyEmptyState ⟨7, 0, 0, ⟨[.ptr 0, .null], []⟩, []⟩

/-- The lazy loop over an atom that matches the empty string never ends. -/
theorem lreExec_diverges :
    lreCompile UnicodeData.ascii ['(', '?', ':', ')', '*', '?', 'x']
        ⟨false, false, false, false, true⟩ = .ok lazyEmpty ∧
      ∀ result, ¬LreExec UnicodeData.ascii lazyEmpty [] .bits8 0 (fun _ => true) result := by
  refine ⟨by decide +kernel, fun result exec => ?_⟩
  have run : LreExecBacktrack (execContext UnicodeData.ascii lazyEmpty [] .bits8) (fun _ => true)
      (initialSlots 1 0) staticStackBuf 0 0 result := exec
  obtain copied | ⟨-, n, refused⟩ := copying_of_backtrack run
  · refine @not_returns_of_kept _ _ _ _ LazyEmptyState ?_ .start result copied
    intro s state
    cases state with
    | start => exact ⟨_, rfl, .split⟩
    | split => exact ⟨_, rfl, .leave⟩
    | leave => exact ⟨_, rfl, .again⟩
    | again => exact ⟨_, rfl, .split⟩
  · cases refused

end PrimJs.Regexp
