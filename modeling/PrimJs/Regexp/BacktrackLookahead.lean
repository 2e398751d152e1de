import PrimJs.Regexp.BacktrackRefines

/-! A lookahead that matches: its inner frames go, their undo records stay. -/

namespace PrimJs.Regexp

open UndoLog Stepping

variable {x : ExecContext} {alloc : Nat → Bool} {base : Slots}

/-! ### The innermost lookahead -/

def Inner (inner : List LogFrame) : Prop := ∀ f ∈ inner, f.kind.isLookahead = false

/-- The frames either hold no lookahead, or split at the innermost one. -/
theorem innermost (fs : List LogFrame) :
    (enclosingLookahead (copied fs) = none ∧ lookaheadEnd fs = 0) ∨
      ∃ inner f outer, fs = inner ++ f :: outer ∧ Inner inner ∧ f.kind.isLookahead = true ∧
        enclosingLookahead (copied fs) = some (f.toCopyFrame, copied outer) ∧
        lookaheadEnd fs = frameEnd (f :: outer) := by
  induction fs with
  | nil => exact .inl ⟨rfl, rfl⟩
  | cons f fs ih =>
      cases kind : f.kind.isLookahead with
      | true =>
          refine .inr ⟨[], f, fs, rfl, by simp [Inner], kind, ?_, ?_⟩
          · simp [copied, enclosingLookahead, kind]
          · rw [lookaheadEnd, if_pos kind]
      | false =>
          obtain ⟨none_, zero⟩ | ⟨inner, g, outer, rfl, hinner, hg, found, ends⟩ := ih
          · refine .inl ⟨?_, ?_⟩
            · simpa [copied, enclosingLookahead, kind] using none_
            · rw [lookaheadEnd, kind, if_neg (by decide), zero]
          · refine .inr ⟨f :: inner, g, outer, rfl, ?_, hg, ?_, ?_⟩
            · intro h member
              obtain rfl | later := List.mem_cons.mp member
              · exact kind
              · exact hinner h later
            · simpa [copied, enclosingLookahead, kind] using found
            · rw [lookaheadEnd, kind, if_neg (by decide), ends]

theorem frameEnd_le_append (inner outer : List LogFrame) :
    frameEnd outer ≤ frameEnd (inner ++ outer) := by
  induction inner with
  | nil => exact Nat.le_refl _
  | cons g inner ih =>
      rw [List.cons_append, frameEnd]
      omega

theorem frameEnd_lt (g : LogFrame) (inner outer : List LogFrame) :
    frameEnd outer < frameEnd (g :: (inner ++ outer)) := by
  have below := frameEnd_le_append inner outer
  rw [frameEnd.eq_def (g :: (inner ++ outer)), FRAME_SIZE]
  exact Nat.lt_succ_of_le (by omega)

theorem lookaheadEnd_inner {inner : List LogFrame} (hinner : Inner inner) {f : LogFrame}
    {outer : List LogFrame} (lookahead : f.kind.isLookahead = true) :
    lookaheadEnd (inner ++ f :: outer) = frameEnd (f :: outer) := by
  induction inner with
  | nil => rw [List.nil_append, lookaheadEnd, if_pos lookahead]
  | cons g inner ih =>
      have kind := hinner g List.mem_cons_self
      rw [List.cons_append, lookaheadEnd, kind, if_neg (by decide)]
      exact ih fun h member => hinner h (List.mem_cons_of_mem _ member)

/-- The frame at `la`, wherever it is in the stack. -/
theorem Represents.readLookahead {s : ExecState} {top : List UndoRecord} {inner : List LogFrame}
    {f : LogFrame} {outer : List LogFrame} (represents : Represents s top (inner ++ f :: outer)) :
    Regexp.readFrame s.stack_buf (frameEnd (f :: outer)) = some {
      pc := f.pc
      cptr := f.cptr
      prev_bp := frameEnd outer
      type := f.kind.type
      stack_len := f.stack_len
      extra := f.kind.extra (lookaheadEnd outer) } := by
  obtain ⟨junk, stack⟩ := represents.stack
  have split : ∃ back, layout (inner ++ f :: outer) = layout (f :: outer) ++ back := by
    clear represents stack
    induction inner with
    | nil => exact ⟨[], by simp⟩
    | cons g inner ih =>
        obtain ⟨back, eq⟩ := ih
        exact ⟨_, by rw [List.cons_append, layout, eq, List.append_assoc, List.append_assoc]⟩
  obtain ⟨back, eq⟩ := split
  rw [stack, eq, List.append_assoc, List.append_assoc]
  exact readFrame_layout f outer _

/-! ### Unlinking -/

theorem FrameKind.extra_of_isLookahead {kind : FrameKind} (h : kind.isLookahead = true) (la : Nat) :
    kind.extra la = la := by
  cases kind with
  | lookahead | negative_lookahead => rfl
  | split | greedy_quant count => cases h

/-- Unlinked frames from the position `start` on, each with the end of the records above it, and
these records. -/
inductive Unlinked : (start : Nat) → (stack records : List StackElem) → Prop where
  | nil (start : Nat) : Unlinked start [] []
  | cons {start : Nat} {stack records : List StackElem} (header above : List StackElem)
      (size : header.length = 4) (later : Unlinked (start + FRAME_SIZE + above.length) stack records) :
      Unlinked start
        (header ++ .val (start + FRAME_SIZE + above.length) :: above ++ stack) (above ++ records)

/-- `FRAME_EXTRA` of the newest frame is overwritten. -/
theorem set_extra (g : LogFrame) (gs : List LogFrame) (rest : List StackElem) (e : StackElem) :
    ∃ header : List StackElem, header.length = 4 ∧
      (layout (g :: gs) ++ rest).set (frameEnd (g :: gs) - 1) e =
        layout gs ++ recordElems g.below ++ (header ++ e :: rest) := by
  refine ⟨[.ptr g.pc, .ptr g.cptr, .val (frameEnd gs), .state g.kind.type g.stack_len], rfl, ?_⟩
  have at_ : frameEnd (g :: gs) - 1 = (layout gs ++ recordElems g.below).length + 4 := by
    simp [frameEnd, FRAME_SIZE]
  have write := set_after (layout gs ++ recordElems g.below)
    (frameElems g.toCopyFrame (frameEnd gs) (lookaheadEnd gs) ++ rest) 4 e
  rw [layout, List.append_assoc, at_, write]
  rfl

/-- The frames down to the lookahead's are unlinked. -/
theorem unlinkFrames_spec {inner : List LogFrame} {f : LogFrame} {outer : List LogFrame}
    (lookahead : f.kind.isLookahead = true) (fuel : Nat)
    (enough : inner.length < fuel) {s : ExecState} {top : List UndoRecord}
    {tail records junk : List StackElem}
    (stack : s.stack_buf = layout (inner ++ f :: outer) ++ recordElems top ++ tail ++ junk)
    (sp : s.sp = frameEnd (inner ++ f :: outer) + 2 * top.length)
    (bp : s.bp = frameEnd (inner ++ f :: outer)) (unlinked : Unlinked s.sp tail records) :
    ∃ t tail', unlinkFrames (frameEnd (f :: outer)) fuel s = .ok t ∧
      t = { s with
        pc := f.pc
        cptr := f.cptr
        stack_len := f.stack_len
        stack_buf := layout outer ++ recordElems f.below ++ tail' ++ junk
        sp := frameEnd outer + 2 * f.below.length
        bp := frameEnd outer
        la := lookaheadEnd outer } ∧
      t.sp + tail'.length = s.sp + tail.length ∧
      Unlinked t.sp tail' (recordElems (top ++ inner.flatMap LogFrame.below) ++ records) := by
  induction inner generalizing fuel s top tail records with
  | nil =>
      obtain ⟨fuel, rfl⟩ := Nat.exists_eq_succ_of_ne_zero (Nat.ne_of_gt (Nat.zero_lt_of_lt enough))
      rw [List.nil_append] at stack sp bp
      obtain ⟨header, size, written⟩ :=
        set_extra f outer (recordElems top ++ tail ++ junk) (.val s.sp)
      have frame := readFrame_layout f outer (recordElems top ++ tail ++ junk)
      simp only [← List.append_assoc] at frame written
      rw [← stack, ← bp] at frame written
      refine ⟨_, header ++ .val s.sp :: recordElems top ++ tail, ?_, rfl, ?_, ?_⟩
      · rw [unlinkFrames, frame]
        simp only [if_pos bp, written, FrameKind.extra_of_isLookahead lookahead]
        simp [bp, frameEnd]
      · simp only [List.length_append, List.length_cons, size, recordElems_length, sp, frameEnd,
          FRAME_SIZE]
        omega
      · have top_end : s.sp = frameEnd outer + 2 * f.below.length + FRAME_SIZE +
            (recordElems top).length := by
          rw [sp, frameEnd, recordElems_length]
        have cons := Unlinked.cons header (recordElems top) size (top_end ▸ unlinked)
        rw [← top_end] at cons
        simpa using cons
  | cons g inner ih =>
      obtain ⟨fuel, rfl⟩ := Nat.exists_eq_succ_of_ne_zero (Nat.ne_of_gt (Nat.zero_lt_of_lt enough))
      rw [List.cons_append] at stack sp bp
      obtain ⟨header, size, written⟩ :=
        set_extra g (inner ++ f :: outer) (recordElems top ++ tail ++ junk) (.val s.sp)
      have frame := readFrame_layout g (inner ++ f :: outer) (recordElems top ++ tail ++ junk)
      simp only [← List.append_assoc] at frame written
      rw [← stack, ← bp] at frame written
      have above : s.bp ≠ frameEnd (f :: outer) := by
        rw [bp]
        exact Nat.ne_of_gt (frameEnd_lt g inner (f :: outer))
      have top_end : s.sp = s.bp - FRAME_SIZE + FRAME_SIZE + (recordElems top).length := by
        rw [sp, bp, frameEnd, recordElems_length, Nat.add_sub_cancel]
      have cons := Unlinked.cons header (recordElems top) size (top_end ▸ unlinked)
      rw [← top_end] at cons
      rw [List.length_cons] at enough
      obtain ⟨t, tail', run, rfl, length, unlinked'⟩ := @ih fuel (by omega)
        { s with
          sp := s.bp - FRAME_SIZE
          bp := frameEnd (inner ++ f :: outer)
          stack_buf := s.stack_buf.set (s.bp - 1) (.val s.sp) }
        g.below _ _ (by rw [written]; simp) (by rw [bp, frameEnd, Nat.add_sub_cancel]) rfl cons
      refine ⟨_, tail', ?_, rfl, ?_, ?_⟩
      · rw [unlinkFrames, frame]
        simp only [if_neg above]
        exact run
      · rw [length]
        simp only [List.length_append, List.length_cons, size, recordElems_length, sp, bp, frameEnd,
          FRAME_SIZE]
        omega
      · rw [List.flatMap_cons, recordElems_append top, List.append_assoc (recordElems _)]
        exact unlinked'

/-- The records between unlinked frames move down over `gap`. -/
theorem compactRecords_spec {start : Nat} {stack records : List StackElem}
    (unlinked : Unlinked start stack records) (fuel : Nat) (enough : stack.length < fuel)
    {s : ExecState} {front gap junk : List StackElem}
    (buf : s.stack_buf = front ++ gap ++ stack ++ junk) (sp : s.sp = front.length)
    (at_ : start = front.length + gap.length) :
    ∃ junk', compactRecords (start + stack.length) fuel start s =
      .ok { s with stack_buf := front ++ records ++ junk', sp := front.length + records.length } := by
  induction unlinked generalizing fuel s front gap with
  | nil start =>
      obtain ⟨fuel, rfl⟩ := Nat.exists_eq_succ_of_ne_zero (Nat.ne_of_gt (Nat.zero_lt_of_lt enough))
      refine ⟨gap ++ junk, ?_⟩
      rw [compactRecords, if_neg (by simp)]
      simp only [List.append_nil, List.append_assoc, List.length_nil, Nat.add_zero] at buf ⊢
      rw [← sp, ← buf]
  | @cons start stack records header above size later ih =>
      obtain ⟨fuel, rfl⟩ := Nat.exists_eq_succ_of_ne_zero (Nat.ne_of_gt (Nat.zero_lt_of_lt enough))
      have read : s.stack_buf[start + 4]? = some (.val (start + FRAME_SIZE + above.length)) := by
        have here := getElem?_after (front ++ gap ++ header)
          (.val (start + FRAME_SIZE + above.length) :: above ++ stack ++ junk) 0
        have place : start + 4 = (front ++ gap ++ header).length + 0 := by
          simp only [List.length_append, size, at_, Nat.add_zero]
        rw [List.cons_append, List.cons_append, List.getElem?_cons_zero] at here
        rw [place, buf]
        simpa only [List.append_assoc, List.cons_append] using here
      have gap_size : (gap ++ (header ++ [StackElem.val (start + FRAME_SIZE + above.length)])).length =
          gap.length + FRAME_SIZE := by
        simp [size, FRAME_SIZE]
      obtain ⟨gap', same, moved⟩ := moveDown_eq above front
        (gap ++ (header ++ [.val (start + FRAME_SIZE + above.length)])) (stack ++ junk) (by simp)
      have from_ : front.length + (gap ++ (header ++ [StackElem.val (start + FRAME_SIZE +
          above.length)])).length = start + FRAME_SIZE := by
        rw [gap_size, at_, Nat.add_assoc]
      have joined : front ++ (gap ++ (header ++ [StackElem.val (start + FRAME_SIZE + above.length)])) ++
          above ++ (stack ++ junk) = s.stack_buf := by
        rw [buf]
        simp
      rw [from_, joined] at moved
      have top_ : start + (header ++ .val (start + FRAME_SIZE + above.length) :: above ++ stack).length =
          start + FRAME_SIZE + above.length + stack.length := by
        simp only [List.length_append, List.length_cons, size, FRAME_SIZE]
        omega
      obtain ⟨junk', run⟩ := @ih fuel (by
          simp only [List.length_append, List.length_cons, size] at enough
          omega)
        { s with
          stack_buf := front ++ above ++ gap' ++ (stack ++ junk)
          sp := s.sp + above.length }
        (front ++ above) gap' (by simp) (by simp [sp])
        (by rw [List.length_append, same, gap_size, at_]; omega)
      refine ⟨junk', ?_⟩
      rw [compactRecords, if_pos (by rw [top_, FRAME_SIZE]; omega), read]
      simp only [Nat.add_sub_cancel_left, top_]
      rw [← sp] at moved
      rw [moved]
      exact run.trans (by simp [Nat.add_assoc])

theorem marks_flatMap (fs : List LogFrame) :
    (marks fs).flatMap Prod.fst = fs.flatMap LogFrame.below := by
  simp [marks, List.flatMap_map]

/-! ### The instruction `match` -/

section

variable {s : ExecState} {top : List UndoRecord} {inner outer : List LogFrame} {f : LogFrame}

/-- A lookahead that matched leaves the frames outside it, with all the undo records. -/
theorem matched_lookahead (holds : Holds base s top (inner ++ f :: outer)) (hinner : Inner inner)
    (kind : f.kind = .lookahead) :
    ∃ t, matched x s = .ok t ∧ t.pc = f.pc ∧ t.cptr = f.cptr ∧ t.stack_len = f.stack_len ∧
      t.slots = s.slots ∧ Holds base t (top ++ inner.flatMap LogFrame.below ++ f.below) outer := by
  have lookahead : f.kind.isLookahead = true := by rw [kind]; rfl
  have represents := holds.represents
  have la : s.la = frameEnd (f :: outer) := represents.la.trans (lookaheadEnd_inner hinner lookahead)
  have nonzero : s.la ≠ 0 := by
    rw [la]
    exact Nat.ne_of_gt (frameEnd_cons_pos f outer)
  obtain ⟨junk, stack⟩ := represents.stack
  have few : inner.length < s.sp + 1 := by
    have bound := length_le_frameEnd (inner ++ f :: outer)
    rw [List.length_append] at bound
    have := represents.sp
    omega
  obtain ⟨t, tail, unlinkRun, ht, length, unlinked⟩ := @unlinkFrames_spec _ _ _ lookahead (s.sp + 1) few _ _
    [] [] junk (by rw [stack]; simp) represents.sp represents.bp (.nil s.sp)
  have front_end : t.sp = (layout outer ++ recordElems f.below).length := by
    rw [ht]
    simp
  have sp_top : t.sp + tail.length = s.sp := length
  obtain ⟨junk', compactRun⟩ := @compactRecords_spec _ _ _ unlinked (s.sp + 1) (by omega)
    _ _ [] junk (by rw [ht]; simp) front_end front_end
  rw [← la] at unlinkRun
  rw [sp_top] at compactRun
  have read := represents.readLookahead
  rw [← la, kind] at read
  have run := compactRun
  rw [← show matched x s = compactRecords s.sp (s.sp + 1) t.sp t by
    rw [matched, if_neg nonzero, read]
    simp only [FrameKind.type, if_true, unlinkRun]
    rfl] at run
  refine ⟨_, run, by rw [ht], by rw [ht], by rw [ht], by rw [ht], ⟨⟨junk', ?_⟩, ?_, by rw [ht],
    by rw [ht]⟩, ?_⟩
  · simp [recordElems_append]
  · simp only [List.length_append, recordElems_length, layout_length, List.append_nil]
    omega
  · have copies := holds.copies
    have split : marks (inner ++ f :: outer) = marks (inner ++ [f]) ++ marks outer := by
      simp [marks]
    rw [split] at copies
    have forgotten := copies.forgetAll
    rw [marks_flatMap, List.flatMap_append, ← List.append_assoc] at forgotten
    simpa [ht] using forgotten

/-- A negative lookahead that matched leaves the frames outside it, with the slots it began with. -/
theorem unwindFrames_spec (holds : Holds base s top (inner ++ f :: outer)) (hinner : Inner inner)
    (lookahead : f.kind.isLookahead = true) (fuel : Nat) (enough : inner.length < fuel) :
    ∃ t, unwindFrames (frameEnd (f :: outer)) fuel s = .ok t ∧ Holds base t f.below outer := by
  induction inner generalizing s top fuel with
  | nil =>
      obtain ⟨fuel, rfl⟩ := Nat.exists_eq_succ_of_ne_zero (Nat.ne_of_gt (Nat.zero_lt_of_lt enough))
      obtain ⟨undone, holds'⟩ := Holds.undo holds
      have frame := holds'.represents.readFrame
      simp only at frame
      refine ⟨_, ?_, holds'.pop (t := { s with
        slots := f.saved
        sp := s.bp - FRAME_SIZE
        bp := frameEnd outer
        la := lookaheadEnd outer }) rfl rfl rfl rfl rfl⟩
      rw [unwindFrames, undone]
      simp only [bind, Except.bind, frame, if_pos (show s.bp = frameEnd (f :: outer) from
        holds.represents.bp), FrameKind.extra_of_isLookahead lookahead]
  | cons g inner ih =>
      obtain ⟨fuel, rfl⟩ := Nat.exists_eq_succ_of_ne_zero (Nat.ne_of_gt (Nat.zero_lt_of_lt enough))
      obtain ⟨undone, holds'⟩ := Holds.undo holds
      have frame := holds'.represents.readFrame
      simp only at frame
      have above : s.bp ≠ frameEnd (f :: outer) := by
        rw [holds.represents.bp]
        exact Nat.ne_of_gt (frameEnd_lt g inner (f :: outer))
      have kind := hinner g List.mem_cons_self
      have la : s.la = lookaheadEnd (inner ++ f :: outer) := by
        have here := holds.represents.la
        rwa [List.cons_append, lookaheadEnd, kind, if_neg (by decide)] at here
      rw [List.length_cons] at enough
      obtain ⟨t, run, holds''⟩ := ih
        (holds'.pop (t := { s with
          slots := g.saved
          sp := s.bp - FRAME_SIZE
          bp := frameEnd (inner ++ f :: outer) }) rfl rfl rfl rfl la)
        (fun h member => hinner h (List.mem_cons_of_mem _ member)) fuel (by omega)
      refine ⟨t, ?_, holds''⟩
      rw [unwindFrames, undone]
      simp only [bind, Except.bind, frame, if_neg above]
      exact run

end

/-- Both machines succeed alike. -/
theorem matched_agrees {s : ExecState} {r : CopyState} (refines : Refines base s r) :
    Agree alloc base (matched x s) (succeed x base r) := by
  obtain ⟨top, fs, holds, frames⟩ := refines.holds
  rw [succeed, frames]
  obtain ⟨none_, zero⟩ | ⟨inner, f, outer, rfl, hinner, lookahead, found, ends⟩ := innermost fs
  · rw [none_, matched, if_pos (holds.represents.la.trans zero)]
    exact .stopped (congrArg _ refines.slots)
  · rw [found]
    by_cases kind : f.kind = .lookahead
    · obtain ⟨t, run, pc, cptr, stack_len, slots, holds'⟩ := matched_lookahead (x := x) holds hinner kind
      simp only [run, if_pos kind]
      exact .goOn ⟨pc, cptr, stack_len, slots.trans refines.slots, _, outer, holds', rfl⟩
    · have la : s.la = frameEnd (f :: outer) := holds.represents.la.trans ends
      have nonzero : s.la ≠ 0 := by
        rw [la]
        exact Nat.ne_of_gt (frameEnd_cons_pos f outer)
      have few : inner.length < s.sp + 1 := by
        have bound := length_le_frameEnd (inner ++ f :: outer)
        rw [List.length_append] at bound
        have := holds.represents.sp
        omega
      obtain ⟨t, run, holds'⟩ := unwindFrames_spec holds hinner lookahead (s.sp + 1) few
      have type : f.kind.type ≠ .lookahead := by
        cases h : f.kind with
        | lookahead => exact absurd h kind
        | negative_lookahead => simp [FrameKind.type]
        | split | greedy_quant count =>
            rw [h] at lookahead
            cases lookahead
      rw [matched, if_neg nonzero, la, holds.represents.readLookahead]
      simp only [if_neg type, if_neg kind, run, bind, Except.bind]
      refine noMatch_agrees _ holds' ?_
      have := length_le_frameEnd outer
      have := holds'.represents.sp
      omega

/-! ### Steps and runs -/

theorem execStep_agrees {s : ExecState} {r : CopyState} (refines : Refines base s r) :
    Agree alloc base (execStep x alloc s) (copyStep x base r) := by
  obtain ⟨top, fs, holds, frames⟩ := refines.holds
  rw [execStep, copyStep, ← refines.slots, ← refines.stack_len, ← refines.pc, ← refines.cptr]
  cases action x s.slots s.stack_len s.pc s.cptr with
  | stuck => exact .stopped rfl
  | noMatch =>
      rw [frames]
      refine noMatch_agrees _ holds ?_
      have := length_le_frameEnd fs
      have := holds.represents.sp
      omega
  | goOn pc cptr =>
      exact .goOn ⟨rfl, rfl, rfl, rfl, top, fs,
        ⟨⟨holds.represents.stack, holds.represents.sp, holds.represents.bp, holds.represents.la⟩,
          holds.copies⟩, frames⟩
  | write writes pc stack_len =>
      obtain ⟨result, refused, gaveUp⟩ | ⟨refused, none_⟩ | ⟨t, top', saved, holds', some_, cptr⟩ :=
        @saveSlots_spec alloc _ _ _ _ writes holds
      · simp only [refused, bind, Except.bind]
        exact .aborted gaveUp
      · simp only [refused, none_, bind, Except.bind]
        exact .stopped rfl
      · simp only [saved, some_, bind, Except.bind]
        exact .goOn ⟨rfl, cptr, rfl, rfl, top', fs,
          ⟨⟨holds'.represents.stack, holds'.represents.sp, holds'.represents.bp,
            holds'.represents.la⟩, holds'.copies⟩, frames⟩
  | push kind frame_pc pc cptr =>
      obtain ⟨result, refused, gaveUp⟩ | ⟨t, f, pushed, holds', frame, slots, stack_len⟩ :=
        @pushKind_spec alloc _ _ _ _ holds kind frame_pc cptr
      · simp only [refused, bind, Except.bind]
        exact .aborted gaveUp
      · simp only [pushed, bind, Except.bind]
        refine .goOn ⟨rfl, rfl, stack_len, slots, [],
          f :: fs, ⟨⟨holds'.represents.stack, holds'.represents.sp, holds'.represents.bp,
            holds'.represents.la⟩, holds'.copies⟩, ?_⟩
        rw [copied, List.map_cons, frame, frames]
        rfl
  | matched => exact matched_agrees refines

theorem execStart_refines (slots : Slots) (stack_buf : List StackElem) (pc cptr : Nat) :
    Refines slots (execStart slots stack_buf pc cptr) (copyStart slots pc cptr) :=
  ⟨rfl, rfl, rfl, rfl, [], [], ⟨⟨⟨stack_buf, rfl⟩, rfl, rfl, rfl⟩, copies_start slots⟩, rfl⟩

theorem execStep_lockstep (x : ExecContext) (alloc : Nat → Bool) (base : Slots) :
    Lockstep (execStep x alloc) (copyStep x base) (GaveUp alloc) (Refines base) (· = ·) :=
  fun _ _ refines => execStep_agrees refines

section

variable {x : ExecContext} {alloc : Nat → Bool} {slots : Slots} {stack_buf : List StackElem}
  {pc cptr : Nat} {result : ExecResult}

theorem copying_of_backtrack (run : LreExecBacktrack x alloc slots stack_buf pc cptr result) :
    CopyingExec x slots pc cptr result ∨ GaveUp alloc result := by
  obtain gaveUp | ⟨result', run', rfl⟩ :=
    (execStep_lockstep x alloc slots).returns (execStart_refines slots stack_buf pc cptr) run
  · exact .inr gaveUp
  · exact .inl run'

theorem backtrack_of_copying (alloc : Nat → Bool) (stack_buf : List StackElem)
    (run : CopyingExec x slots pc cptr result) :
    LreExecBacktrack x alloc slots stack_buf pc cptr result ∨
      LreExecBacktrack x alloc slots stack_buf pc cptr .noMemory ∧ ∃ n, alloc n = false := by
  obtain ⟨result', run', ⟨rfl, refused⟩ | rfl⟩ :=
    (execStep_lockstep x alloc slots).returns_of (execStart_refines slots stack_buf pc cptr) run
  · exact .inr ⟨run', refused⟩
  · exact .inl run'

end

/-- `lre_exec_backtrack` and the copying machine return the same result with the same captures and
counters, unless the stack runs out of memory. -/
theorem lreExecBacktrack_refines (x : ExecContext) (alloc : Nat → Bool) (slots : Slots)
    (stack_buf : List StackElem) (pc cptr : Nat) :
    (∀ result, LreExecBacktrack x alloc slots stack_buf pc cptr result →
      CopyingExec x slots pc cptr result ∨ result = .noMemory ∧ ∃ n, alloc n = false) ∧
    ∀ result, CopyingExec x slots pc cptr result →
      LreExecBacktrack x alloc slots stack_buf pc cptr result ∨
        LreExecBacktrack x alloc slots stack_buf pc cptr .noMemory ∧ ∃ n, alloc n = false :=
  ⟨fun _ run => copying_of_backtrack run, fun _ run => backtrack_of_copying alloc stack_buf run⟩

end PrimJs.Regexp
