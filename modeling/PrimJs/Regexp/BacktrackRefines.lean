import PrimJs.Regexp.BacktrackLayout

/-! `lre_exec_backtrack` refines the copying machine: they take every step together, as the undo
records above each frame stand for its copy. -/

namespace PrimJs.Regexp

open UndoLog Stepping

def marks (fs : List LogFrame) : List (List UndoRecord × Slots) :=
  fs.map fun f => (f.below, f.saved)

def copied (fs : List LogFrame) : List CopyFrame := fs.map LogFrame.toCopyFrame

/-- The stack holds the frames `fs` and the records `top`, which stand for the copies. -/
structure Holds (base : Slots) (s : ExecState) (top : List UndoRecord) (fs : List LogFrame) :
    Prop where
  represents : Represents s top fs
  copies : Copies Slots.set base top (marks fs) s.slots

/-- A state of `lre_exec_backtrack` and one of the copying machine. -/
structure Refines (base : Slots) (s : ExecState) (r : CopyState) : Prop where
  pc : s.pc = r.pc
  cptr : s.cptr = r.cptr
  stack_len : s.stack_len = r.stack_len
  slots : s.slots = r.slots
  holds : ∃ top fs, Holds base s top fs ∧ r.frames = copied fs

theorem Slots.set_same {m : Slots} {slot : Slot} {old : Word} (read : m.get? slot = some old) :
    m.set slot old = m := by
  cases slot with
  | capture i =>
      obtain ⟨bound, rfl⟩ := List.getElem?_eq_some_iff.mp (show m.capture[i]? = some old from read)
      simp only [Slots.set, List.set_getElem_self]
  | counter i =>
      obtain ⟨bound, rfl⟩ := List.getElem?_eq_some_iff.mp (show m.stack[i]? = some old from read)
      simp only [Slots.set, List.set_getElem_self]

theorem Slots.set_get {m : Slots} {slot : Slot} {old : Word} (value : Word)
    (read : m.get? slot = some old) : (m.set slot value).set slot old = m := by
  have set_set : (m.set slot value).set slot old = m.set slot old := by
    cases slot <;> simp only [Slots.set, List.set_set]
  rw [set_set, Slots.set_same read]

section

variable {x : ExecContext} {alloc : Nat → Bool} {base : Slots} {s : ExecState}
  {top : List UndoRecord} {fs : List LogFrame}

/-! ### Writes -/

/-- A slot is set, with or without a new record. -/
theorem saveSlot_spec (holds : Holds base s top fs) {slot : Slot} {old : Word}
    (read : s.slots.get? slot = some old) (value : Word) :
    (∃ result, saveSlot alloc slot value s = .error result ∧ GaveUp alloc result) ∨
      ∃ t top', saveSlot alloc slot value s = .ok t ∧ Holds base t top' fs ∧
        t.slots = s.slots.set slot value ∧ t.cptr = s.cptr := by
  rw [saveSlot, read]
  dsimp only
  split
  · obtain ⟨result, refused, gaveUp⟩ | ⟨junk, room, granted⟩ :=
      checkStackSpace_spec alloc 2 holds.represents
    · exact .inl ⟨result, by rw [refused]; rfl, gaveUp⟩
    · rw [granted]
      exact .inr ⟨_, _, rfl,
        ⟨holds.represents.push_record slot old room _,
          holds.copies.record value (Slots.set_get value read)⟩, rfl, rfl⟩
  · next same =>
    obtain rfl := not_not.mp same
    exact .inr ⟨s, top, rfl, holds, (Slots.set_same read).symm, rfl⟩

theorem saveSlots_spec (writes : List (Slot × Word)) (holds : Holds base s top fs) :
    (∃ result, saveSlots alloc writes s = .error result ∧ GaveUp alloc result) ∨
      (saveSlots alloc writes s = .error .stuck ∧ s.slots.setAll writes = none) ∨
      ∃ t top', saveSlots alloc writes s = .ok t ∧ Holds base t top' fs ∧
        s.slots.setAll writes = some t.slots ∧ t.cptr = s.cptr := by
  induction writes generalizing s top with
  | nil => exact .inr (.inr ⟨s, top, rfl, holds, rfl, rfl⟩)
  | cons write writes ih =>
      obtain ⟨slot, value⟩ := write
      rw [saveSlots, Slots.setAll]
      cases read : s.slots.get? slot with
      | none => exact .inr (.inl ⟨by rw [saveSlot, read]; rfl, rfl⟩)
      | some old =>
          obtain ⟨result, refused, gaveUp⟩ | ⟨t, top', saved, holds', slots, cptr⟩ :=
            @saveSlot_spec alloc _ _ _ _ holds _ _ read value
          · exact .inl ⟨result, by rw [refused]; rfl, gaveUp⟩
          · rw [saved, ← slots, ← cptr]
            exact ih holds'

/-! ### Frames -/

theorem pushKind_spec (holds : Holds base s top fs) (kind : FrameKind) (pc cptr : Nat) :
    (∃ result, pushKind alloc kind pc cptr s = .error result ∧ GaveUp alloc result) ∨
      ∃ t f, pushKind alloc kind pc cptr s = .ok t ∧ Holds base t [] (f :: fs) ∧
        f.toCopyFrame = ⟨kind, pc, cptr, s.stack_len, s.slots⟩ ∧ t.slots = s.slots ∧
        t.stack_len = s.stack_len := by
  obtain ⟨result, refused, gaveUp⟩ | ⟨junk, room, granted⟩ :=
    checkStackSpace_spec alloc FRAME_SIZE holds.represents
  · refine .inl ⟨result, ?_, gaveUp⟩
    cases kind <;> simp only [pushKind, pushFrame, refused] <;> rfl
  · refine .inr ?_
    have copies : Copies Slots.set base [] ((top, s.slots) :: marks fs) s.slots :=
      holds.copies.mark
    have la := holds.represents.la
    have ends : s.sp + FRAME_SIZE =
        frameEnd (⟨⟨kind, pc, cptr, s.stack_len, s.slots⟩, top⟩ :: fs) := by
      rw [holds.represents.sp]
      rfl
    cases kind with
    | split =>
        simp only [pushKind, pushFrame, granted]
        exact ⟨_, _, rfl, ⟨holds.represents.push_frame .split pc cptr room _ _ rfl la, copies⟩, rfl,
          rfl, rfl⟩
    | lookahead =>
        simp only [pushKind, pushFrame, granted]
        exact ⟨_, _, rfl,
          ⟨holds.represents.push_frame .lookahead pc cptr room _ _ la ends, copies⟩, rfl, rfl, rfl⟩
    | negative_lookahead =>
        simp only [pushKind, pushFrame, granted]
        exact ⟨_, _, rfl,
          ⟨holds.represents.push_frame .negative_lookahead pc cptr room _ _ la ends, copies⟩, rfl,
          rfl, rfl⟩
    | greedy_quant count =>
        simp only [pushKind, pushFrame, granted]
        exact ⟨_, _, rfl,
          ⟨holds.represents.push_frame (.greedy_quant count) pc cptr room _ _ rfl la, copies⟩, rfl,
          rfl, rfl⟩

theorem Represents.top_lt (represents : Represents s top fs) : top.length < s.sp + 1 := by
  have := represents.sp
  omega

/-- Undoing down to the newest frame gives its copy back. -/
theorem Holds.undo {f : LogFrame} (holds : Holds base s top (f :: fs)) :
    undoTo s.bp (s.sp + 1) s = .ok { s with slots := f.saved, sp := frameEnd (f :: fs) } ∧
      Holds base { s with slots := f.saved, sp := frameEnd (f :: fs) } [] (f :: fs) := by
  obtain ⟨saved, copies, -⟩ := Copies.restore holds.copies
  have undone := undoTo_spec (s.sp + 1) holds.represents holds.represents.top_lt
  obtain ⟨junk, stack⟩ := holds.represents.stack
  rw [saved] at undone
  have limit : s.bp = frameEnd (f :: fs) := holds.represents.bp
  refine ⟨(congrArg (undoTo · (s.sp + 1) s) limit).trans undone, ⟨⟨recordElems top ++ junk, ?_⟩, rfl,
    holds.represents.bp, holds.represents.la⟩, copies⟩
  simpa [recordElems] using stack

theorem Holds.pop {f : LogFrame} (holds : Holds base s top (f :: fs)) {t : ExecState}
    (buf : t.stack_buf = s.stack_buf) (slots : t.slots = f.saved) (sp : t.sp = s.bp - FRAME_SIZE)
    (bp : t.bp = frameEnd fs) (la : t.la = lookaheadEnd fs) : Holds base t f.below fs :=
  ⟨holds.represents.pop buf sp bp la, slots ▸ (Copies.restore holds.copies).2.2⟩

/-! ### Failure -/

/-- The frame that a greedy quantifier keeps has a new position and a new count. -/
theorem Represents.give_back {f : LogFrame} {count : Nat} (kind : f.kind = .greedy_quant count)
    (represents : Represents s [] (f :: fs)) (cptr count' : Nat) :
    Represents { s with
        stack_buf := (s.stack_buf.set (s.bp - 4) (.ptr cptr)).set (s.bp - 1) (.val count') } []
      ({ f with kind := .greedy_quant count', cptr := cptr } :: fs) where
  stack := by
    obtain ⟨junk, stack⟩ := represents.stack
    refine ⟨junk, ?_⟩
    have ends : s.bp = (layout fs ++ recordElems f.below).length + FRAME_SIZE := by
      rw [represents.bp]
      simp [frameEnd]
    have low : s.bp - 4 = (layout fs ++ recordElems f.below).length + 1 := by
      rw [ends, FRAME_SIZE]
      omega
    have high : s.bp - 1 = (layout fs ++ recordElems f.below).length + 4 := by
      rw [ends, FRAME_SIZE]
      omega
    have write := set_after (layout fs ++ recordElems f.below)
    simp only [layout, recordElems, List.append_nil, frameElems, kind] at stack
    rw [List.append_assoc] at stack
    simp only [stack, low, high, write, List.cons_append, List.set_cons_succ, List.set_cons_zero]
    simp [layout, recordElems, frameElems, FrameKind.type, FrameKind.extra]
  sp := represents.sp
  bp := represents.bp
  la := by
    have here := represents.la
    simp only [lookaheadEnd, kind, FrameKind.isLookahead] at here ⊢
    exact here

abbrev Agree (alloc : Nat → Bool) (base : Slots) :=
  Together (GaveUp alloc) (Refines base) (· = ·)

/-- Both machines fail back to the same frame. -/
theorem noMatch_agrees (fuel : Nat) (holds : Holds base s top fs) (enough : fs.length < fuel) :
    Agree alloc base (noMatch x fuel s) (backtrack x base (copied fs)) := by
  induction fs generalizing s top fuel with
  | nil =>
      obtain ⟨fuel, rfl⟩ := Nat.exists_eq_succ_of_ne_zero (Nat.ne_of_gt (Nat.zero_lt_of_lt enough))
      have undone := undoTo_spec (s.sp + 1) holds.represents holds.represents.top_lt
      have restored : UndoLog.undo Slots.set top s.slots = base := holds.copies
      rw [frameEnd, restored] at undone
      rw [noMatch, if_pos (show s.bp = 0 from holds.represents.bp), undone]
      exact .stopped rfl
  | cons f fs ih =>
      obtain ⟨fuel, rfl⟩ := Nat.exists_eq_succ_of_ne_zero (Nat.ne_of_gt (Nat.zero_lt_of_lt enough))
      obtain ⟨undone, holds'⟩ := holds.undo
      have frame := holds'.represents.readFrame
      have nonzero : s.bp ≠ 0 := by
        rw [holds.represents.bp]
        exact Nat.ne_of_gt (frameEnd_cons_pos f fs)
      have la := holds.represents.la
      rw [noMatch, if_neg nonzero, undone]
      simp only [bind, Except.bind] at frame ⊢
      simp only [frame, copied, List.map_cons, backtrack]
      cases kind : f.kind with
      | split =>
          simp only [FrameKind.type, reduceCtorEq, if_false, ne_eq, not_true_eq_false]
          refine .goOn ⟨rfl, rfl, rfl, rfl, f.below, fs, holds'.pop rfl rfl rfl rfl ?_, rfl⟩
          simpa [lookaheadEnd, kind, FrameKind.isLookahead] using la
      | negative_lookahead =>
          simp only [FrameKind.type, reduceCtorEq, if_false, ne_eq, not_false_eq_true, if_true]
          exact .goOn ⟨rfl, rfl, rfl, rfl, f.below, fs, holds'.pop rfl rfl rfl rfl rfl, rfl⟩
      | lookahead =>
          simp only [FrameKind.type, reduceCtorEq, if_false, ne_eq, not_false_eq_true, if_true]
          refine ih fuel (holds'.pop rfl rfl rfl rfl rfl) ?_
          rw [List.length_cons] at enough
          omega
      | greedy_quant count =>
          simp only [FrameKind.type, FrameKind.extra, if_true]
          cases greedyOperands x f.pc with
          | none => exact .stopped rfl
          | some operands =>
              obtain ⟨pc, char_count⟩ := operands
              have kept := holds'.represents.give_back kind (giveBack x char_count f.cptr) (count - 1)
              change Agree alloc base (.ok (if count - 1 = 0 then _ else _))
                (.ok ⟨_, _, _, _, if count - 1 = 0 then _ else _⟩)
              split
              · -- the last match is given back: the frame goes
                have popped : Holds base { s with
                    pc := pc
                    cptr := giveBack x char_count f.cptr
                    stack_len := f.stack_len
                    slots := f.saved
                    stack_buf := (s.stack_buf.set (s.bp - 4)
                      (.ptr (giveBack x char_count f.cptr))).set (s.bp - 1) (.val (count - 1))
                    sp := s.bp - FRAME_SIZE
                    bp := frameEnd fs } f.below fs :=
                  ⟨kept.pop rfl rfl rfl (by simpa [lookaheadEnd, kind, FrameKind.isLookahead] using la),
                    (Copies.restore holds.copies).2.2⟩
                exact .goOn ⟨rfl, rfl, rfl, rfl, f.below, fs, popped, rfl⟩
              · exact .goOn ⟨rfl, rfl, rfl, rfl, [],
                  { f with kind := .greedy_quant (count - 1), cptr := giveBack x char_count f.cptr } :: fs,
                  ⟨⟨kept.stack, kept.sp, kept.bp, kept.la⟩, holds'.copies⟩, rfl⟩

end

end PrimJs.Regexp
