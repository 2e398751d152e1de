import PrimJs.Foundation.UndoLog
import PrimJs.Regexp.Backtrack
import PrimJs.Regexp.Copying

/-! How the stack of `lre_exec_backtrack` holds frames and undo records, and what each operation
on it does to them. -/

namespace PrimJs.Regexp

abbrev UndoRecord := Slot × Word

/-- A frame of the stack with the undo records between the frame before it and itself, and the copy
of the slots that these stand for. -/
structure LogFrame extends CopyFrame where
  /-- the newest first -/
  below : List UndoRecord

def FrameKind.type : FrameKind → ExecStateType
  | .split => .split
  | .lookahead => .lookahead
  | .negative_lookahead => .negative_lookahead
  | .greedy_quant _ => .greedy_quant

def FrameKind.extra (la : Nat) : FrameKind → Nat
  | .split => 0
  | .lookahead | .negative_lookahead => la
  | .greedy_quant count => count

/-! ### The layout -/

def recordElems : List UndoRecord → List StackElem
  | [] => []
  | (slot, old) :: log => recordElems log ++ [.slot slot, .old old]

def frameEnd : List LogFrame → Nat
  | [] => 0
  | f :: fs => frameEnd fs + 2 * f.below.length + FRAME_SIZE

def lookaheadEnd : List LogFrame → Nat
  | [] => 0
  | f :: fs => if f.kind.isLookahead then frameEnd (f :: fs) else lookaheadEnd fs

def frameElems (f : CopyFrame) (prev_bp la : Nat) : List StackElem :=
  [.ptr f.pc, .ptr f.cptr, .val prev_bp, .state f.kind.type f.stack_len, .val (f.kind.extra la)]

def layout : List LogFrame → List StackElem
  | [] => []
  | f :: fs =>
      layout fs ++ recordElems f.below ++ frameElems f.toCopyFrame (frameEnd fs) (lookaheadEnd fs)

@[simp] theorem recordElems_length (log : List UndoRecord) :
    (recordElems log).length = 2 * log.length := by
  induction log with
  | nil => rfl
  | cons record log ih =>
      rw [recordElems, List.length_append, ih, List.length_cons]
      rfl

theorem recordElems_append (newer older : List UndoRecord) :
    recordElems (newer ++ older) = recordElems older ++ recordElems newer := by
  induction newer with
  | nil => simp [recordElems]
  | cons record newer ih => rw [List.cons_append, recordElems, recordElems, ih, List.append_assoc]

@[simp] theorem frameElems_length (f : CopyFrame) (prev_bp la : Nat) :
    (frameElems f prev_bp la).length = FRAME_SIZE := rfl

@[simp] theorem layout_length (fs : List LogFrame) : (layout fs).length = frameEnd fs := by
  induction fs with
  | nil => rfl
  | cons f fs ih => simp [layout, frameEnd, ih, Nat.add_assoc]

theorem length_le_frameEnd (fs : List LogFrame) : fs.length ≤ frameEnd fs := by
  induction fs with
  | nil => exact Nat.zero_le _
  | cons f fs ih =>
      rw [List.length_cons, frameEnd, FRAME_SIZE]
      omega

theorem frameEnd_cons_pos (f : LogFrame) (fs : List LogFrame) : 0 < frameEnd (f :: fs) :=
  Nat.succ_pos _

/-- The stack holds the frames `fs` and the undo records `top` above them. -/
structure Represents (s : ExecState) (top : List UndoRecord) (fs : List LogFrame) : Prop where
  stack : ∃ junk, s.stack_buf = layout fs ++ recordElems top ++ junk
  sp : s.sp = frameEnd fs + 2 * top.length
  bp : s.bp = frameEnd fs
  la : s.la = lookaheadEnd fs

/-! ### Elements of the stack -/

section Elements

variable {front mid back : List StackElem}

section

variable (front back : List StackElem)

theorem getElem?_after (i : Nat) : (front ++ back)[front.length + i]? = back[i]? := by
  rw [List.getElem?_append_right (Nat.le_add_right _ _), Nat.add_sub_cancel_left]

theorem set_after (i : Nat) (e : StackElem) :
    (front ++ back).set (front.length + i) e = front ++ back.set i e := by
  rw [List.set_append_right _ _ (Nat.le_add_right _ _), Nat.add_sub_cancel_left]

/-- A frame is read back. -/
theorem readFrame_eq (f : CopyFrame) (prev_bp la : Nat) {bp : Nat}
    (end_ : bp = front.length + FRAME_SIZE) :
    readFrame (front ++ frameElems f prev_bp la ++ back) bp = some {
      pc := f.pc
      cptr := f.cptr
      prev_bp := prev_bp
      type := f.kind.type
      stack_len := f.stack_len
      extra := f.kind.extra la } := by
  subst end_
  have at0 := getElem?_after front (frameElems f prev_bp la ++ back) 0
  have at1 := getElem?_after front (frameElems f prev_bp la ++ back) 1
  have at2 := getElem?_after front (frameElems f prev_bp la ++ back) 2
  have at3 := getElem?_after front (frameElems f prev_bp la ++ back) 3
  have at4 := getElem?_after front (frameElems f prev_bp la ++ back) 4
  simp only [frameElems, List.cons_append, List.nil_append, List.getElem?_cons_zero,
    List.getElem?_cons_succ, Nat.add_zero] at at0 at1 at2 at3 at4
  simp only [readFrame, FRAME_SIZE, Nat.add_sub_cancel, frameElems, List.append_assoc,
    List.cons_append, List.nil_append, Nat.reduceSubDiff, at0, at1, at2, at3, at4]

end

/-- Elements move down over a gap. -/
theorem moveDown_eq (records : List StackElem) (front gap back : List StackElem)
    (nonempty : gap ≠ []) :
    ∃ gap', gap'.length = gap.length ∧
      moveDown records.length front.length (front.length + gap.length)
        (front ++ gap ++ records ++ back) = front ++ records ++ gap' ++ back := by
  induction records generalizing front gap with
  | nil => exact ⟨gap, rfl, by simp [moveDown]⟩
  | cons e records ih =>
      obtain ⟨g, gap, rfl⟩ := List.exists_cons_of_ne_nil nonempty
      obtain ⟨gap', same, moved⟩ := ih (front ++ [e]) (gap ++ [e]) (by simp)
      refine ⟨gap', same.trans (by simp), ?_⟩
      have read : (front ++ g :: gap ++ e :: records ++ back).getD
          (front.length + (g :: gap).length) (.val 0) = e := by
        have here := getElem?_after (front ++ g :: gap) (e :: records ++ back) 0
        simp only [List.length_append, Nat.add_zero] at here
        rw [List.getD_eq_getElem?_getD, List.append_assoc, here]
        rfl
      have written : (front ++ g :: gap ++ e :: records ++ back).set front.length e =
          front ++ [e] ++ (gap ++ [e]) ++ records ++ back := by simp
      rw [List.length_cons, moveDown, read, written]
      have lengths : (front ++ [e]).length + (gap ++ [e]).length =
          front.length + (g :: gap).length + 1 := by
        simp
        omega
      rw [List.length_append, List.length_singleton] at moved lengths
      rw [lengths] at moved
      rw [moved]
      simp

end Elements

/-! ### Room on the stack -/

/-- Running out of memory is the only way for the stack to give up. -/
def GaveUp (alloc : Nat → Bool) (result : ExecResult) : Prop :=
  result = .noMemory ∧ ∃ n, alloc n = false

variable {s : ExecState} {top : List UndoRecord} {fs : List LogFrame}

theorem checkStackSpace_spec (alloc : Nat → Bool) (n : Nat) (represents : Represents s top fs) :
    (∃ result, checkStackSpace alloc n s = .error result ∧ GaveUp alloc result) ∨
      ∃ junk, n ≤ junk.length ∧ checkStackSpace alloc n s =
        .ok { s with stack_buf := layout fs ++ recordElems top ++ junk } := by
  obtain ⟨junk, stack⟩ := represents.stack
  have height : s.stack_buf.length = s.sp + junk.length := by
    rw [stack, represents.sp]
    simp [Nat.add_assoc]
  unfold checkStackSpace stackRealloc
  split
  · next short =>
    dsimp only
    have enough := Nat.le_max_right (s.stack_buf.length * 3 / 2) (s.sp + n)
    generalize max (s.stack_buf.length * 3 / 2) (s.sp + n) = new_size at enough
    split
    · refine .inr ⟨junk ++ List.replicate (new_size - s.stack_buf.length) (.val 0), ?_, ?_⟩
      · rw [List.length_append, List.length_replicate]
        omega
      · rw [← List.append_assoc, ← stack]
    · next refused => exact .inl ⟨_, rfl, rfl, _, by simpa using refused⟩
  · refine .inr ⟨junk, by omega, ?_⟩
    rw [← stack]

/-! ### Undo records -/

theorem Represents.push_record (represents : Represents s top fs) (slot : Slot) (old : Word)
    {junk : List StackElem} (room : 2 ≤ junk.length) (slots : Slots) :
    Represents { s with
      stack_buf := ((layout fs ++ recordElems top ++ junk).set s.sp (.slot slot)).set (s.sp + 1)
        (.old old)
      sp := s.sp + 2
      slots := slots } ((slot, old) :: top) fs where
  stack := by
    obtain ⟨first, second, junk, rfl⟩ : ∃ first second rest, junk = first :: second :: rest := by
      match junk, room with
      | first :: second :: rest, _ => exact ⟨first, second, rest, rfl⟩
    refine ⟨junk, ?_⟩
    have top_end : s.sp = (layout fs ++ recordElems top).length := by
      rw [represents.sp]
      simp
    have write0 := set_after (layout fs ++ recordElems top) (first :: second :: junk) 0 (.slot slot)
    have write1 := set_after (layout fs ++ recordElems top) (.slot slot :: second :: junk) 1 (.old old)
    rw [Nat.add_zero, ← top_end] at write0
    rw [← top_end] at write1
    simp only [write0, List.set_cons_zero, write1, List.set_cons_succ, recordElems]
    simp
  sp := by
    simp only [represents.sp, List.length_cons]
    omega
  bp := represents.bp
  la := represents.la

/-- `UNDO_TO` the newest frame. -/
theorem undoTo_spec (fuel : Nat) (represents : Represents s top fs) (enough : top.length < fuel) :
    undoTo (frameEnd fs) fuel s =
      .ok { s with slots := UndoLog.undo Slots.set top s.slots, sp := frameEnd fs } := by
  induction top generalizing fuel s with
  | nil =>
      obtain ⟨fuel, rfl⟩ := Nat.exists_eq_succ_of_ne_zero (Nat.ne_of_gt (Nat.zero_lt_of_lt enough))
      have sp : s.sp = frameEnd fs := represents.sp
      rw [undoTo, if_neg (by omega), UndoLog.undo_nil, ← sp]
  | cons record top ih =>
      obtain ⟨slot, old⟩ := record
      obtain ⟨fuel, rfl⟩ := Nat.exists_eq_succ_of_ne_zero (Nat.ne_of_gt (Nat.zero_lt_of_lt enough))
      obtain ⟨junk, stack⟩ := represents.stack
      have sp := represents.sp
      rw [List.length_cons] at sp enough
      have read0 := getElem?_after (layout fs ++ recordElems top) (.slot slot :: .old old :: junk) 0
      have read1 := getElem?_after (layout fs ++ recordElems top) (.slot slot :: .old old :: junk) 1
      simp only [recordElems, List.append_assoc, List.cons_append, List.nil_append] at stack read0 read1
      rw [List.length_append, layout_length, recordElems_length] at read0 read1
      rw [← stack] at read0 read1
      have low : s.sp - 2 = frameEnd fs + 2 * top.length + 0 := by omega
      have high : s.sp - 1 = frameEnd fs + 2 * top.length + 1 := by omega
      rw [undoTo, if_pos (by omega), low, high, read0, read1]
      simp only [List.getElem?_cons_zero, List.getElem?_cons_succ, Nat.add_zero]
      have represents' : Represents { s with
          slots := s.slots.set slot old
          sp := frameEnd fs + 2 * top.length } top fs :=
        ⟨⟨_, by simpa using stack⟩, rfl, represents.bp, represents.la⟩
      rw [ih fuel represents' (by omega)]
      rfl

/-! ### Frames -/

theorem Represents.push_frame (represents : Represents s top fs) (kind : FrameKind)
    (pc cptr : Nat) {junk : List StackElem} (room : FRAME_SIZE ≤ junk.length) (extra la : Nat)
    (extra_eq : extra = kind.extra (lookaheadEnd fs))
    (la_eq : la = lookaheadEnd (⟨⟨kind, pc, cptr, s.stack_len, s.slots⟩, top⟩ :: fs)) :
    Represents { s with
      stack_buf := (((((layout fs ++ recordElems top ++ junk).set s.sp (.ptr pc)).set (s.sp + 1)
        (.ptr cptr)).set (s.sp + 2) (.val s.bp)).set (s.sp + 3)
        (.state kind.type s.stack_len)).set (s.sp + 4) (.val extra)
      sp := s.sp + FRAME_SIZE
      bp := s.sp + FRAME_SIZE
      la := la } [] (⟨⟨kind, pc, cptr, s.stack_len, s.slots⟩, top⟩ :: fs) where
  stack := by
    obtain ⟨e0, e1, e2, e3, e4, junk, rfl⟩ :
        ∃ e0 e1 e2 e3 e4 rest, junk = e0 :: e1 :: e2 :: e3 :: e4 :: rest := by
      match junk, room with
      | e0 :: e1 :: e2 :: e3 :: e4 :: rest, _ => exact ⟨e0, e1, e2, e3, e4, rest, rfl⟩
    refine ⟨junk, ?_⟩
    have top_end : s.sp = (layout fs ++ recordElems top).length := by
      rw [represents.sp]
      simp
    have write := set_after (layout fs ++ recordElems top)
    have write0 := set_after (layout fs ++ recordElems top) (e0 :: e1 :: e2 :: e3 :: e4 :: junk) 0
      (.ptr pc)
    rw [Nat.add_zero] at write0
    simp only [top_end, write0, write, List.set_cons_zero, List.set_cons_succ]
    simp [layout, recordElems, frameElems, represents.bp, extra_eq]
  sp := by
    simp only [represents.sp, frameEnd, List.length_nil]
    omega
  bp := by
    simp only [represents.sp, frameEnd]
  la := la_eq

theorem readFrame_layout (f : LogFrame) (fs : List LogFrame) (rest : List StackElem) :
    readFrame (layout (f :: fs) ++ rest) (frameEnd (f :: fs)) = some {
      pc := f.pc
      cptr := f.cptr
      prev_bp := frameEnd fs
      type := f.kind.type
      stack_len := f.stack_len
      extra := f.kind.extra (lookaheadEnd fs) } :=
  readFrame_eq _ _ _ _ _ (by simp [frameEnd])

/-- The newest frame is read at `bp`. -/
theorem Represents.readFrame {f : LogFrame} (represents : Represents s top (f :: fs)) :
    Regexp.readFrame s.stack_buf s.bp = some {
      pc := f.pc
      cptr := f.cptr
      prev_bp := frameEnd fs
      type := f.kind.type
      stack_len := f.stack_len
      extra := f.kind.extra (lookaheadEnd fs) } := by
  obtain ⟨junk, stack⟩ := represents.stack
  rw [stack, represents.bp, List.append_assoc]
  exact readFrame_layout f fs _

/-- The newest frame is popped. -/
theorem Represents.pop {f : LogFrame} (represents : Represents s top (f :: fs)) {t : ExecState}
    (buf : t.stack_buf = s.stack_buf) (sp : t.sp = s.bp - FRAME_SIZE) (bp : t.bp = frameEnd fs)
    (la : t.la = lookaheadEnd fs) :
    Represents t f.below fs where
  stack := by
    obtain ⟨junk, stack⟩ := represents.stack
    exact ⟨_, by rw [buf, stack, layout, List.append_assoc, List.append_assoc]⟩
  sp := by rw [sp, represents.bp, frameEnd, Nat.add_sub_cancel]
  bp := bp
  la := la

end PrimJs.Regexp
