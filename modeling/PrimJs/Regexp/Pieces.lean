import PrimJs.Regexp.CounterStack
import PrimJs.Regexp.Offers

/-! What each instruction offers to the code after it. -/

namespace PrimJs.Regexp

/-- A piece of the code that starts at `pc`. -/
def CodeAt (code : List REOp) (pc : Nat) (piece : List REOp) : Prop :=
  ∃ front back, code = front ++ piece ++ back ∧ codeSize front = pc

section

variable {code : List REOp} {pc : Nat} {piece : List REOp}

theorem CodeAt.fetch {op : REOp} (h : CodeAt code pc (op :: piece)) : fetch code pc = some op := by
  obtain ⟨front, back, rfl, rfl⟩ := h
  rw [List.append_assoc]
  exact fetch_middle front (piece ++ back) op

theorem CodeAt.left {piece' : List REOp} (h : CodeAt code pc (piece ++ piece')) :
    CodeAt code pc piece := by
  obtain ⟨front, back, rfl, size⟩ := h
  exact ⟨front, piece' ++ back, by simp, size⟩

theorem CodeAt.right {piece' : List REOp} (h : CodeAt code pc (piece ++ piece')) :
    CodeAt code (pc + codeSize piece) piece' := by
  obtain ⟨front, back, rfl, rfl⟩ := h
  exact ⟨front ++ piece, back, by simp, by simp⟩

theorem CodeAt.tail {op : REOp} (h : CodeAt code pc (op :: piece)) :
    CodeAt code (pc + op.size) piece := by
  have rest := @CodeAt.right code pc [op] piece h
  simpa using rest

end

namespace Point

def moveTo (p : Point) (cptr : Nat) : Point := { p with cptr := cptr }

/-- The store of `REOP_save_start` and `REOP_save_end`. -/
def save (p : Point) (slot : Nat) : Point := { p with capture := p.capture.set slot (.ptr p.cptr) }

/-- The stores of `REOP_save_reset`. -/
def reset (p : Point) (first last : Nat) : Point :=
  { p with capture := p.capture.mapIdx fun i w => if first ≤ i / 2 ∧ i / 2 ≤ last then .null else w }

theorem reset_getElem? (p : Point) (first last i : Nat) :
    (p.reset first last).capture[i]? =
      if first ≤ i / 2 ∧ i / 2 ≤ last then p.capture[i]?.map fun _ => .null else p.capture[i]? := by
  dsimp only [reset]
  rw [List.getElem?_mapIdx]
  split
  · rfl
  · cases p.capture[i]? <;> rfl

@[simp] theorem save_length (p : Point) (slot : Nat) :
    (p.save slot).capture.length = p.capture.length := List.length_set

@[simp] theorem reset_length (p : Point) (first last : Nat) :
    (p.reset first last).capture.length = p.capture.length := List.length_mapIdx

end Point

variable {x : ExecContext} {base : Slots} {size pc : Nat} {counters : List Word} {p : Point}

/-! ### Tests -/

theorem runs_test {exit : Nat} {test : Option Nat} (after : pc < exit)
    (turn : ∀ s, Arrived size counters pc p s →
      action x s.slots s.stack_len s.pc s.cptr = testAction exit test) :
    Runs x base size pc pc exit counters counters p (test.map p.moveTo).toList := by
  cases test with
  | none =>
      refine .fails ⟨le_refl _, after⟩ fun s arrived => ?_
      rw [copyStep, turn s arrived]
      rfl
  | some cptr =>
      refine .next ⟨le_refl _, after⟩ (fun s arrived => ?_) (.here x base size pc exit counters _)
      refine ⟨{ s with pc := exit, cptr := cptr }, ?_, rfl,
        ⟨rfl, rfl, arrived.stack_len, arrived.capture, arrived.size, arrived.counters⟩⟩
      rw [copyStep, turn s arrived]
      rfl

theorem runs_charOp {op : REOp} (char : isCharOp op = true) (fetched : fetch x.code pc = some op) :
    Runs x base size pc pc (pc + op.size) counters counters p
      ((lreMatchCharOp x op p.cptr).map p.moveTo).toList := by
  refine runs_test (Nat.lt_add_of_pos_right op.size_pos) fun s arrived => ?_
  rw [action, arrived.pc, fetched, arrived.cptr]
  cases op <;> first | rfl | cases char

def assertionTest (x : ExecContext) (op : REOp) (cptr : Nat) : Bool :=
  match op with
  | .line_start => lineStartTest x cptr
  | .line_end => lineEndTest x cptr
  | .word_boundary => wordBoundaryTest x cptr
  | .not_word_boundary => !wordBoundaryTest x cptr
  | _ => false

theorem runs_assertion {op : REOp} (assertion : isAssertionOp op = true)
    (fetched : fetch x.code pc = some op) :
    Runs x base size pc pc (pc + op.size) counters counters p
      (if assertionTest x op p.cptr then [p] else []) := by
  have outs : (if assertionTest x op p.cptr then [p] else []) =
      ((if assertionTest x op p.cptr then some p.cptr else none).map p.moveTo).toList := by
    split <;> rfl
  rw [outs]
  refine runs_test (Nat.lt_add_of_pos_right op.size_pos) fun s arrived => ?_
  rw [action, arrived.pc, fetched, arrived.cptr]
  cases op with
  | line_start | line_end | word_boundary => rfl
  | not_word_boundary =>
      dsimp only [assertionTest]
      by_cases boundary : wordBoundaryTest x p.cptr = true <;> simp [boundary]
  | _ => cases assertion

theorem runs_prev (fetched : fetch x.code pc = some .prev) :
    Runs x base size pc pc (pc + 1) counters counters p
      (((if p.cptr = 0 then none else some (prevChar x p.cptr 0)) : Option Nat).map
        p.moveTo).toList := by
  refine runs_test (Nat.lt_succ_self pc) fun s arrived => ?_
  rw [action, arrived.pc, fetched, arrived.cptr]
  rfl

theorem backReference_slots (x : ExecContext) {m : Slots} {capture : List Word}
    (same : m.capture = capture) (backward : Bool) (val cptr : Nat) :
    backReference x m backward val cptr = backReference x ⟨capture, []⟩ backward val cptr := by
  simp only [backReference, Slots.get?, same]

theorem runs_backReference {dir : Bool} {index : Nat}
    (fetched : fetch x.code pc =
      some (if dir then .backward_back_reference index else .back_reference index)) :
    Runs x base size pc pc (pc + 2) counters counters p
      ((backReference x ⟨p.capture, []⟩ dir index p.cptr).map p.moveTo).toList := by
  refine runs_test (by omega) fun s arrived => ?_
  rw [action, arrived.pc, fetched, arrived.cptr, ← backReference_slots x arrived.capture]
  cases dir <;> rfl

/-! ### Captures -/

theorem runs_save {op : REOp} {index slot : Nat} (fetched : fetch x.code pc = some op)
    (isSave : op = .save_start index ∧ slot = 2 * index ∨ op = .save_end index ∧ slot = 2 * index + 1)
    (fits : index < x.capture_count) (length : p.capture.length = 2 * x.capture_count) :
    Runs x base size pc pc (pc + 2) counters counters p [p.save slot] := by
  refine .next ⟨le_refl _, by omega⟩ (fun s arrived => ?_) (.here x base size pc _ counters _)
  have act : action x s.slots s.stack_len s.pc s.cptr =
      .write [(.capture slot, .ptr s.cptr)] (pc + 2) s.stack_len := by
    rw [action, arrived.pc, fetched]
    obtain ⟨rfl, rfl⟩ | ⟨rfl, rfl⟩ := isSave
    all_goals
      dsimp only
      rw [if_pos fits]
      rfl
  have exists_ : ∃ w, s.slots.get? (.capture slot) = some w := by
    refine ⟨_, List.getElem?_eq_getElem (l := s.slots.capture) ?_⟩
    rw [arrived.capture, length]
    omega
  obtain ⟨w, old⟩ := exists_
  refine ⟨{ s with pc := pc + 2, slots := s.slots.set (.capture slot) (.ptr s.cptr) }, ?_, rfl, ?_⟩
  · rw [copyStep, act]
    dsimp only [Slots.setAll]
    rw [old]
  · refine ⟨rfl, arrived.cptr, arrived.stack_len, ?_, arrived.size, arrived.counters⟩
    dsimp only [Slots.set, Point.save]
    rw [arrived.capture, arrived.cptr]

/-- The stores of `REOP_save_reset` from the index `first` on. -/
theorem setAll_reset {capture stack : List Word} (first count : Nat)
    (fits : 2 * (first + count) ≤ capture.length) :
    Slots.setAll ⟨capture, stack⟩ ((List.range' first count).flatMap fun i =>
        [(.capture (2 * i), .null), (.capture (2 * i + 1), .null)]) =
      some ⟨capture.mapIdx fun i w => if first ≤ i / 2 ∧ i / 2 < first + count then .null else w,
        stack⟩ := by
  induction count generalizing first capture with
  | zero =>
      have same : (capture.mapIdx fun i w =>
          if first ≤ i / 2 ∧ i / 2 < first + 0 then Word.null else w) = capture := by
        refine List.ext_getElem (by simp) fun i h h' => ?_
        rw [List.getElem_mapIdx, if_neg (by omega)]
      rw [same]
      rfl
  | succ count ih =>
      have low : 2 * first < capture.length := by omega
      have high : 2 * first + 1 < (capture.set (2 * first) .null).length := by
        rw [List.length_set]
        omega
      have both : Slots.setAll ⟨capture, stack⟩ ((List.range' first (count + 1)).flatMap fun i =>
            [(.capture (2 * i), .null), (.capture (2 * i + 1), .null)]) =
          Slots.setAll ⟨(capture.set (2 * first) .null).set (2 * first + 1) .null, stack⟩
            ((List.range' (first + 1) count).flatMap fun i =>
              [(.capture (2 * i), .null), (.capture (2 * i + 1), .null)]) := by
        rw [List.range'_succ, List.flatMap_cons]
        simp only [List.cons_append, List.nil_append, Slots.setAll, Slots.get?, Slots.set,
          List.getElem?_eq_getElem low, List.getElem?_eq_getElem high]
      rw [both, ih (first + 1) (by simp only [List.length_set]; omega)]
      congr 2
      refine List.ext_getElem (by simp) fun i h h' => ?_
      simp only [List.getElem_mapIdx, List.getElem_set]
      split_ifs <;> first | rfl | omega

theorem runs_reset {first last : Nat} (fetched : fetch x.code pc = some (.save_reset first last))
    (fits : last < x.capture_count) (length : p.capture.length = 2 * x.capture_count) :
    Runs x base size pc pc (pc + 3) counters counters p [p.reset first last] := by
  refine .next ⟨le_refl _, by omega⟩ (fun s arrived => ?_) (.here x base size pc _ counters _)
  have act : action x s.slots s.stack_len s.pc s.cptr =
      .write (resetWrites first last) (pc + 3) s.stack_len := by
    rw [action, arrived.pc, fetched]
    dsimp only
    rw [if_pos fits]
    rfl
  have count : ∀ i, first ≤ i / 2 ∧ i / 2 < first + (last + 1 - first) ↔
      first ≤ i / 2 ∧ i / 2 ≤ last := by
    intro i
    omega
  have writes : s.slots.setAll (resetWrites first last) =
      some { s.slots with capture := (p.reset first last).capture } := by
    by_cases some_ : first ≤ last
    · have all := @setAll_reset s.slots.capture s.slots.stack first
        (last + 1 - first) (by rw [arrived.capture, length]; omega)
      simp only [count] at all
      rw [Point.reset, ← arrived.capture]
      exact all
    · have none_ : last + 1 - first = 0 := by omega
      have same : (p.reset first last).capture = s.slots.capture := by
        rw [arrived.capture]
        refine List.ext_getElem? fun i => ?_
        rw [Point.reset_getElem?, if_neg (by omega)]
      rw [resetWrites, none_, same]
      rfl
  refine ⟨{ s with
    pc := pc + 3
    slots := { s.slots with capture := (p.reset first last).capture } }, ?_, rfl,
    ⟨rfl, arrived.cptr, arrived.stack_len, rfl, arrived.size, arrived.counters⟩⟩
  rw [copyStep, act]
  dsimp only
  rw [writes]

/-! ### Counters -/

theorem prefix_push {counters stack : List Word} (h : counters <+: stack)
    (room : counters.length < stack.length) (w : Word) :
    counters ++ [w] <+: stack.set counters.length w := by
  obtain ⟨rest, rfl⟩ := h
  cases rest with
  | nil => simp at room
  | cons old rest => exact ⟨rest, by simp⟩

section

variable {counters stack : List Word} {w : Word} (h : counters ++ [w] <+: stack)

include h

theorem prefix_top : stack[counters.length]? = some w := by
  obtain ⟨rest, rfl⟩ := h
  simp

theorem prefix_set (w' : Word) : counters ++ [w'] <+: stack.set counters.length w' := by
  obtain ⟨rest, rfl⟩ := h
  exact ⟨rest, by simp⟩

end

/-- `REOP_push_i32` and `REOP_push_char_pos`. -/
theorem runs_push {op : REOp} {w : Word} (fetched : fetch x.code pc = some op)
    (isPush : (∃ val, op = .push_i32 val ∧ w = .num val) ∨ op = .push_char_pos ∧ w = .ptr p.cptr)
    (room : counters.length < size) :
    Runs x base size pc pc (pc + op.size) counters (counters ++ [w]) p [p] := by
  refine .next ⟨le_refl _, Nat.lt_add_of_pos_right op.size_pos⟩ (fun s arrived => ?_)
    (.here x base size pc _ _ p)
  have act : action x s.slots s.stack_len s.pc s.cptr =
      .write [(.counter counters.length, w)] (pc + op.size) (counters.length + 1) := by
    rw [action, arrived.pc, fetched, arrived.stack_len, arrived.cptr]
    obtain ⟨val, rfl, rfl⟩ | ⟨rfl, rfl⟩ := isPush <;> rfl
  have inside : counters.length < s.slots.stack.length := by
    rw [arrived.size]
    exact room
  refine ⟨{ s with
    pc := pc + op.size
    stack_len := counters.length + 1
    slots := s.slots.set (.counter counters.length) w }, ?_, rfl, ?_⟩
  · rw [copyStep, act]
    dsimp only [Slots.setAll, Slots.get?]
    rw [List.getElem?_eq_getElem inside]
  · exact ⟨rfl, arrived.cptr, by simp, arrived.capture,
      by simpa [Slots.set] using arrived.size, prefix_push arrived.counters inside w⟩

theorem runs_drop {w : Word} (fetched : fetch x.code pc = some .drop) :
    Runs x base size pc pc (pc + 1) (counters ++ [w]) counters p [p] := by
  refine .next ⟨le_refl _, Nat.lt_succ_self pc⟩ (fun s arrived => ?_) (.here x base size pc _ _ p)
  have len := arrived.stack_len
  rw [List.length_append, List.length_singleton] at len
  refine ⟨{ s with pc := pc + 1, stack_len := counters.length }, ?_, rfl,
    ⟨rfl, arrived.cptr, rfl, arrived.capture, arrived.size,
      (List.prefix_append _ _).trans arrived.counters⟩⟩
  rw [copyStep, action, arrived.pc, fetched]
  dsimp only
  rw [if_neg (by omega), len, Nat.add_sub_cancel]
  rfl

/-- `REOP_loop` with `n + 1` iterations left. -/
theorem loop_turn {n : Nat} {offset : Int} (fetched : fetch x.code pc = some (.loop offset))
    (small : n + 1 < 2 ^ 64) {s : CopyState}
    (arrived : Arrived size (counters ++ [.num (n + 1)]) pc p s) :
    ∃ t, copyStep x base s = .ok t ∧ t.frames = s.frames ∧
      Arrived size (counters ++ [.num n]) (if n = 0 then pc + 5 else jump (pc + 5) offset) p t := by
  have len := arrived.stack_len
  rw [List.length_append, List.length_singleton] at len
  have top := prefix_top arrived.counters
  have value : (n + 1 + (2 ^ 64 - 1)) % 2 ^ 64 = n := by omega
  refine ⟨{ s with
    pc := if n = 0 then pc + 5 else jump (pc + 5) offset
    slots := s.slots.set (.counter counters.length) (.num n) }, ?_, rfl, ?_⟩
  · rw [copyStep, action, arrived.pc, fetched]
    dsimp only
    rw [if_neg (by omega), len, Nat.add_sub_cancel]
    dsimp only [Slots.get?]
    rw [top]
    dsimp only [Slots.setAll, Slots.get?]
    rw [top, value]
    simp only [ne_eq, ite_not]
    rfl
  · exact ⟨rfl, arrived.cptr, by simpa using len, arrived.capture,
      by simpa [Slots.set] using arrived.size, prefix_set arrived.counters _⟩

/-- `REOP_bne_char_pos` -/
theorem bne_turn {cptr : Nat} {offset : Int}
    (fetched : fetch x.code pc = some (.bne_char_pos offset)) {s : CopyState}
    (arrived : Arrived size (counters ++ [.ptr cptr]) pc p s) :
    ∃ t, copyStep x base s = .ok t ∧ t.frames = s.frames ∧
      Arrived size counters (if p.cptr = cptr then pc + 5 else jump (pc + 5) offset) p t := by
  have len := arrived.stack_len
  rw [List.length_append, List.length_singleton] at len
  have top := prefix_top arrived.counters
  refine ⟨{ s with
    pc := if p.cptr = cptr then pc + 5 else jump (pc + 5) offset
    stack_len := counters.length }, ?_, rfl, ⟨rfl, arrived.cptr, rfl, arrived.capture, arrived.size,
      (List.prefix_append _ _).trans arrived.counters⟩⟩
  rw [copyStep, action, arrived.pc, fetched]
  dsimp only
  rw [if_neg (by omega), len, Nat.add_sub_cancel]
  dsimp only [Slots.get?]
  rw [top, arrived.cptr]
  dsimp only [Slots.setAll]
  congr 2
  by_cases same : p.cptr = cptr
  · rw [if_pos same, if_neg (by simp [same])]
    rfl
  · rw [if_neg same, if_pos (by simpa using Ne.symm same)]
    rfl

/-! ### Jumps -/

theorem goto_turn {offset : Int} (fetched : fetch x.code pc = some (.goto offset)) {s : CopyState}
    (arrived : Arrived size counters pc p s) :
    ∃ t, copyStep x base s = .ok t ∧ t.frames = s.frames ∧
      Arrived size counters (jump (pc + 5) offset) p t := by
  refine ⟨{ s with pc := jump (pc + 5) offset }, ?_, rfl,
    ⟨rfl, arrived.cptr, arrived.stack_len, arrived.capture, arrived.size, arrived.counters⟩⟩
  rw [copyStep, action, arrived.pc, fetched]
  rfl

/-- A greedy split goes on first, a lazy one jumps first. -/
theorem runs_splitOp {low exit : Nat} {counters' : List Word} {greedy : Bool} {offset : Int}
    {outs outs' : List Point} (fetched : fetch x.code pc = some (splitOp greedy offset))
    (within : low ≤ pc ∧ pc < exit)
    (next : Runs x base size low (pc + 5) exit counters counters' p outs)
    (other : Runs x base size low (jump (pc + 5) offset) exit counters counters' p outs') :
    Runs x base size low pc exit counters counters' p
      (if greedy then outs ++ outs' else outs' ++ outs) := by
  cases greedy with
  | true =>
      refine .split within (fun s arrived => ?_) next other
      rw [action, arrived.pc, fetched]
      rfl
  | false =>
      refine .split within (fun s arrived => ?_) other next
      rw [action, arrived.pc, fetched]
      rfl

end PrimJs.Regexp
