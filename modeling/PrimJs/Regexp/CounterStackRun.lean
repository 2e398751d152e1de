import PrimJs.Regexp.BacktrackLookahead
import PrimJs.Regexp.CounterStack
import PrimJs.Regexp.LreExec
import PrimJs.Regexp.Operands

/-! The counter stack on every path of a match: at each instruction it has the length that a linear
scan of the code gives, within the size that the compiler computed. -/

namespace PrimJs.Regexp

open Stepping

/-- A position at an instruction, with the counter stack that the linear scan gives there. -/
def Placed (code : List REOp) (pc len : Nat) : Prop :=
  ∃ front op back, code = front ++ op :: back ∧ codeSize front = pc ∧ depth front = len

/-- The instructions find the counters they need, and lead to instructions with the stack that they
leave. -/
structure Closed (code : List REOp) : Prop where
  needs : ∀ front op back, code = front ++ op :: back → op.needs ≤ depth front
  next : ∀ front op back, code = front ++ op :: back → op ≠ .match → back ≠ []
  jump : ∀ front op back, code = front ++ op :: back → ∀ offset, op.jumpOffset = some offset →
    ∃ front' op' back', code = front' ++ op' :: back' ∧
      (codeSize front' : Int) = codeSize front + op.size + offset ∧
      depth front' = depth front + op.effect

theorem depth_nonneg {code : List REOp} (h : Closed code) {front back : List REOp}
    (split : code = front ++ back) : 0 ≤ depth front := by
  induction front using List.reverseRecOn generalizing back with
  | nil => simp
  | append_singleton front op ih =>
      have here := @ih (op :: back) (by rw [split, List.append_assoc]; rfl)
      have needs := h.needs front op back (by rw [split, List.append_assoc]; rfl)
      rw [depth_append]
      cases op <;> simp_all [REOp.needs, REOp.effect, depth] <;> omega

/-- Balanced code that ends in a match. -/
theorem closed_of_balanced {code : List REOp} (h : Balanced code) : Closed (code ++ [.match]) := by
  have within : ∀ front op back, code ++ [.match] = front ++ op :: back →
      (∃ back', code = front ++ op :: back' ∧ back = back' ++ [.match]) ∨
        (front = code ∧ op = .match ∧ back = []) := by
    intro front op back split
    obtain rfl | ⟨back', last, rfl⟩ := List.eq_nil_or_concat back
    · obtain ⟨rfl, same⟩ := List.append_inj' split rfl
      exact .inr ⟨rfl, (List.cons.inj same).1.symm, rfl⟩
    · have split' : code ++ [.match] = (front ++ op :: back') ++ [last] := by
        rw [split]
        simp
      obtain ⟨rfl, same⟩ := List.append_inj' split' rfl
      obtain rfl := (List.cons.inj same).1
      exact .inl ⟨back', rfl, by simp⟩
  refine ⟨?_, ?_, ?_⟩
  · intro front op back split
    obtain ⟨back', rfl, -⟩ | ⟨rfl, rfl, -⟩ := within front op back split
    · exact (@AllSound.sound _ [] _ _ _ h.sound).needs
    · rw [h.depth]
      exact le_refl _
  · intro front op back split hmatch
    obtain ⟨back', -, rfl⟩ | ⟨-, rfl, -⟩ := within front op back split
    · simp
    · exact absurd rfl hmatch
  · intro front op back split offset hoffset
    obtain ⟨back', rfl, -⟩ | ⟨-, rfl, -⟩ := within front op back split
    · obtain ⟨front', back'', split', size, len⟩ :=
        (@AllSound.sound _ [] _ _ _ h.sound).jump offset hoffset
      rw [split']
      cases back'' with
      | nil => exact ⟨front', .match, [], by simp, size, len⟩
      | cons op' back'' => exact ⟨front', op', back'' ++ [.match], by simp, size, len⟩
    · cases hoffset

/-! ### Steps -/

section

variable {x : ExecContext}

/-- Where a frame resumes. -/
def FramePlaced (x : ExecContext) (kind : FrameKind) (pc len : Nat) : Prop :=
  match kind with
  | .greedy_quant _ => ∀ pc' char_count, greedyOperands x pc = some (pc', char_count) →
      Placed x.code pc' len
  | _ => Placed x.code pc len

def ActionPlaced (x : ExecContext) (len : Nat) : Action → Prop
  | .goOn pc _ => Placed x.code pc len
  | .write _ pc len' => Placed x.code pc len'
  | .push kind frame_pc pc _ => Placed x.code pc len ∧ FramePlaced x kind frame_pc len
  | .noMatch | .matched | .stuck => True

section

variable (h : Closed x.code) {front : List REOp} {op : REOp} {back : List REOp}
  (split : x.code = front ++ op :: back) {len len' : Nat}

include h split

theorem placed_next (hmatch : op ≠ .match) (hlen : depth front = len)
    (hlen' : (len : Int) + op.effect = len') : Placed x.code (codeSize front + op.size) len' := by
  obtain ⟨op', back', rfl⟩ := List.exists_cons_of_ne_nil (h.next front op back split hmatch)
  refine ⟨front ++ [op], op', back', by rw [split]; simp, by simp, ?_⟩
  rw [depth_append, depth_cons, depth_nil, hlen]
  omega

theorem placed_jump {offset : Int} (hoffset : op.jumpOffset = some offset)
    (hlen : depth front = len) (hlen' : (len : Int) + op.effect = len') :
    Placed x.code (jump (codeSize front + op.size) offset) len' := by
  obtain ⟨front', op', back', split', size, len⟩ := h.jump front op back split offset hoffset
  refine ⟨front', op', back', split', ?_, by omega⟩
  rw [jump]
  omega

end

theorem testAction_placed {pc len : Nat} (h : Placed x.code pc len) (test : Option Nat) :
    ActionPlaced x len (testAction pc test) := by
  cases test with
  | none => trivial
  | some cptr => exact h

/-- What an instruction asks for is placed. -/
theorem action_placed (h : Closed x.code) (m : Slots) {pc len : Nat} (cptr : Nat)
    (placed : Placed x.code pc len) : ActionPlaced x len (action x m len pc cptr) := by
  obtain ⟨front, op, back, split, rfl, hlen⟩ := placed
  have fetched : fetch x.code (codeSize front) = some op := by
    rw [split]
    exact fetch_middle front back op
  have next : op ≠ .match → ∀ len' : Nat, (len : Int) + op.effect = len' →
      Placed x.code (codeSize front + op.size) len' :=
    fun hmatch len' => placed_next h split hmatch hlen
  have jumps : ∀ offset, op.jumpOffset = some offset → ∀ len' : Nat, (len : Int) + op.effect = len' →
      Placed x.code (jump (codeSize front + op.size) offset) len' :=
    fun offset hoffset len' => placed_jump h split hoffset hlen
  have needs := h.needs front op back split
  rw [hlen] at needs
  rw [action, fetched]
  dsimp only
  cases op with
  | «match» => trivial
  | char | char32 | dot | any | range | range32 | line_start | line_end | word_boundary
  | not_word_boundary | back_reference | backward_back_reference | prev =>
      exact testAction_placed (next (by simp) len (by simp [REOp.effect])) _
  | split_next_first val | split_goto_first val | lookahead val | negative_lookahead val =>
      exact ⟨by first
        | exact next (by simp) len (by simp [REOp.effect])
        | exact jumps val rfl len (by simp [REOp.effect]), by first
        | exact jumps val rfl len (by simp [REOp.effect])
        | exact next (by simp) len (by simp [REOp.effect])⟩
  | goto val => exact jumps val rfl len (by simp)
  | save_start val | save_end val | save_reset val val2 =>
      dsimp only
      split
      · exact next (by simp) len (by simp [REOp.effect])
      · trivial
  | push_i32 val => exact next (by simp) (len + 1) (by simp)
  | push_char_pos => exact next (by simp) (len + 1) (by simp)
  | drop =>
      dsimp only
      split
      · trivial
      · refine next (by simp) (len - 1) ?_
        simp only [REOp.drop_effect]
        omega
  | loop val =>
      dsimp only
      split
      · trivial
      · split
        · split
          · exact jumps val rfl len (by simp)
          · exact next (by simp) len (by simp)
        · trivial
  | bne_char_pos val =>
      dsimp only
      split
      · trivial
      · have shorter : (len : Int) + (REOp.bne_char_pos val).effect = ((len - 1 : Nat) : Int) := by
          simp only [REOp.bne_char_pos_effect]
          omega
        split
        · split
          · exact jumps val rfl (len - 1) shorter
          · exact next (by simp) (len - 1) shorter
        · trivial
  | simple_greedy_quant next_pos quant_min quant_max char_count =>
      have target : Placed x.code (codeSize front + 17 + next_pos) len := by
        have here := jumps next_pos rfl len (by simp [REOp.effect])
        rwa [jump, REOp.size, ← Int.natCast_add, Int.toNat_natCast] at here
      dsimp only [REOp.size]
      split
      · trivial
      · split
        · trivial
        · split
          · refine ⟨target, ?_⟩
            intro pc' char_count' operands
            have place : codeSize front + 17 - 16 - 1 = codeSize front := by omega
            rw [greedyOperands, place, fetched] at operands
            obtain ⟨rfl, -⟩ := Prod.mk.inj (Option.some.inj operands)
            have same : codeSize front + 17 - 16 + 16 + next_pos = codeSize front + 17 + next_pos := by
              omega
            rw [same]
            exact target
          · exact target

/-- The state and its frames are at instructions with the right stack. -/
structure StackPlaced (x : ExecContext) (s : CopyState) : Prop where
  here : Placed x.code s.pc s.stack_len
  frames : ∀ f ∈ s.frames, FramePlaced x f.kind f.pc f.stack_len

theorem backtrack_placed {base : Slots} {frames : List CopyFrame}
    (placed : ∀ f ∈ frames, FramePlaced x f.kind f.pc f.stack_len) {t : CopyState}
    (run : backtrack x base frames = .ok t) : StackPlaced x t := by
  induction frames with
  | nil => cases run
  | cons f frames ih =>
      have here := placed f List.mem_cons_self
      have later : ∀ g ∈ frames, FramePlaced x g.kind g.pc g.stack_len :=
        fun g member => placed g (List.mem_cons_of_mem _ member)
      rw [backtrack] at run
      cases kind : f.kind with
      | split | negative_lookahead =>
          rw [kind] at run here
          obtain rfl := Except.ok.inj run
          exact ⟨here, later⟩
      | lookahead =>
          rw [kind] at run
          exact ih later run
      | greedy_quant count =>
          rw [kind] at run here
          dsimp only at run
          split at run
          · cases run
          · next pc char_count operands =>
            obtain rfl := Except.ok.inj run
            refine ⟨here pc char_count operands, ?_⟩
            dsimp only
            split
            · exact later
            · intro g member
              obtain rfl | member := List.mem_cons.mp member
              · exact here
              · exact later g member

theorem enclosingLookahead_mem {frames below : List CopyFrame} {f : CopyFrame}
    (found : enclosingLookahead frames = some (f, below)) :
    f ∈ frames ∧ f.kind.isLookahead = true ∧ ∀ g ∈ below, g ∈ frames := by
  induction frames with
  | nil => cases found
  | cons g frames ih =>
      rw [enclosingLookahead] at found
      split at found
      · next lookahead =>
        obtain ⟨rfl, rfl⟩ := Prod.mk.inj (Option.some.inj found)
        exact ⟨List.mem_cons_self, lookahead, fun h member => List.mem_cons_of_mem _ member⟩
      · obtain ⟨member, lookahead, below⟩ := ih found
        exact ⟨List.mem_cons_of_mem _ member, lookahead,
          fun h member => List.mem_cons_of_mem _ (below h member)⟩

theorem copyStep_placed (h : Closed x.code) {base : Slots} {s t : CopyState}
    (placed : StackPlaced x s) (run : copyStep x base s = .ok t) : StackPlaced x t := by
  have asked := action_placed h s.slots s.cptr placed.here
  rw [copyStep] at run
  cases act : action x s.slots s.stack_len s.pc s.cptr with
  | stuck =>
      rw [act] at run
      cases run
  | noMatch =>
      rw [act] at run
      exact backtrack_placed placed.frames run
  | goOn pc cptr =>
      rw [act] at run asked
      obtain rfl := Except.ok.inj run
      exact ⟨asked, placed.frames⟩
  | write writes pc len =>
      rw [act] at run asked
      dsimp only at run
      split at run
      · cases run
      · obtain rfl := Except.ok.inj run
        exact ⟨asked, placed.frames⟩
  | push kind frame_pc pc cptr =>
      rw [act] at run asked
      obtain rfl := Except.ok.inj run
      refine ⟨asked.1, ?_⟩
      intro f member
      obtain rfl | member := List.mem_cons.mp member
      · exact asked.2
      · exact placed.frames f member
  | matched =>
      rw [act] at run
      dsimp only [succeed] at run
      split at run
      · cases run
      · next f below found =>
        obtain ⟨member, lookahead, inside⟩ := enclosingLookahead_mem found
        have outer : ∀ g ∈ below, FramePlaced x g.kind g.pc g.stack_len :=
          fun g hg => placed.frames g (inside g hg)
        split at run
        · next kind =>
          obtain rfl := Except.ok.inj run
          have here := placed.frames f member
          rw [kind] at here
          exact ⟨here, outer⟩
        · exact backtrack_placed outer run

end

/-! ### The size of the stack -/

/-- The linear scan bounds the stack after every prefix. -/
theorem computeStackSizeLoop_spec {code : List REOp} {stack_size stack_size_max n : Nat}
    (ordered : stack_size ≤ stack_size_max)
    (h : computeStackSizeLoop code stack_size stack_size_max = some n)
    (nonneg : ∀ front back, code = front ++ back → 0 ≤ stack_size + depth front) :
    stack_size_max ≤ n ∧ ∀ front back, code = front ++ back → stack_size + depth front ≤ n := by
  induction code generalizing stack_size stack_size_max with
  | nil =>
      obtain rfl := Option.some.inj h
      refine ⟨le_refl _, ?_⟩
      rintro front back split
      obtain ⟨rfl, rfl⟩ := List.append_eq_nil_iff.mp split.symm
      simp only [depth_nil]
      omega
  | cons op code ih =>
      have first := nonneg [op] code rfl
      rw [depth_cons, depth_nil] at first
      have later : ∀ size max : Nat, (size : Int) = stack_size + op.effect → size ≤ max →
          stack_size_max ≤ max → computeStackSizeLoop code size max = some n →
          stack_size_max ≤ n ∧
            ∀ front back, op :: code = front ++ back → stack_size + depth front ≤ n := by
        intro size max hsize hle hmax hloop
        obtain ⟨bound, prefixes⟩ := ih hle hloop (fun front back split => by
          have := nonneg (op :: front) back (by rw [split]; rfl)
          rw [depth_cons] at this
          omega)
        refine ⟨hmax.trans bound, ?_⟩
        intro front back split
        cases front with
        | nil =>
            rw [depth_nil]
            omega
        | cons op' front =>
            obtain ⟨rfl, split'⟩ := List.cons.inj split
            have := prefixes front back split'
            rw [depth_cons]
            omega
      cases op with
      | push_i32 | push_char_pos =>
          simp only [computeStackSizeLoop] at h
          split_ifs at h
          · exact later _ _ (by simp) (le_refl _) (by omega) h
          · exact later _ _ (by simp) (by omega) (le_refl _) h
      | drop | bne_char_pos =>
          simp only [REOp.drop_effect, REOp.bne_char_pos_effect] at first
          refine later (stack_size - 1) _ ?_ (by omega) (le_refl _) h
          simp only [REOp.drop_effect, REOp.bne_char_pos_effect]
          omega
      | _ => exact later _ _ (by simp [REOp.effect]) ordered (le_refl _) h

def depthAt : List REOp → Nat → Int
  | [], _ => 0
  | op :: code, pc => if pc = 0 then 0 else op.effect + depthAt code (pc - op.size)

theorem depthAt_front (front : List REOp) (op : REOp) (back : List REOp) :
    depthAt (front ++ op :: back) (codeSize front) = depth front := by
  induction front with
  | nil => simp [depthAt]
  | cons op' front ih =>
      have := op'.size_pos
      rw [List.cons_append, depthAt, codeSize_cons, if_neg (by omega), Nat.add_sub_cancel_left, ih,
        depth_cons]

/-- The code of a compiled pattern is balanced, up to its last `match`. -/
theorem lreCompile_closed {u : UnicodeData} {buf : Bytes} {flags : REFlags} {bc : REByteCode}
    (h : lreCompile u buf flags = .ok bc) : Closed bc.code := by
  obtain ⟨node, hcode, -, -, -⟩ := lreCompile_emit h
  rw [hcode]
  refine closed_of_balanced (Balanced.append ?_ (balanced_emit _ _ _))
  split
  · exact balanced_nil
  · exact balanced_searchPrefix

/-! ### Runs -/

/-- The positions where `lre_exec` starts the code. -/
def StartPc (code : List REOp) (pc : Nat) : Prop :=
  pc = 0 ∨ lreHasSearchPrefix code = true ∧ pc = RE_SEARCH_PREFIX_LEN

theorem StartPc.placed {u : UnicodeData} {buf : Bytes} {flags : REFlags} {bc : REByteCode}
    (h : lreCompile u buf flags = .ok bc) {pc : Nat} (start : StartPc bc.code pc) :
    Placed bc.code pc 0 := by
  obtain ⟨node, hcode, -, -, -⟩ := lreCompile_emit h
  have first : ∃ op rest, (Node.capture node).emit false 0 ++ [.match] = op :: rest :=
    ⟨.save_start 0, _, rfl⟩
  obtain ⟨op, rest, hbody⟩ := first
  rw [List.append_assoc, hbody] at hcode
  obtain rfl | ⟨searching, rfl⟩ := start
  · cases sticky : flags.sticky with
    | true => exact ⟨[], op, rest, by rw [hcode, sticky]; rfl, rfl, rfl⟩
    | false =>
        exact ⟨[], .split_goto_first (1 + 5), _, by rw [hcode, sticky]; rfl, rfl, rfl⟩
  · cases sticky : flags.sticky with
    | true =>
        obtain ⟨rfl, -⟩ := List.cons.inj hbody
        rw [hcode, sticky] at searching
        cases searching
    | false =>
        exact ⟨searchPrefix, op, rest, by rw [hcode, sticky]; rfl, rfl, rfl⟩

/-- What an instruction finds when it is reached. -/
structure StackSafe (bc : REByteCode) (x : ExecContext) (s : ExecState) (op : REOp) : Prop where
  fetched : fetch bc.code s.pc = some op
  /-- The stack is the same whenever the instruction is reached. -/
  same : (s.stack_len : Int) = depthAt bc.code s.pc
  needs : op.needs ≤ s.stack_len
  room : s.stack_len ≤ bc.stack_size ∧ s.stack_len + op.effect ≤ bc.stack_size
  captures : ∀ index ∈ op.captureIndexes, index < bc.capture_count
  /-- A reference to a capture that does not exist fails before it is read. -/
  references : ∀ index, op = .back_reference index ∨ op = .backward_back_reference index →
    bc.capture_count ≤ index → action x s.slots s.stack_len s.pc s.cptr = .noMatch

theorem Placed.safe {u : UnicodeData} {buf : Bytes} {flags : REFlags} {bc : REByteCode}
    (h : lreCompile u buf flags = .ok bc) {cbuf : List Nat} {cbuf_type : CbufType} {s : ExecState}
    (placed : Placed bc.code s.pc s.stack_len) :
    ∃ op, StackSafe bc (execContext u bc cbuf cbuf_type) s op := by
  have closed := lreCompile_closed h
  obtain ⟨node, hcode, hcount, hsize, -⟩ := lreCompile_emit h
  obtain ⟨front, op, back, split, hpc, hlen⟩ := placed
  have fetched : fetch bc.code s.pc = some op := by
    rw [split, ← hpc]
    exact fetch_middle front back op
  obtain ⟨-, bounded⟩ := computeStackSizeLoop_spec (le_refl 0) hsize
    (fun front back split => by simpa using depth_nonneg closed split)
  refine ⟨op, fetched, ?_, ?_, ⟨?_, ?_⟩, ?_, ?_⟩
  · rw [← hlen, ← hpc, split, depthAt_front]
  · rw [← hlen]
    exact closed.needs front op back split
  · have := bounded front (op :: back) split
    omega
  · have := bounded (front ++ [op]) back (by rw [split]; simp)
    rw [depth_append, depth_cons, depth_nil] at this
    omega
  · exact (lreCompile_codeFits h op (by rw [split]; simp)).captures
  · intro index hop hindex
    obtain rfl | rfl := hop
    all_goals
      simp [action, execContext, fetched, backReference, hindex, testAction]

/-- The code of `(a){2,3}` with the search prefix. -/
def repeatedGroup : REByteCode where
  flags := ⟨false, false, false, false, false⟩
  capture_count := 2
  stack_size := 1
  code := searchPrefix ++ [.save_start 0, .push_i32 2, .save_start 1, .char 97, .save_end 1,
    .loop (-12), .drop, .push_i32 1, .split_next_first 12, .save_start 1, .char 97, .save_end 1,
    .loop (-17), .drop, .save_end 0, .match]
  group_names := none

theorem lreCompile_repeatedGroup :
    lreCompile UnicodeData.ascii ['(', 'a', ')', '\x7b', '2', ',', '3', '\x7d']
      ⟨false, false, false, false, false⟩ = .ok repeatedGroup := by
  decide +kernel

end PrimJs.Regexp
