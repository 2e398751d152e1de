import Mathlib.Tactic.IntervalCases
import PrimJs.Optimizer.DeadValueElim
import PrimJs.Optimizer.PostPeephole

/-! Every pattern of `opt_post_peephole` rewrites a window of two instructions to a pair that does
the same. -/

namespace PrimJs

open TraceSimulation

namespace BcOut

variable {P : BcOut} {isLabelTarget : Nat → Bool} {p nr : Nat}

/-! ### The opcodes -/

/-- An opcode without operands -/
structure OneByte (op : Nat) (action : Action) (pops pushes : Nat) : Prop where
  plain : Plain op
  size : opSize op = 1
  acts : OpActs op action pops pushes

theorem oneByte_nop : OneByte opNop .nop 0 0 :=
  ⟨⟨by decide, rfl⟩, rfl, fun _ _ _ => ⟨rfl, rfl, rfl⟩⟩

theorem oneByte_dup : OneByte opDup .dup 1 2 :=
  ⟨⟨by decide, rfl⟩, rfl, fun _ _ _ => ⟨rfl, rfl, rfl⟩⟩

theorem oneByte_drop : OneByte opDrop .drop 1 0 :=
  ⟨⟨by decide, rfl⟩, rfl, fun _ _ _ => ⟨rfl, rfl, rfl⟩⟩

theorem oneByte_swap : OneByte opSwap (.shuffle ⟨[1, 0], [], []⟩) 2 2 :=
  ⟨⟨by decide, rfl⟩, rfl, fun _ _ _ => ⟨rfl, rfl, rfl⟩⟩

theorem oneByte_nip : OneByte opNip (.shuffle ⟨[0], [], [1]⟩) 2 1 :=
  ⟨⟨by decide, rfl⟩, rfl, fun _ _ _ => ⟨rfl, rfl, rfl⟩⟩

theorem oneByte_return : OneByte opReturn .return 1 0 :=
  ⟨⟨by decide, rfl⟩, rfl, fun _ _ _ => ⟨rfl, rfl, rfl⟩⟩

theorem oneByte_returnUndef : OneByte opReturnUndef .returnUndef 0 0 :=
  ⟨⟨by decide, rfl⟩, rfl, fun _ _ _ => ⟨rfl, rfl, rfl⟩⟩

theorem oneByte_strictEq : OneByte opStrictEq .other 2 1 :=
  ⟨⟨by decide, rfl⟩, rfl, fun _ _ _ => ⟨rfl, rfl, rfl⟩⟩

theorem oneByte_test (k : Nullish) : OneByte k.testOp .other 1 1 := by
  cases k with
  | undefined => exact ⟨⟨by decide, rfl⟩, rfl, fun _ _ _ => ⟨rfl, rfl, rfl⟩⟩
  | null => exact ⟨⟨by decide, rfl⟩, rfl, fun _ _ _ => ⟨rfl, rfl, rfl⟩⟩

theorem oneByte_nullish (k : Nullish) : OneByte k.pushOp .push 0 1 := by
  cases k with
  | undefined => exact ⟨⟨by decide, rfl⟩, rfl, fun _ _ _ => ⟨rfl, rfl, rfl⟩⟩
  | null => exact ⟨⟨by decide, rfl⟩, rfl, fun _ _ _ => ⟨rfl, rfl, rfl⟩⟩

theorem isShortPush_spec : ∀ op < opCount, isShortPush op = true → isConstantPush op = true ∧
    hasLabelOperand op = false ∧ opSize op = 1 ∧ (shortOpcodeInfo op).fmt ≠ .npop ∧
      (shortOpcodeInfo op).fmt ≠ .npopx ∧ op ≠ opForOfNext ∧ (shortOpcodeInfo op).nPop = 0 ∧
      (shortOpcodeInfo op).nPush = 1 := by
  decide +kernel

variable {op q : Nat}

theorem isShortPush_known (push : isShortPush op = true) : op < opCount := by
  simp only [isShortPush, Bool.or_eq_true, Bool.and_eq_true, decide_eq_true_eq, beq_iff_eq] at push
  unfold opPushMinus1 opPush7 opUndefined opNull opPushTrue opPushFalse opPushEmptyString at push
  unfold opCount
  omega

theorem oneByte_push (push : isShortPush op = true) : OneByte op .push 0 1 := by
  have known := isShortPush_known push
  have ⟨constant, noLabel, size, fmt, fmt', other, pops, pushes⟩ := isShortPush_spec op known push
  refine ⟨⟨known, noLabel⟩, size, fun size operands target => ⟨?_, ?_, ?_⟩⟩
  · exact isConstantPush_action known constant operands
  · unfold Instr.popCount
    dsimp only
    split
    · next same => exact absurd same fmt
    · next same => exact absurd same fmt'
    · rw [if_neg other, pops]
  · rw [Instr.pushCount, if_neg other, pushes]

def ShortVar.IsKind (x : ShortVar) : Prop := x = shortLoc ∨ x = shortArg ∨ x = shortVarRef

theorem ShortVar.oneByte {x : ShortVar} (kind : x.IsKind) {k : Nat} (small : k < 4) :
    OneByte (x.get + k) (.get ⟨x.kind, k⟩) 0 1 ∧ OneByte (x.put + k) (.put ⟨x.kind, k⟩) 1 0 ∧
      OneByte (x.set + k) (.set ⟨x.kind, k⟩) 1 1 := by
  have offsets : OneByte (x.get + k) (.get ⟨x.kind, x.get + k - x.get⟩) 0 1 ∧
      OneByte (x.put + k) (.put ⟨x.kind, x.put + k - x.put⟩) 1 0 ∧
      OneByte (x.set + k) (.set ⟨x.kind, x.set + k - x.set⟩) 1 1 := by
    rcases kind with rfl | rfl | rfl <;> interval_cases k
    all_goals exact ⟨⟨⟨by decide, rfl⟩, rfl, fun _ _ _ => ⟨rfl, rfl, rfl⟩⟩,
      ⟨⟨by decide, rfl⟩, rfl, fun _ _ _ => ⟨rfl, rfl, rfl⟩⟩,
      ⟨⟨by decide, rfl⟩, rfl, fun _ _ _ => ⟨rfl, rfl, rfl⟩⟩⟩
  simpa only [Nat.add_sub_cancel_left] using offsets

/-- The opcodes after which a position is not looked at again -/
def isSetOp (op : Nat) : Bool :=
  op == opSetLoc8 || (opSetLoc0 ≤ op && op ≤ opSetLoc3) || (opSetArg0 ≤ op && op ≤ opSetArg3) ||
    (opSetVarRef0 ≤ op && op ≤ opSetVarRef3)

theorem ShortVar.isSetOp {x : ShortVar} (kind : x.IsKind) {k : Nat} (small : k < 4) :
    BcOut.isSetOp (x.put + k) = false ∧ BcOut.isSetOp (x.set + k) = true := by
  rcases kind with rfl | rfl | rfl <;> interval_cases k <;> exact ⟨rfl, rfl⟩

/-- Whatever the pattern matches, it rewrites a window to a pair that does the same, and the scan
goes on behind the window or once more at a store that keeps its value. -/
def Pattern.Sound (pattern : Pattern) : Prop :=
  ∀ P isLabelTarget p nr r, Scan P isLabelTarget p nr → pattern P isLabelTarget p nr = some r →
    ∃ m e, Rewritten P (P.writeAll r.writes) p nr m e ∧ (r.next = e ∨
      r.next = p ∧ isSetOp (P.opAt p) = false ∧ isSetOp ((P.writeAll r.writes).opAt p) = true)

/-! ### One byte each -/

theorem opAt_two {a b x y : Nat} (boundA : a < P.size) (boundB : b < P.size) (smallX : x < 256)
    (smallY : y < 256) (i : Nat) : (P.writeAll [(a, x), (b, y)]).opAt i =
      if i = b then y else if i = a then x else P.opAt i := by
  have split : P.writeAll [(a, x), (b, y)] = (P.write a x).write b y := rfl
  rw [split, opAt_write (by rwa [write_size]) smallY, opAt_write boundA smallX]

theorem Plain.small (plain : Plain op) : op < 256 :=
  Nat.lt_trans plain.known (by decide)

/-- A window by the opcodes that are written -/
theorem Scan.window {writes : List (Nat × Nat)} {m t x y : Nat} (scan : Scan P isLabelTarget p nr)
    (head : hasLabelOperand (P.opAt p) = false) (tail : Plain (P.opAt nr))
    (width : opSize (P.opAt nr) = t) (room : nr + t ≤ P.size) (free : isLabelTarget nr = false)
    (within : ∀ x ∈ writes, p ≤ x.1 ∧ x.1 < nr + t ∧ x.2 < 256)
    (opHead : (P.writeAll writes).opAt p = x) (head' : Plain x) (headStop : p + opSize x ≤ m)
    (gap : ∀ q, p + opSize x ≤ q → q < m → (P.writeAll writes).opAt q = opNop)
    (opTail : (P.writeAll writes).opAt m = y) (tail' : Plain y) (tailStop : m + opSize y ≤ nr + t)
    (rest : ∀ q, m + opSize y ≤ q → q < nr + t → (P.writeAll writes).opAt q = opNop)
    (pair : Peephole (P.instrAt p) (P.instrAt nr) ((P.writeAll writes).instrAt p)
      ((P.writeAll writes).instrAt m)) : Rewritten P (P.writeAll writes) p nr m (nr + t) := by
  subst width opHead opTail
  exact scan.rewritten head tail room free within ⟨head', headStop, gap, tail', tailStop, rest⟩ pair

theorem Scan.rewrite_one {h t x : Nat} {actionH actionT actionX : Action} {a b c d f g : Nat}
    (scan : Scan P isLabelTarget p nr) (head : OneByte h actionH a b) (tail : OneByte t actionT c d)
    (result : OneByte x actionX f g) (opHead : P.opAt p = h) (opTail : P.opAt nr = t)
    (room : nr < P.size) (free : isLabelTarget nr = false)
    (pair : ∀ i j i' j', i = P.instrAt p → j = P.instrAt nr →
      i' = (P.writeAll [(p, x), (nr, opNop)]).instrAt p → i'.op = x →
      Acts i actionH a b → Acts j actionT c d → Acts i' actionX f g → Acts j' .nop 0 0 →
      Peephole i j i' j') :
    Rewritten P (P.writeAll [(p, x), (nr, opNop)]) p nr nr (nr + 1) := by
  have written := opAt_two scan.inside room result.plain.small oneByte_nop.plain.small
  have lt := scan.lt
  have atHead : (P.writeAll [(p, x), (nr, opNop)]).opAt p = x := by
    rw [written, if_neg lt.ne, if_pos rfl]
  have atTail : (P.writeAll [(p, x), (nr, opNop)]).opAt nr = opNop := by
    rw [written, if_pos rfl]
  have sizeHead : opSize (P.opAt p) = 1 := by rw [opHead, head.size]
  have sizeTail : opSize (P.opAt nr) = 1 := by rw [opTail, tail.size]
  subst opHead opTail
  apply scan.window head.plain.noLabel tail.plain sizeTail room free ?_ atHead result.plain ?_ ?_
    atTail oneByte_nop.plain ?_ ?_ ?_
  · intro w member
    simp only [List.mem_cons, List.not_mem_nil, or_false] at member
    rcases member with rfl | rfl
    · exact ⟨le_rfl, by dsimp only; omega, result.plain.small⟩
    · exact ⟨lt.le, Nat.lt_succ_self nr, oneByte_nop.plain.small⟩
  · rw [result.size]
    exact lt
  · intro q low high
    rw [result.size] at low
    rw [written, if_neg (by omega), if_neg (by omega)]
    exact (scan.gap (by omega) high).1
  · rw [oneByte_nop.size]
  · intro q low high
    rw [oneByte_nop.size] at low
    omega
  · exact pair _ _ _ _ rfl rfl rfl atHead (acts_of_op head.acts rfl) (acts_of_op tail.acts rfl)
      (acts_of_op result.acts atHead) (acts_of_op oneByte_nop.acts atTail)

theorem operandBytes_nil (plain : Plain (P.opAt q)) (size : opSize (P.opAt q) = 1) :
    P.operandBytes q = [] := by
  have noLabel := plain.noLabel
  unfold hasLabelOperand at noLabel
  unfold operandBytes
  split
  case h_1 format | h_2 format | h_3 format | h_4 format => rfl
  case h_5 format | h_6 format => simp [format] at noLabel
  case h_7 =>
    rw [size]
    exact List.take_zero

theorem OneByte.operands {action : Action} {pops pushes : Nat}
    (one : OneByte op action pops pushes) (here : P.opAt q = op) : (P.instrAt q).operands = [] := by
  apply operandBytes_nil
  · rw [here]
    exact one.plain
  · rw [here, one.size]

/-- Two opcodes without operands -/
theorem twoOps_sound {h t x : Nat} {actionH actionT actionX : Action} {a b c d f g : Nat}
    (head : OneByte h actionH a b) (tail : OneByte t actionT c d) (result : OneByte x actionX f g)
    (pair : ∀ i j i' j' : Instr, i.op = h → i.operands = [] → j.op = t → j.operands = [] →
      i'.op = x → i'.operands = [] → Acts i actionH a b → Acts j actionT c d →
      Acts i' actionX f g → Acts j' .nop 0 0 → Peephole i j i' j') :
    Pattern.Sound (twoOps h t x) := by
  intro P isLabelTarget p nr r scan found
  unfold twoOps at found
  split at found
  · next matches_ =>
    have ⟨opHead, room, opTail, free⟩ := matches_
    cases found
    refine ⟨nr, nr + 1, ?_, .inl rfl⟩
    apply scan.rewrite_one head tail result opHead opTail room free
    intro i j i' j' sameI sameJ sameI' opI' actsI actsJ actsI' actsJ'
    subst sameI sameJ sameI'
    exact pair _ _ _ _ opHead (head.operands opHead) opTail (tail.operands opTail) opI'
      (result.operands opI') actsI actsJ actsI' actsJ'
  · cases found

theorem pattern23_sound : Pattern.Sound pattern23 :=
  twoOps_sound oneByte_dup oneByte_drop oneByte_nop fun _ _ _ _ _ _ _ _ _ _ head tail head' tail' =>
    .dupDrop head tail head' tail'

theorem pattern24_sound : Pattern.Sound pattern24 :=
  twoOps_sound oneByte_swap oneByte_swap oneByte_nop
    fun _ _ _ _ _ _ _ _ _ _ head tail head' tail' => .swapSwap head tail head' tail'

theorem pattern25_sound : Pattern.Sound pattern25 :=
  twoOps_sound oneByte_swap oneByte_nip oneByte_drop
    fun _ _ _ _ _ _ _ _ _ _ head tail head' tail' => .swapNip head tail head' tail'

theorem pattern28_sound : Pattern.Sound pattern28 :=
  twoOps_sound (oneByte_nullish .undefined) oneByte_return oneByte_returnUndef
    fun _ _ _ _ op plain _ _ _ _ head tail head' _ => .undefinedReturn head op plain tail head'

theorem nullishEq_sound (k : Nullish) : Pattern.Sound (twoOps k.pushOp opStrictEq k.testOp) :=
  twoOps_sound (oneByte_nullish k) oneByte_strictEq (oneByte_test k)
    fun _ _ _ _ op plain opTail plainTail op' plain' head tail head' tail' =>
      .nullishEq k head op plain tail opTail plainTail head' op' plain' tail'

/-! ### Variables with the index in the opcode -/

section Short

variable {x : ShortVar} (kind : x.IsKind)
include kind

theorem putGetShort_sound : Pattern.Sound (putGetShort x) := by
  intro P isLabelTarget p nr r scan found
  unfold putGetShort at found
  dsimp only at found
  split at found
  · next matches_ =>
    have ⟨low, high, room, opTail, free⟩ := matches_
    cases found
    have ⟨k, offset⟩ := Nat.exists_eq_add_of_le low
    rw [offset, Nat.add_sub_cancel_left] at opTail ⊢
    have small : k < 4 := by omega
    have ⟨get, put, set⟩ := ShortVar.oneByte kind small
    have ⟨noSet, isSet⟩ := ShortVar.isSetOp kind small
    have window := scan.rewrite_one put get set offset opTail room free
      fun i j i' j' _ _ _ _ head tail head' tail' => .putGet ⟨x.kind, k⟩ head tail head' tail'
    refine ⟨nr, nr + 1, window, .inr ⟨rfl, noSet, ?_⟩⟩
    have lt := scan.lt
    rw [opAt_two scan.inside room set.plain.small oneByte_nop.plain.small, if_neg lt.ne, if_pos rfl]
    exact isSet
  · cases found

theorem getDropShort_sound (unlabelledHead : Bool) :
    Pattern.Sound (getDropShort x unlabelledHead) := by
  intro P isLabelTarget p nr r scan found
  unfold getDropShort at found
  dsimp only at found
  split at found
  · next matches_ =>
    have ⟨low, high, room, opTail, _, free⟩ := matches_
    cases found
    have ⟨k, offset⟩ := Nat.exists_eq_add_of_le low
    have ⟨get, _, _⟩ := ShortVar.oneByte kind (show k < 4 by omega)
    have window := scan.rewrite_one get oneByte_drop oneByte_nop offset opTail room free
      fun i j i' j' _ _ _ _ head tail head' tail' => .getDrop ⟨x.kind, k⟩ head tail head' tail'
    exact ⟨nr, nr + 1, window, .inl rfl⟩
  · cases found

theorem setDropShort_sound : Pattern.Sound (setDropShort x) := by
  intro P isLabelTarget p nr r scan found
  unfold setDropShort at found
  dsimp only at found
  split at found
  · next matches_ =>
    have ⟨low, high, room, opTail, free⟩ := matches_
    cases found
    have ⟨k, offset⟩ := Nat.exists_eq_add_of_le low
    rw [offset, Nat.add_sub_cancel_left]
    have ⟨_, put, set⟩ := ShortVar.oneByte kind (show k < 4 by omega)
    have window := scan.rewrite_one set oneByte_drop put offset opTail room free
      fun i j i' j' _ _ _ _ head tail head' tail' => .setDrop ⟨x.kind, k⟩ head tail head' tail'
    exact ⟨nr, nr + 1, window, .inl rfl⟩
  · cases found

theorem dupPutShort_sound : Pattern.Sound (dupPutShort x) := by
  intro P isLabelTarget p nr r scan found
  unfold dupPutShort at found
  split at found
  · next matches_ =>
    have ⟨opHead, room, low, high, free⟩ := matches_
    cases found
    have ⟨k, offset⟩ := Nat.exists_eq_add_of_le low
    rw [offset, Nat.add_sub_cancel_left]
    have ⟨_, put, set⟩ := ShortVar.oneByte kind (show k < 4 by omega)
    have window := scan.rewrite_one oneByte_dup put set opHead offset room free
      fun i j i' j' _ _ _ _ head tail head' tail' => .dupPut ⟨x.kind, k⟩ head tail head' tail'
    exact ⟨nr, nr + 1, window, .inl rfl⟩
  · cases found

end Short

theorem pattern8_sound : Pattern.Sound pattern8 := by
  intro P isLabelTarget p nr r scan found
  unfold pattern8 at found
  split at found
  · next matches_ =>
    have ⟨room, opTail, _, free, _, push⟩ := matches_
    cases found
    have window := scan.rewrite_one (oneByte_push push) oneByte_drop oneByte_nop rfl opTail room free
      fun i j i' j' _ _ _ _ head tail head' tail' => .pushDrop head tail head' tail'
    exact ⟨nr, nr + 1, window, .inl rfl⟩
  · cases found

/-! ### Operands of one byte -/

theorem getU8_slice {buf : List UInt8} (pos : Nat) : getU8 (slice buf pos 1) 0 = byteAt buf pos := by
  simp only [getU8, byteAt, slice, List.getElem?_take, List.getElem?_drop, Nat.add_zero,
    Nat.zero_lt_one, if_true]

theorem plain_loc8 (op : Nat) (loc8 : op = opGetLoc8 ∨ op = opPutLoc8 ∨ op = opSetLoc8) :
    Plain op ∧ opSize op = 2 := by
  rcases loc8 with rfl | rfl | rfl
  · exact ⟨⟨by decide, rfl⟩, rfl⟩
  · exact ⟨⟨by decide, rfl⟩, rfl⟩
  · exact ⟨⟨by decide, rfl⟩, rfl⟩

/-- What one of these opcodes does, by the byte behind it -/
theorem acts_loc8 {action : Var → Action} {pops pushes : Nat}
    (loc8 : op = opGetLoc8 ∨ op = opPutLoc8 ∨ op = opSetLoc8) (acts : ∀ size operands target,
      Acts ⟨op, size, operands, target⟩ (action ⟨.loc, getU8 operands 0⟩) pops pushes)
    (here : P.opAt q = op) : Acts (P.instrAt q) (action ⟨.loc, P.opAt (q + 1)⟩) pops pushes := by
  have operands : P.operandBytes q = slice P.buf (q + 1) 1 := by
    unfold operandBytes
    rw [here]
    rcases loc8 with rfl | rfl | rfl <;> rfl
  have byte : getU8 (P.operandBytes q) 0 = P.opAt (q + 1) := by
    rw [operands, getU8_slice]
    rfl
  subst here
  rw [← byte]
  exact acts _ _ _

theorem acts_getLoc8 (here : P.opAt q = opGetLoc8) :
    Acts (P.instrAt q) (.get ⟨.loc, P.opAt (q + 1)⟩) 0 1 :=
  acts_loc8 (.inl rfl) (fun _ _ _ => ⟨rfl, rfl, rfl⟩) here

theorem acts_putLoc8 (here : P.opAt q = opPutLoc8) :
    Acts (P.instrAt q) (.put ⟨.loc, P.opAt (q + 1)⟩) 1 0 :=
  acts_loc8 (.inr (.inl rfl)) (fun _ _ _ => ⟨rfl, rfl, rfl⟩) here

theorem acts_setLoc8 (here : P.opAt q = opSetLoc8) :
    Acts (P.instrAt q) (.set ⟨.loc, P.opAt (q + 1)⟩) 1 1 :=
  acts_loc8 (.inr (.inr rfl)) (fun _ _ _ => ⟨rfl, rfl, rfl⟩) here

theorem opAt_writeAll_nops {writes : List (Nat × Nat)} (bounds : ∀ x ∈ writes, x.1 < P.size)
    (nops : ∀ x ∈ writes, x.2 = opNop) (i : Nat) : (P.writeAll writes).opAt i =
      if i ∈ writes.map Prod.fst then opNop else P.opAt i := by
  induction writes using List.reverseRecOn with
  | nil => rfl
  | append_singleton writes last ih =>
      have earlier := ih (fun x member => bounds x (by simp [member]))
        fun x member => nops x (by simp [member])
      have bound := bounds last (by simp)
      have split : P.writeAll (writes ++ [last]) = (P.writeAll writes).write last.1 opNop := by
        rw [writeAll, List.foldl_append, ← nops last (by simp)]
        rfl
      rw [split, opAt_write (by rwa [writeAll_size]) (by decide), earlier]
      by_cases here : i = last.1
      · simp [here]
      · have member : i ∈ (writes ++ [last]).map Prod.fst ↔ i ∈ writes.map Prod.fst := by
          simp [here]
        simp only [if_neg here, member]

theorem wideDrop_sound {size : Nat} {unlabelled : List Nat} (plain : Plain op)
    (width : opSize op = size) (acts : ∀ (P : BcOut) q, P.opAt q = op →
      (∃ x, Acts (P.instrAt q) (.get x) 0 1) ∨ Acts (P.instrAt q) .push 0 1) :
    Pattern.Sound (wideDrop op size unlabelled) := by
  intro P isLabelTarget p nr r scan found
  unfold wideDrop at found
  split at found
  · next matches_ =>
    have ⟨opHead, room, opTail, _, free⟩ := matches_
    cases found
    have order := scan.order
    rw [opHead, width] at order
    have sizeTail : opSize (P.opAt nr) = 1 := by rw [opTail, oneByte_drop.size]
    have lt := scan.lt
    have bounds : ∀ x ∈ (List.range size).map (fun k => (p + k, opNop)) ++ [(nr, opNop)],
        p ≤ x.1 ∧ x.1 < nr + 1 ∧ x.2 = opNop := by
      intro x member
      simp only [List.mem_append, List.mem_map, List.mem_range, List.mem_singleton] at member
      rcases member with ⟨k, small, rfl⟩ | rfl
      · exact ⟨Nat.le_add_right p k, by dsimp only; omega, rfl⟩
      · exact ⟨lt.le, Nat.lt_succ_self nr, rfl⟩
    have nops : ∀ q, p ≤ q → q < nr + 1 → (P.writeAll ((List.range size).map
        (fun k => (p + k, opNop)) ++ [(nr, opNop)])).opAt q = opNop := by
      intro q low high
      rw [opAt_writeAll_nops (fun x member => by have := bounds x member; omega)
        (fun x member => (bounds x member).2.2)]
      split
      · rfl
      · next outside =>
        simp only [List.map_append, List.map_map, List.mem_append, List.mem_map, List.mem_range,
          Function.comp_apply, List.map_cons, List.map_nil, List.mem_singleton, not_or, not_exists,
          not_and] at outside
        have behind : p + size ≤ q := by
          by_contra inside
          exact outside.1 (q - p) (by omega) (by omega)
        have gap := scan.gap (q := q) (by rw [opHead, width]; exact behind) (by omega)
        exact gap.1
    have atHead := nops p le_rfl (by omega)
    have atTail := nops nr lt.le (Nat.lt_succ_self nr)
    refine ⟨nr, nr + 1, ?_, .inl rfl⟩
    apply scan.window ?_ ?_ sizeTail room free ?_ atHead oneByte_nop.plain ?_ ?_ atTail
      oneByte_nop.plain ?_ ?_ ?_
    · rw [opHead]
      exact plain.noLabel
    · rw [opTail]
      exact oneByte_drop.plain
    · intro x member
      have ⟨low, high, nop⟩ := bounds x member
      rw [nop]
      exact ⟨low, high, oneByte_nop.plain.small⟩
    · rw [oneByte_nop.size]
      exact lt
    · exact fun q low high => nops q (by omega) (by omega)
    · rw [oneByte_nop.size]
    · exact fun q low high => nops q (by omega) high
    · have tail := acts_of_op oneByte_drop.acts opTail
      have head' := acts_of_op oneByte_nop.acts atHead
      have tail' := acts_of_op oneByte_nop.acts atTail
      rcases acts P p opHead with ⟨x, head⟩ | head
      · exact .getDrop x head tail head' tail'
      · exact .pushDrop head tail head' tail'
  · cases found

theorem pattern3_sound : Pattern.Sound pattern3 :=
  wideDrop_sound (plain_loc8 opGetLoc8 (.inl rfl)).1 rfl fun _ _ here => .inl ⟨_, acts_getLoc8 here⟩

theorem pattern7_sound : Pattern.Sound pattern7 :=
  wideDrop_sound ⟨by decide, rfl⟩ rfl fun _ _ here =>
    .inr (acts_of_op (fun _ _ _ => ⟨rfl, rfl, rfl⟩) here)

theorem pattern21_sound : Pattern.Sound pattern21 :=
  wideDrop_sound ⟨by decide, rfl⟩ rfl fun _ _ here =>
    .inr (acts_of_op (fun _ _ _ => ⟨rfl, rfl, rfl⟩) here)

theorem pattern22_sound : Pattern.Sound pattern22 :=
  wideDrop_sound ⟨by decide, rfl⟩ rfl fun _ _ here =>
    .inr (acts_of_op (fun _ _ _ => ⟨rfl, rfl, rfl⟩) here)

theorem pattern5_sound : Pattern.Sound pattern5 := by
  intro P isLabelTarget p nr r scan found
  unfold pattern5 at found
  split at found
  · next matches_ =>
    have ⟨opHead, room, opTail, free⟩ := matches_
    cases found
    have ⟨plainHead, sizeHead⟩ := plain_loc8 (P.opAt p) (.inr (.inr opHead))
    have ⟨plainPut, sizePut⟩ := plain_loc8 opPutLoc8 (.inr (.inl rfl))
    have order := scan.order
    rw [sizeHead] at order
    have sizeTail : opSize (P.opAt nr) = 1 := by rw [opTail, oneByte_drop.size]
    have written := opAt_two scan.inside room plainPut.small oneByte_nop.plain.small
    have atHead : (P.writeAll [(p, opPutLoc8), (nr, opNop)]).opAt p = opPutLoc8 := by
      rw [written, if_neg (by omega), if_pos rfl]
    have atTail : (P.writeAll [(p, opPutLoc8), (nr, opNop)]).opAt nr = opNop := by
      rw [written, if_pos rfl]
    have index : (P.writeAll [(p, opPutLoc8), (nr, opNop)]).opAt (p + 1) = P.opAt (p + 1) := by
      rw [written, if_neg (by omega), if_neg (by omega)]
    refine ⟨nr, nr + 1, ?_, .inl rfl⟩
    apply scan.window plainHead.noLabel ?_ sizeTail room free ?_ atHead plainPut ?_ ?_ atTail
      oneByte_nop.plain ?_ ?_ ?_
    · rw [opTail]
      exact oneByte_drop.plain
    · intro x member
      simp only [List.mem_cons, List.not_mem_nil, or_false] at member
      rcases member with rfl | rfl
      · exact ⟨le_rfl, by dsimp only; omega, plainPut.small⟩
      · exact ⟨by dsimp only; omega, Nat.lt_succ_self nr, oneByte_nop.plain.small⟩
    · rw [sizePut]
      exact order
    · intro q low high
      rw [sizePut] at low
      rw [written, if_neg (by omega), if_neg (by omega)]
      exact (scan.gap (by rw [sizeHead]; exact low) high).1
    · rw [oneByte_nop.size]
    · intro q low high
      rw [oneByte_nop.size] at low
      omega
    · have put := acts_putLoc8 atHead
      rw [index] at put
      exact .setDrop _ (acts_setLoc8 opHead) (acts_of_op oneByte_drop.acts opTail) put
        (acts_of_op oneByte_nop.acts atTail)
  · cases found

/-! ### The value is read again -/

/-- `get_x` and `set_x` leave the value of `x` on the stack, so a read behind them is a `dup`. -/
theorem peephole_again {i j i' j' : Instr} {x : Var}
    (head : Acts i (.get x) 0 1 ∧ Acts i' (.get x) 0 1 ∨ Acts i (.set x) 1 1 ∧ Acts i' (.set x) 1 1)
    (tail : Acts j (.get x) 0 1) (tail' : Acts j' .dup 1 2) : Peephole i j i' j' := by
  rcases head with ⟨head, head'⟩ | ⟨head, head'⟩
  · exact .getGet x head tail head' tail'
  · exact .setGet x head tail head' tail'

theorem setGetShort_sound {x : ShortVar} (kind : x.IsKind) : Pattern.Sound (setGetShort x) := by
  intro P isLabelTarget p nr r scan found
  unfold setGetShort at found
  dsimp only at found
  split at found
  · next matches_ =>
    have ⟨low, high, room, opTail, free⟩ := matches_
    cases found
    have ⟨k, offset⟩ := Nat.exists_eq_add_of_le low
    rw [offset, Nat.add_sub_cancel_left] at opTail
    have ⟨get, _, set⟩ := ShortVar.oneByte kind (show k < 4 by omega)
    have sizeHead : opSize (P.opAt p) = 1 := by rw [offset, set.size]
    have sizeTail : opSize (P.opAt nr) = 1 := by rw [opTail, get.size]
    have lt := scan.lt
    have written : ∀ i, (P.writeAll [(nr, opDup)]).opAt i = if i = nr then opDup else P.opAt i :=
      fun i => opAt_write room oneByte_dup.plain.small
    have atHead : (P.writeAll [(nr, opDup)]).opAt p = x.set + k := by
      rw [written, if_neg lt.ne, offset]
    have atTail : (P.writeAll [(nr, opDup)]).opAt nr = opDup := by rw [written, if_pos rfl]
    refine ⟨nr, nr + 1, ?_, .inl rfl⟩
    apply scan.window ?_ ?_ sizeTail room free ?_ atHead set.plain ?_ ?_ atTail
      oneByte_dup.plain ?_ ?_ ?_
    · rw [offset]
      exact set.plain.noLabel
    · rw [opTail]
      exact get.plain
    · intro x member
      rw [List.mem_singleton] at member
      subst member
      exact ⟨lt.le, Nat.lt_succ_self nr, oneByte_dup.plain.small⟩
    · rw [set.size]
      exact lt
    · intro q low high
      rw [set.size] at low
      rw [written, if_neg (by omega)]
      exact (scan.gap (by omega) high).1
    · rw [oneByte_dup.size]
    · intro q low high
      rw [oneByte_dup.size] at low
      omega
    · exact peephole_again (.inr ⟨acts_of_op set.acts offset, acts_of_op set.acts atHead⟩)
        (acts_of_op get.acts opTail) (acts_of_op oneByte_dup.acts atTail)
  · cases found

theorem repeatGet_sound (loc8 : op = opGetLoc8 ∨ op = opSetLoc8) :
    Pattern.Sound (repeatGet op) := by
  intro P isLabelTarget p nr r scan found
  unfold repeatGet at found
  split at found
  · next matches_ =>
    have ⟨opHead, room, opTail, sameIdx, free⟩ := matches_
    cases found
    have ⟨plainHead, sizeHead⟩ := plain_loc8 op (loc8.imp id .inr)
    have ⟨plainTail, sizeTail⟩ := plain_loc8 (P.opAt nr) (.inl opTail)
    have order := scan.order
    rw [opHead, sizeHead] at order
    have written := opAt_two (x := opDup) (y := opNop) (show nr < P.size by omega)
      (show nr + 1 < P.size by omega) oneByte_dup.plain.small oneByte_nop.plain.small
    have kept : ∀ i, i < nr → (P.writeAll [(nr, opDup), (nr + 1, opNop)]).opAt i = P.opAt i := by
      intro i before
      rw [written, if_neg (by omega), if_neg (by omega)]
    have atHead : (P.writeAll [(nr, opDup), (nr + 1, opNop)]).opAt p = op := by
      rw [kept p (by omega), opHead]
    have atTail : (P.writeAll [(nr, opDup), (nr + 1, opNop)]).opAt nr = opDup := by
      rw [written, if_neg (by omega), if_pos rfl]
    have index := kept (p + 1) (by omega)
    refine ⟨nr, nr + 2, ?_, .inl rfl⟩
    apply scan.window ?_ plainTail sizeTail room free ?_ atHead plainHead ?_ ?_ atTail
      oneByte_dup.plain ?_ ?_ ?_
    · rw [opHead]
      exact plainHead.noLabel
    · intro x member
      simp only [List.mem_cons, List.not_mem_nil, or_false] at member
      rcases member with rfl | rfl
      · exact ⟨by dsimp only; omega, by dsimp only; omega, oneByte_dup.plain.small⟩
      · exact ⟨by dsimp only; omega, by dsimp only; omega, oneByte_nop.plain.small⟩
    · rw [sizeHead]
      exact order
    · intro q low high
      rw [sizeHead] at low
      rw [kept q high]
      exact (scan.gap (by rw [opHead, sizeHead]; exact low) high).1
    · rw [oneByte_dup.size]
      omega
    · intro q low high
      rw [oneByte_dup.size] at low
      rw [written, if_pos (by omega)]
    · have tail := acts_getLoc8 opTail
      rw [← sameIdx] at tail
      apply peephole_again ?_ tail (acts_of_op oneByte_dup.acts atTail)
      rcases loc8 with rfl | rfl
      · have head' := acts_getLoc8 atHead
        rw [index] at head'
        exact .inl ⟨acts_getLoc8 opHead, head'⟩
      · have head' := acts_setLoc8 atHead
        rw [index] at head'
        exact .inr ⟨acts_setLoc8 opHead, head'⟩
  · cases found

/-! ### Stores and reads with an operand -/

theorem pattern1_sound : Pattern.Sound pattern1 := by
  intro P isLabelTarget p nr r scan found
  unfold pattern1 at found
  split at found
  · next matches_ =>
    have ⟨opHead, room, opTail, sameIdx, free⟩ := matches_
    cases found
    have ⟨plainHead, sizeHead⟩ := plain_loc8 (P.opAt p) (.inr (.inl opHead))
    have ⟨plainTail, sizeTail⟩ := plain_loc8 (P.opAt nr) (.inl opTail)
    have ⟨plainSet, sizeSet⟩ := plain_loc8 opSetLoc8 (.inr (.inr rfl))
    have order := scan.order
    rw [sizeHead] at order
    have nop := oneByte_nop.plain.small
    have written : ∀ i, (P.writeAll [(p, opSetLoc8), (nr, opNop), (nr + 1, opNop)]).opAt i =
        if i = nr + 1 then opNop else if i = nr then opNop else if i = p then opSetLoc8
        else P.opAt i := by
      intro i
      have split : P.writeAll [(p, opSetLoc8), (nr, opNop), (nr + 1, opNop)] =
          (P.writeAll [(p, opSetLoc8), (nr, opNop)]).write (nr + 1) opNop := rfl
      rw [split, opAt_write (by rw [writeAll_size]; omega) nop,
        opAt_two scan.inside (by omega) plainSet.small nop]
    have atHead : (P.writeAll [(p, opSetLoc8), (nr, opNop), (nr + 1, opNop)]).opAt p =
        opSetLoc8 := by
      rw [written, if_neg (by omega), if_neg (by omega), if_pos rfl]
    have atTail : (P.writeAll [(p, opSetLoc8), (nr, opNop), (nr + 1, opNop)]).opAt nr = opNop := by
      rw [written, if_neg (by omega), if_pos rfl]
    have index : (P.writeAll [(p, opSetLoc8), (nr, opNop), (nr + 1, opNop)]).opAt (p + 1) =
        P.opAt (p + 1) := by
      rw [written, if_neg (by omega), if_neg (by omega), if_neg (by omega)]
    refine ⟨nr, nr + 2, ?_, .inr ⟨rfl, by rw [opHead]; rfl, by dsimp only; rw [atHead]; rfl⟩⟩
    apply scan.window plainHead.noLabel plainTail sizeTail room free ?_ atHead plainSet ?_ ?_
      atTail oneByte_nop.plain ?_ ?_ ?_
    · intro x member
      simp only [List.mem_cons, List.not_mem_nil, or_false] at member
      rcases member with rfl | rfl | rfl
      · exact ⟨le_rfl, by dsimp only; omega, plainSet.small⟩
      · exact ⟨by dsimp only; omega, by dsimp only; omega, nop⟩
      · exact ⟨by dsimp only; omega, by dsimp only; omega, nop⟩
    · rw [sizeSet]
      exact order
    · intro q low high
      rw [sizeSet] at low
      rw [written, if_neg (by omega), if_neg (by omega), if_neg (by omega)]
      exact (scan.gap (by rw [sizeHead]; exact low) high).1
    · rw [oneByte_nop.size]
      omega
    · intro q low high
      rw [oneByte_nop.size] at low
      rw [written, if_pos (by omega)]
    · have tail := acts_getLoc8 opTail
      have set := acts_setLoc8 atHead
      rw [← sameIdx] at tail
      rw [index] at set
      exact .putGet _ (acts_putLoc8 opHead) tail set (acts_of_op oneByte_nop.acts atTail)
  · cases found

theorem pattern20c_sound : Pattern.Sound pattern20c := by
  intro P isLabelTarget p nr r scan found
  unfold pattern20c at found
  split at found
  · next matches_ =>
    have ⟨opHead, room, opTail, free⟩ := matches_
    cases found
    have ⟨plainTail, sizeTail⟩ := plain_loc8 (P.opAt nr) (.inr (.inl opTail))
    have ⟨plainSet, sizeSet⟩ := plain_loc8 opSetLoc8 (.inr (.inr rfl))
    have lt := scan.lt
    have sizeHead : opSize (P.opAt p) = 1 := by rw [opHead, oneByte_dup.size]
    have nop := oneByte_nop.plain.small
    have byte : P.opAt (nr + 1) < 256 := byteAt_lt _ _
    generalize shape : [(p, opSetLoc8), (p + 1, P.opAt (nr + 1))] ++
      (if p + 1 < nr then [(nr, opNop)] else []) ++ [(nr + 1, opNop)] = writes
    have bounds : ∀ x ∈ writes, p ≤ x.1 ∧ x.1 < nr + 2 ∧ x.2 < 256 := by
      intro x member
      rw [← shape] at member
      simp only [List.mem_append, List.mem_cons, List.not_mem_nil, or_false] at member
      rcases member with ((rfl | rfl) | gap) | rfl
      · exact ⟨le_rfl, by dsimp only; omega, plainSet.small⟩
      · exact ⟨by dsimp only; omega, by dsimp only; omega, byte⟩
      · split at gap
        · rw [List.mem_singleton] at gap
          subst gap
          exact ⟨lt.le, by dsimp only; omega, nop⟩
        · cases gap
      · exact ⟨by dsimp only; omega, Nat.lt_succ_self _, nop⟩
    have written := opAt_writeAll (P := P) writes fun x member => by
      have inside := bounds x member
      exact ⟨by omega, inside.2.2⟩
    have differs : ∀ a b : Nat, a < b → (a == b) = false := fun a b less => beq_false_of_ne less.ne
    have headIndex := differs p (p + 1) (by omega)
    have headTail := differs p nr lt
    have headLast := differs p (nr + 1) (by omega)
    have indexLast := differs (p + 1) (nr + 1) (by omega)
    have tailLast := differs nr (nr + 1) (by omega)
    have atHead : (P.writeAll writes).opAt p = opSetLoc8 := by
      rw [written, ← shape]
      split
      · simp [List.lookup_cons, headLast, headTail, headIndex]
      · simp [List.lookup_cons, headLast, headIndex]
    have index : (P.writeAll writes).opAt (p + 1) = P.opAt (nr + 1) := by
      rw [written, ← shape]
      split
      · next gap => simp [List.lookup_cons, indexLast, differs (p + 1) nr gap]
      · simp [List.lookup_cons, indexLast]
    have atTail : (P.writeAll writes).opAt (nr + 1) = opNop := by
      rw [written, ← shape]
      simp
    have nops : ∀ q, p + 2 ≤ q → q < nr + 1 → (P.writeAll writes).opAt q = opNop := by
      intro q low high
      have other : (q == nr + 1) = false := beq_false_of_ne (by omega)
      have notHead : (q == p) = false := beq_false_of_ne (by omega)
      have notIndex : (q == p + 1) = false := beq_false_of_ne (by omega)
      rw [written, ← shape, if_pos (by omega)]
      by_cases last : q = nr
      · simp [List.lookup_cons, last, tailLast]
      · have notTail : (q == nr) = false := beq_false_of_ne last
        have gap := (scan.gap (q := q) (by omega) (by omega)).1
        simp [List.lookup_cons, other, notHead, notIndex, notTail, gap]
    refine ⟨nr + 1, nr + 2, ?_, .inr ⟨rfl, by rw [opHead]; rfl, by dsimp only; rw [atHead]; rfl⟩⟩
    apply scan.window ?_ plainTail sizeTail room free bounds atHead plainSet ?_ ?_ atTail
      oneByte_nop.plain ?_ ?_ ?_
    · rw [opHead]
      exact oneByte_dup.plain.noLabel
    · rw [sizeSet]
      omega
    · intro q low high
      rw [sizeSet] at low
      exact nops q low high
    · rw [oneByte_nop.size]
    · intro q low high
      rw [oneByte_nop.size] at low
      omega
    · have set := acts_setLoc8 atHead
      rw [index] at set
      exact .dupPut _ (acts_of_op oneByte_dup.acts opHead) (acts_putLoc8 opTail) set
        (acts_of_op oneByte_nop.acts atTail)
  · cases found

theorem getField_spec (op : Nat) (field : op = opGetField ∨ op = opGetField2) :
    Plain op ∧ opSize op = 5 ∧ (shortOpcodeInfo op).fmt = .atom := by
  rcases field with rfl | rfl
  · exact ⟨⟨by decide, rfl⟩, rfl, rfl⟩
  · exact ⟨⟨by decide, rfl⟩, rfl, rfl⟩

theorem patternField_sound : Pattern.Sound patternField := by
  intro P isLabelTarget p nr r scan found
  unfold patternField at found
  split at found
  · next matches_ =>
    have ⟨opHead, room, opTail, free⟩ := matches_
    cases found
    have ⟨plainTail, sizeTail, fmt⟩ := getField_spec (P.opAt nr) (.inl opTail)
    have ⟨plainTail', sizeTail', fmt'⟩ := getField_spec opGetField2 (.inr rfl)
    have lt := scan.lt
    have sizeHead : opSize (P.opAt p) = 1 := by rw [opHead, oneByte_dup.size]
    have written := opAt_two scan.inside (show nr < P.size by omega) oneByte_nop.plain.small
      plainTail'.small
    have atHead : (P.writeAll [(p, opNop), (nr, opGetField2)]).opAt p = opNop := by
      rw [written, if_neg lt.ne, if_pos rfl]
    have atTail : (P.writeAll [(p, opNop), (nr, opGetField2)]).opAt nr = opGetField2 := by
      rw [written, if_pos rfl]
    have atom : (P.writeAll [(p, opNop), (nr, opGetField2)]).operandBytes nr =
        P.operandBytes nr := by
      unfold operandBytes
      rw [atTail, opTail]
      apply slice_congr (writeAll_size _)
      intro i low high
      have kept := written i
      rw [if_neg (by omega), if_neg (by omega)] at kept
      exact kept
    refine ⟨nr, nr + 5, ?_, .inl rfl⟩
    apply scan.window ?_ plainTail sizeTail room free ?_ atHead oneByte_nop.plain ?_ ?_ atTail
      plainTail' ?_ ?_ ?_
    · rw [opHead]
      exact oneByte_dup.plain.noLabel
    · intro x member
      simp only [List.mem_cons, List.not_mem_nil, or_false] at member
      rcases member with rfl | rfl
      · exact ⟨le_rfl, by dsimp only; omega, oneByte_nop.plain.small⟩
      · exact ⟨lt.le, by dsimp only; omega, plainTail'.small⟩
    · rw [oneByte_nop.size]
      exact lt
    · intro q low high
      rw [oneByte_nop.size] at low
      rw [written, if_neg (by omega), if_neg (by omega)]
      exact (scan.gap (by omega) high).1
    · rw [sizeTail']
    · intro q low high
      rw [sizeTail'] at low
      omega
    · exact .dupField (acts_of_op oneByte_dup.acts opHead)
        (acts_of_op (fun _ _ _ => ⟨rfl, rfl, rfl⟩) opTail) opTail
        (acts_of_op oneByte_nop.acts atHead) (acts_of_op (fun _ _ _ => ⟨rfl, rfl, rfl⟩) atTail)
        atTail atom
  · cases found

theorem shortLoc_isKind : shortLoc.IsKind := .inl rfl

theorem shortArg_isKind : shortArg.IsKind := .inr (.inl rfl)

theorem shortVarRef_isKind : shortVarRef.IsKind := .inr (.inr rfl)

theorem patterns_sound : ∀ pattern ∈ patterns, Pattern.Sound pattern := by
  simp only [patterns, List.forall_mem_cons]
  refine ⟨pattern1_sound, putGetShort_sound shortLoc_isKind, putGetShort_sound shortArg_isKind,
    pattern3_sound, getDropShort_sound shortLoc_isKind _, getDropShort_sound shortArg_isKind _,
    getDropShort_sound shortVarRef_isKind _, pattern5_sound, setDropShort_sound shortLoc_isKind,
    setDropShort_sound shortArg_isKind, setDropShort_sound shortVarRef_isKind, pattern7_sound,
    pattern8_sound, dupPutShort_sound shortLoc_isKind, dupPutShort_sound shortArg_isKind,
    dupPutShort_sound shortVarRef_isKind, patternField_sound, repeatGet_sound (.inl rfl),
    repeatGet_sound (.inr rfl), putGetShort_sound shortVarRef_isKind,
    setGetShort_sound shortLoc_isKind, setGetShort_sound shortArg_isKind,
    setGetShort_sound shortVarRef_isKind, getDropShort_sound shortArg_isKind _,
    getDropShort_sound shortVarRef_isKind _, pattern20c_sound, pattern21_sound, pattern22_sound,
    pattern23_sound, pattern24_sound, pattern25_sound, pattern28_sound,
    nullishEq_sound .undefined, nullishEq_sound .null, ?_⟩
  exact fun _ member => nomatch member

end BcOut

end PrimJs
