import Mathlib.Tactic
import Mathlib.Data.List.Basic

/-! The instructions of the regular expression engine.

Bytecode is a list of decoded instructions; positions in it are byte offsets, from the sizes of
`libregexp-opcode.h`, and jumps are relative to the end of their instruction. -/

namespace PrimJs.Regexp

inductive REOp where
  | char (c : Nat)
  | char32 (c : Nat)
  | dot
  | any
  | line_start
  | line_end
  | goto (offset : Int)
  | split_goto_first (offset : Int)
  | split_next_first (offset : Int)
  | «match»
  | save_start (index : Nat)
  | save_end (index : Nat)
  | save_reset (first last : Nat)
  | loop (offset : Int)
  | push_i32 (val : Nat)
  | drop
  | word_boundary
  | not_word_boundary
  | back_reference (index : Nat)
  | backward_back_reference (index : Nat)
  | range (ranges : List (Nat × Nat))
  | range32 (ranges : List (Nat × Nat))
  | lookahead (offset : Int)
  | negative_lookahead (offset : Int)
  | push_char_pos
  | bne_char_pos (offset : Int)
  | prev
  | simple_greedy_quant (next_pos quant_min quant_max char_count : Nat)
  deriving DecidableEq, Repr

namespace REOp

/-- `reopcode_info[opcode].size`, with the ranges that follow the opcode. -/
def size : REOp → Nat
  | char _ => 3
  | char32 _ => 5
  | dot | any | line_start | line_end => 1
  | goto _ | split_goto_first _ | split_next_first _ => 5
  | «match» => 1
  | save_start _ | save_end _ => 2
  | save_reset _ _ => 3
  | loop _ | push_i32 _ => 5
  | drop | word_boundary | not_word_boundary => 1
  | back_reference _ | backward_back_reference _ => 2
  | range ranges => 3 + 4 * ranges.length
  | range32 ranges => 3 + 8 * ranges.length
  | lookahead _ | negative_lookahead _ => 5
  | push_char_pos => 1
  | bne_char_pos _ => 5
  | prev => 1
  | simple_greedy_quant _ _ _ _ => 17

theorem size_pos (op : REOp) : 0 < op.size := by
  cases op <;> simp [size]

end REOp

def codeSize (code : List REOp) : Nat := (code.map REOp.size).sum

@[simp] theorem codeSize_nil : codeSize [] = 0 := rfl

@[simp] theorem codeSize_cons (op : REOp) (code : List REOp) :
    codeSize (op :: code) = op.size + codeSize code := by
  simp [codeSize]

@[simp] theorem codeSize_append (front back : List REOp) :
    codeSize (front ++ back) = codeSize front + codeSize back := by
  simp [codeSize]

/-- The instruction that starts at byte `pc`. -/
def fetch : List REOp → Nat → Option REOp
  | [], _ => none
  | op :: code, pc =>
      if pc = 0 then some op
      else if pc < op.size then none
      else fetch code (pc - op.size)

@[simp] theorem fetch_zero (op : REOp) (code : List REOp) : fetch (op :: code) 0 = some op := rfl

theorem fetch_cons_add (op : REOp) (code : List REOp) (pc : Nat) :
    fetch (op :: code) (op.size + pc) = fetch code pc := by
  have hpos := op.size_pos
  rw [fetch, if_neg (by omega), if_neg (by omega), Nat.add_sub_cancel_left]

theorem fetch_append (front back : List REOp) (pc : Nat) :
    fetch (front ++ back) (codeSize front + pc) = fetch back pc := by
  induction front with
  | nil => simp
  | cons op front ih =>
      rw [List.cons_append, codeSize_cons, Nat.add_assoc, fetch_cons_add, ih]

/-- The instruction after a prefix of the code. -/
theorem fetch_middle (front back : List REOp) (op : REOp) :
    fetch (front ++ op :: back) (codeSize front) = some op := by
  simpa using fetch_append front (op :: back) 0

theorem fetch_eq_some_iff (code : List REOp) (pc : Nat) (op : REOp) :
    fetch code pc = some op ↔
      ∃ front back, code = front ++ op :: back ∧ codeSize front = pc := by
  constructor
  · intro hfetch
    induction code generalizing pc with
    | nil => cases hfetch
    | cons head code ih =>
        rw [fetch] at hfetch
        split at hfetch
        · next hzero =>
          obtain rfl : head = op := by simpa using hfetch
          exact ⟨[], code, rfl, hzero.symm⟩
        · split at hfetch
          · cases hfetch
          · next hge =>
            obtain ⟨front, back, rfl, hsize⟩ := ih _ hfetch
            exact ⟨head :: front, back, rfl, by rw [codeSize_cons, hsize]; omega⟩
  · rintro ⟨front, back, rfl, rfl⟩
    exact fetch_middle front back op

end PrimJs.Regexp
