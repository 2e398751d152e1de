import PrimJs.Regexp.Escape
import PrimJs.Regexp.Opcode

/-! The code emitted for a quantified atom. -/

namespace PrimJs.Regexp

def CAPTURE_COUNT_MAX : Nat := 255

/-- The loop of `re_check_advance`: `ret` (`none` while unknown), the captures written and the
captures referred to. -/
def reCheckAdvanceLoop : List REOp → Option Bool → List Nat → List Nat → Option Bool × List Nat × List Nat
  | [], ret, written, referred => (ret, written, referred)
  | op :: code, ret, written, referred =>
      match op with
      | .range _ | .range32 _ | .char _ | .char32 _ | .dot | .any =>
          reCheckAdvanceLoop code (some (ret.getD true)) written referred
      | .line_start | .line_end | .push_i32 _ | .push_char_pos | .drop | .word_boundary
      | .not_word_boundary | .prev =>
          reCheckAdvanceLoop code ret written referred
      | .save_start val | .save_end val => reCheckAdvanceLoop code ret (val :: written) referred
      | .save_reset val last =>
          reCheckAdvanceLoop code ret (List.range' val (last - val) ++ written) referred
      | .back_reference val | .backward_back_reference val =>
          reCheckAdvanceLoop code ret written (val :: referred)
      | _ => reCheckAdvanceLoop code (some (ret.getD false)) written referred

/-- `re_check_advance`: 1 if the code always advances the position, 0 if it may not, -1 if it may
depend on its previous execution. -/
def reCheckAdvance (code : List REOp) : Int :=
  let (ret, written, referred) := reCheckAdvanceLoop code none [] []
  if referred.any (· ∈ written) then -1
  else if ret.getD false then 1 else 0

/-- `re_is_simple_quantifier`: the number of characters of the atom, `none` for -1. -/
def reIsSimpleQuantifier : List REOp → Option Nat
  | [] => some 0
  | op :: code =>
      match op with
      | .range _ | .range32 _ | .char _ | .char32 _ | .dot | .any =>
          (reIsSimpleQuantifier code).map (· + 1)
      | .line_start | .line_end | .word_boundary | .not_word_boundary => reIsSimpleQuantifier code
      | _ => none

/-- `REOP_split_goto_first + greedy` -/
def splitOp (greedy : Bool) (offset : Int) : REOp :=
  if greedy then .split_next_first offset else .split_goto_first offset

/-- An unbounded loop over `atom` that may be left before each iteration. -/
def emitStar (atom : List REOp) (greedy add_zero_advance_check : Bool) : List REOp :=
  let len : Int := codeSize atom
  if add_zero_advance_check then
    splitOp greedy (len + 5 + 1) :: .push_char_pos :: atom ++ [.bne_char_pos (-(5 + 1 + len + 5))]
  else
    splitOp greedy (len + 5) :: atom ++ [.goto (-(5 + len + 5))]

/-- At most `max` iterations over `atom`. -/
def emitUpTo (atom : List REOp) (greedy : Bool) (max : Nat) : List REOp :=
  let len : Int := codeSize atom
  .push_i32 max :: splitOp greedy (len + 5) :: atom ++ [.loop (-(5 + len + 5)), .drop]

/-- Exactly `min` iterations over `atom`. -/
def emitTimes (atom : List REOp) (min : Nat) : List REOp :=
  if min = 1 then atom
  else .push_i32 min :: atom ++ [.loop (-((codeSize atom : Int) + 5)), .drop]

/-- The code of the general case of a quantifier over `atom`, which made the captures from
`last_capture_count` to `capture_count`. -/
def emitLoop (atom : List REOp) (quant_min quant_max : Nat) (greedy add_zero_advance_check : Bool)
    (last_capture_count capture_count : Nat) : List REOp :=
  let len : Int := codeSize atom
  if quant_min = 0 then
    -- need to reset the capture in case the atom is not executed
    let reset : List REOp := if last_capture_count ≠ capture_count then
      [.save_reset last_capture_count (capture_count - 1)] else []
    if quant_max = 0 then reset
    else if quant_max = 1 then reset ++ splitOp greedy len :: atom
    else if quant_max = INT32_MAX then reset ++ emitStar atom greedy add_zero_advance_check
    else reset ++ emitUpTo atom greedy quant_max
  else if quant_min = 1 && quant_max = INT32_MAX && !add_zero_advance_check then
    atom ++ [splitOp (!greedy) (-(len + 5))]
  else
    let repeated := emitTimes atom quant_min
    if quant_max = INT32_MAX then repeated ++ emitStar atom greedy add_zero_advance_check
    else if quant_max > quant_min then repeated ++ emitUpTo atom greedy (quant_max - quant_min)
    else repeated

/-- The code of a quantified atom: `REOP_simple_greedy_quant` where it applies. -/
def emitQuantifier (atom : List REOp) (quant_min quant_max : Nat) (greedy : Bool)
    (last_capture_count capture_count : Nat) : List REOp :=
  let simple := if greedy && quant_max > 0 then (reIsSimpleQuantifier atom).getD 0 else 0
  if simple > 0 then
    .simple_greedy_quant (codeSize atom + 1) quant_min quant_max simple :: atom ++ [.match]
  else
    emitLoop atom quant_min quant_max greedy (greedy && reCheckAdvance atom = 0)
      last_capture_count capture_count

end PrimJs.Regexp
