import PrimJs.Regexp.Node

/-! The operands of the emitted instructions: captures below the number of captures, and characters
that fit their encoding. -/

namespace PrimJs.Regexp

namespace REOp

/-- The captures that an instruction writes without a test of its own. -/
def captureIndexes : REOp → List Nat
  | save_start index | save_end index => [index]
  | save_reset first last => [first, last]
  | _ => []

structure Fits (bound : Nat) (op : REOp) : Prop where
  captures : ∀ index ∈ op.captureIndexes, index < bound
  char : ∀ c, op = char c → c ≤ 0xffff

def isPlain : REOp → Bool
  | char _ | save_start _ | save_end _ | save_reset _ _ => false
  | _ => true

theorem fits_of_plain {op : REOp} (h : op.isPlain = true) (bound : Nat) : op.Fits bound := by
  cases op with
  | char | save_start | save_end | save_reset => cases h
  | _ => exact ⟨by simp [captureIndexes], by rintro c ⟨⟩⟩

end REOp

theorem isPlain_splitOp (greedy : Bool) (offset : Int) : (splitOp greedy offset).isPlain = true := by
  cases greedy <;> rfl

def CodeFits (bound : Nat) (code : List REOp) : Prop := ∀ op ∈ code, op.Fits bound

variable {bound : Nat}

theorem codeFits_nil : CodeFits bound [] := by rintro op ⟨⟩

theorem CodeFits.cons {op : REOp} {code : List REOp} (here : op.Fits bound)
    (h : CodeFits bound code) : CodeFits bound (op :: code) := by
  intro op' member
  obtain rfl | member := List.mem_cons.mp member
  · exact here
  · exact h op' member

theorem CodeFits.plain {op : REOp} {code : List REOp} (here : op.isPlain = true)
    (h : CodeFits bound code) : CodeFits bound (op :: code) :=
  .cons (REOp.fits_of_plain here bound) h

theorem CodeFits.append {front back : List REOp} (h : CodeFits bound front)
    (h' : CodeFits bound back) : CodeFits bound (front ++ back) := by
  intro op member
  obtain member | member := List.mem_append.mp member
  · exact h op member
  · exact h' op member

section Quantifier

variable {atom : List REOp} (h : CodeFits bound atom)
include h

theorem CodeFits.star (greedy check : Bool) : CodeFits bound (emitStar atom greedy check) := by
  unfold emitStar
  dsimp only
  split
  · exact .plain (isPlain_splitOp _ _) (.plain rfl (h.append (.plain rfl codeFits_nil)))
  · exact .plain (isPlain_splitOp _ _) (h.append (.plain rfl codeFits_nil))

theorem CodeFits.upTo (greedy : Bool) (max : Nat) : CodeFits bound (emitUpTo atom greedy max) :=
  .plain rfl (.plain (isPlain_splitOp _ _) (h.append (.plain rfl (.plain rfl codeFits_nil))))

theorem CodeFits.times (min : Nat) : CodeFits bound (emitTimes atom min) := by
  unfold emitTimes
  split
  · exact h
  · exact .plain rfl (h.append (.plain rfl (.plain rfl codeFits_nil)))

theorem CodeFits.quantifier {last cap : Nat} (hlast : last ≤ cap) (hcap : cap ≤ bound)
    (quant_min quant_max : Nat) (greedy : Bool) :
    CodeFits bound (emitQuantifier atom quant_min quant_max greedy last cap) := by
  have reset : CodeFits bound (if last ≠ cap then [REOp.save_reset last (cap - 1)] else []) := by
    split
    · refine .cons ⟨?_, by rintro c ⟨⟩⟩ codeFits_nil
      simp only [REOp.captureIndexes, List.mem_cons, List.not_mem_nil, or_false, forall_eq_or_imp,
        forall_eq]
      omega
    · exact codeFits_nil
  unfold emitQuantifier
  dsimp only
  generalize (if (greedy && decide (quant_max > 0)) = true then
    (reIsSimpleQuantifier atom).getD 0 else 0) = simple
  split
  · exact .plain rfl (h.append (.plain rfl codeFits_nil))
  · unfold emitLoop
    dsimp only
    generalize (if last ≠ cap then [REOp.save_reset last (cap - 1)] else []) = reset_ at reset ⊢
    split_ifs
    · exact reset
    · exact reset.append (.plain (isPlain_splitOp _ _) h)
    · exact reset.append (h.star _ _)
    · exact reset.append (h.upTo _ _)
    · exact h.append (.plain (isPlain_splitOp _ _) codeFits_nil)
    · exact (h.times _).append (h.star _ _)
    · exact (h.times _).append (h.upTo _ _)
    · exact h.times _

end Quantifier

theorem codeFits_emit (node : Node) (dir : Bool) {count : Nat}
    (hbound : count + node.captures ≤ bound) : CodeFits bound (node.emit dir count) := by
  induction node generalizing dir count with
  | empty => exact codeFits_nil
  | charTest op char =>
      have here : CodeFits bound [op] := by
        refine .cons ⟨?_, char.fits⟩ codeFits_nil
        cases op with
        | save_start | save_end | save_reset => cases char.char
        | _ => simp [REOp.captureIndexes]
      rw [Node.emit, emitCharTest]
      split
      · exact .plain rfl (here.append (.plain rfl codeFits_nil))
      · exact here
  | assertion op test =>
      refine .plain ?_ codeFits_nil
      cases op with
      | char | save_start | save_end | save_reset => cases test
      | _ => rfl
  | backReference index =>
      rw [Node.emit]
      split <;> exact .plain rfl codeFits_nil
  | seq first second ih ih' =>
      rw [Node.captures] at hbound
      have fits := @ih dir count (by omega)
      have fits' := @ih' dir (count + first.captures) (by omega)
      rw [Node.emit]
      split
      · exact fits'.append fits
      · exact fits.append fits'
  | alt left right ih ih' =>
      rw [Node.captures] at hbound
      have fits := @ih dir count (by omega)
      have fits' := @ih' dir (count + left.captures) (by omega)
      exact .plain rfl (fits.append (.plain rfl fits'))
  | capture body ih =>
      rw [Node.captures] at hbound
      have fits := @ih dir (count + 1) (by omega)
      have start : (REOp.save_start count).Fits bound :=
        ⟨by simp only [REOp.captureIndexes, List.mem_singleton, forall_eq]; omega, by rintro c ⟨⟩⟩
      have stop : (REOp.save_end count).Fits bound :=
        ⟨by simp only [REOp.captureIndexes, List.mem_singleton, forall_eq]; omega, by rintro c ⟨⟩⟩
      rw [Node.emit, captureCode]
      split
      · exact .cons stop (fits.append (.cons start codeFits_nil))
      · exact .cons start (fits.append (.cons stop codeFits_nil))
  | look is_neg behind body ih =>
      have fits := (ih behind hbound).append (@CodeFits.plain _ .match _ rfl codeFits_nil)
      rw [Node.emit, lookaroundCode]
      split
      · exact .plain rfl fits
      · exact .plain rfl fits
  | quant atom quant_min quant_max bounds greedy ih =>
      rw [Node.captures] at hbound
      exact (ih dir hbound).quantifier (Nat.le_add_right _ _) hbound _ _ _

theorem lreCompile_codeFits {u : UnicodeData} {buf : Bytes} {flags : REFlags} {bc : REByteCode}
    (h : lreCompile u buf flags = .ok bc) : CodeFits bc.capture_count bc.code := by
  obtain ⟨node, hcode, hcount, -, -⟩ := lreCompile_emit h
  rw [hcode]
  refine .append (.append ?_ (codeFits_emit _ _ (by rw [hcount]; omega)))
    (.plain rfl codeFits_nil)
  split
  · exact codeFits_nil
  · exact .plain rfl (.plain rfl (.plain rfl codeFits_nil))

end PrimJs.Regexp
