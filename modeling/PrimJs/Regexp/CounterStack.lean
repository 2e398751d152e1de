import PrimJs.Regexp.Node

/-! The counter stack along the code: every piece that the compiler emits is balanced, and its jumps
go to places with the same stack. -/

namespace PrimJs.Regexp

namespace REOp

def effect : REOp → Int
  | push_i32 _ | push_char_pos => 1
  | drop | bne_char_pos _ => -1
  | _ => 0

def needs : REOp → Int
  | drop | bne_char_pos _ | loop _ => 1
  | _ => 0

/-- Where an instruction may go other than to the next one. -/
def jumpOffset : REOp → Option Int
  | goto offset | split_goto_first offset | split_next_first offset | lookahead offset
  | negative_lookahead offset | loop offset | bne_char_pos offset => some offset
  | simple_greedy_quant next_pos _ _ _ => some next_pos
  | _ => none

end REOp

/-- The length of the counter stack after a piece of code, by a linear scan. -/
def depth (code : List REOp) : Int := (code.map REOp.effect).sum

@[simp] theorem depth_nil : depth [] = 0 := rfl

@[simp] theorem depth_cons (op : REOp) (code : List REOp) :
    depth (op :: code) = op.effect + depth code := by
  simp [depth]

@[simp] theorem depth_append (front back : List REOp) :
    depth (front ++ back) = depth front + depth back := by
  simp [depth]

/-- A place between two instructions, with the counter stack there. -/
def Boundary (code : List REOp) (pos len : Int) : Prop :=
  ∃ front back, code = front ++ back ∧ (codeSize front : Int) = pos ∧ depth front = len

/-- The instruction after `front` has what it needs, and its jump keeps the stack. -/
structure Sound (code front : List REOp) (op : REOp) : Prop where
  needs : op.needs ≤ depth front
  jump : ∀ offset, op.jumpOffset = some offset →
    Boundary code (codeSize front + op.size + offset) (depth front + op.effect)

/-- All the instructions of `piece`, which comes after `front`, are sound. -/
def AllSound (code : List REOp) : (front piece : List REOp) → Prop
  | _, [] => True
  | front, op :: piece => Sound code front op ∧ AllSound code (front ++ [op]) piece

variable {code : List REOp}

theorem allSound_append (front piece piece' : List REOp) :
    AllSound code front (piece ++ piece') ↔
      AllSound code front piece ∧ AllSound code (front ++ piece) piece' := by
  induction piece generalizing front with
  | nil => simp [AllSound]
  | cons op piece ih =>
      rw [List.cons_append, AllSound, AllSound, ih, and_assoc, List.append_assoc,
        List.singleton_append]

theorem AllSound.sound {front piece : List REOp} {op : REOp} {back : List REOp}
    (h : AllSound code front (piece ++ op :: back)) : Sound code (front ++ piece) op :=
  (allSound_append _ _ _ |>.mp h).2.1

/-- A piece whose jumps stay inside and that leaves the counter stack as it was. -/
structure Balanced (code : List REOp) : Prop where
  sound : AllSound code [] code
  depth : depth code = 0

/-- A balanced piece is sound wherever it is put. -/
theorem Balanced.placed (h : Balanced code) (front back : List REOp)
    (nonneg : 0 ≤ Regexp.depth front) : AllSound (front ++ code ++ back) front code := by
  have go : ∀ piece done, code = done ++ piece → AllSound code done piece →
      AllSound (front ++ code ++ back) (front ++ done) piece := by
    intro piece
    induction piece with
    | nil => exact fun _ _ _ => trivial
    | cons op piece ih =>
        intro done split sound
        obtain ⟨here, later⟩ := sound
        refine ⟨⟨?_, ?_⟩, ?_⟩
        · rw [depth_append]
          have := here.needs
          omega
        · intro offset hoffset
          obtain ⟨front', back', split', size, len⟩ := here.jump offset hoffset
          refine ⟨front ++ front', back' ++ back, by rw [split']; simp, ?_, ?_⟩
          · rw [codeSize_append, codeSize_append]
            push_cast
            omega
          · rw [depth_append, depth_append, len, Int.add_assoc]
        · rw [List.append_assoc front done]
          exact ih (done ++ [op]) (by rw [split, List.append_assoc]; rfl) later
  simpa using go code [] rfl h.sound

theorem balanced_nil : Balanced [] := ⟨trivial, rfl⟩

theorem Balanced.append {code' : List REOp} (h : Balanced code) (h' : Balanced code') :
    Balanced (code ++ code') := by
  refine ⟨(allSound_append _ _ _).mpr ⟨?_, ?_⟩, by rw [depth_append, h.depth, h'.depth]; rfl⟩
  · exact h.placed [] code' (by simp)
  · have placed := h'.placed code [] (by rw [h.depth])
    simpa using placed

/-- An instruction without a jump and without an effect on the stack. -/
theorem balanced_single {op : REOp} (heffect : op.effect = 0) (hneeds : op.needs = 0)
    (hjump : op.jumpOffset = none) : Balanced [op] := by
  refine ⟨⟨⟨?_, ?_⟩, trivial⟩, by simp [heffect]⟩
  · simp [hneeds]
  · rw [hjump]
    rintro offset ⟨⟩

theorem Balanced.cons {op : REOp} (heffect : op.effect = 0) (hneeds : op.needs = 0)
    (hjump : op.jumpOffset = none) (h : Balanced code) : Balanced (op :: code) :=
  (balanced_single heffect hneeds hjump).append h

/-! ### The code of the compiler -/

theorem balanced_charTest (dir : Bool) {op : REOp} (h : isCharOp op = true) :
    Balanced (emitCharTest dir op) := by
  have single : Balanced [op] := by
    cases op with
    | char | char32 | dot | any | range | range32 => exact balanced_single rfl rfl rfl
    | _ => cases h
  unfold emitCharTest
  split
  · exact .cons rfl rfl rfl (single.append (balanced_single rfl rfl rfl))
  · exact single

theorem balanced_assertion {op : REOp} (h : isAssertionOp op = true) : Balanced [op] := by
  cases op with
  | line_start | line_end | word_boundary | not_word_boundary => exact balanced_single rfl rfl rfl
  | _ => cases h

theorem Balanced.capture (h : Balanced code) (dir : Bool) (index : Nat) :
    Balanced (captureCode dir index code) := by
  unfold captureCode
  split
  · exact .cons rfl rfl rfl (h.append (balanced_single rfl rfl rfl))
  · exact .cons rfl rfl rfl (h.append (balanced_single rfl rfl rfl))

/-- An instruction that jumps past the piece after it. -/
theorem Balanced.guarded {op : REOp} (heffect : op.effect = 0) (hneeds : op.needs = 0)
    (hjump : op.jumpOffset = some (codeSize code : Int)) (h : Balanced code) :
    Balanced (op :: code) := by
  refine ⟨⟨⟨by simp [hneeds], ?_⟩, ?_⟩, by simp [heffect, h.depth]⟩
  · rw [hjump]
    rintro offset ⟨⟩
    exact ⟨op :: code, [], by simp, by simp, by simp [h.depth]⟩
  · have placed := h.placed [op] [] (by simp [heffect])
    simpa using placed

theorem Balanced.look (h : Balanced code) (is_neg : Bool) :
    Balanced (lookaroundCode is_neg code) := by
  have body := h.append (@balanced_single .match rfl rfl rfl)
  unfold lookaroundCode
  split
  · exact .guarded rfl rfl (by simp [REOp.jumpOffset, REOp.size]) body
  · exact .guarded rfl rfl (by simp [REOp.jumpOffset, REOp.size]) body

/-- The instructions of a piece that surround balanced ones, checked one by one. -/
theorem Balanced.alt {code' : List REOp} (h : Balanced code) (h' : Balanced code') :
    Balanced (.split_next_first (codeSize code + 5) :: code ++ .goto (codeSize code') :: code') := by
  have second : Balanced (.goto (codeSize code') :: code') := h'.guarded rfl rfl rfl
  have joined := h.append second
  refine ⟨⟨⟨by simp [REOp.needs], ?_⟩, ?_⟩, ?_⟩
  · rintro offset ⟨⟩
    refine ⟨.split_next_first (codeSize code + 5) :: code ++ [.goto (codeSize code')], code', by simp,
      ?_, ?_⟩
    · simp [REOp.size]
    · simp [REOp.effect, h.depth]
  · have placed := joined.placed [.split_next_first (codeSize code + 5)] [] (by simp [REOp.effect])
    simpa using placed
  · simp [REOp.effect, h.depth, h'.depth]

section

variable (greedy : Bool) (offset : Int)

@[simp] theorem splitOp_effect : (splitOp greedy offset).effect = 0 := by
  cases greedy <;> rfl

@[simp] theorem splitOp_needs : (splitOp greedy offset).needs = 0 := by
  cases greedy <;> rfl

@[simp] theorem splitOp_jumpOffset : (splitOp greedy offset).jumpOffset = some offset := by
  cases greedy <;> rfl

@[simp] theorem splitOp_size : (splitOp greedy offset).size = 5 := by
  cases greedy <;> rfl

end

namespace REOp

@[simp] theorem push_i32_effect (val : Nat) : (push_i32 val).effect = 1 := rfl
@[simp] theorem push_char_pos_effect : push_char_pos.effect = 1 := rfl
@[simp] theorem drop_effect : drop.effect = -1 := rfl
@[simp] theorem bne_char_pos_effect (offset : Int) : (bne_char_pos offset).effect = -1 := rfl
@[simp] theorem goto_effect (offset : Int) : (goto offset).effect = 0 := rfl
@[simp] theorem loop_effect (offset : Int) : (loop offset).effect = 0 := rfl

@[simp] theorem push_i32_size (val : Nat) : (push_i32 val).size = 5 := rfl
@[simp] theorem push_char_pos_size : push_char_pos.size = 1 := rfl
@[simp] theorem drop_size : drop.size = 1 := rfl
@[simp] theorem bne_char_pos_size (offset : Int) : (bne_char_pos offset).size = 5 := rfl
@[simp] theorem goto_size (offset : Int) : (goto offset).size = 5 := rfl
@[simp] theorem loop_size (offset : Int) : (loop offset).size = 5 := rfl

end REOp

section Loops

variable {atom : List REOp} (h : Balanced atom)
include h

theorem Balanced.star (greedy check : Bool) : Balanced (emitStar atom greedy check) := by
  unfold emitStar
  dsimp only
  split
  · refine ⟨⟨⟨by simp, ?_⟩, ⟨by simp [REOp.needs], by rintro _ ⟨⟩⟩, ?_⟩, by simp [h.depth]⟩
    · simp only [splitOp_jumpOffset]
      rintro offset ⟨⟩
      refine ⟨_, [], (List.append_nil _).symm, ?_, by simp [h.depth]⟩
      simp
      omega
    · refine (allSound_append _ _ _).mpr ⟨?_, ⟨by simp [REOp.needs, h.depth], ?_⟩, trivial⟩
      · have placed := h.placed [splitOp greedy (codeSize atom + 5 + 1), .push_char_pos]
          [.bne_char_pos (-(5 + 1 + codeSize atom + 5))] (by simp)
        simpa using placed
      · rintro offset ⟨⟩
        refine ⟨[], _, rfl, ?_, by simp [h.depth]⟩
        simp
        omega
  · refine ⟨⟨⟨by simp, ?_⟩, ?_⟩, by simp [h.depth]⟩
    · simp only [splitOp_jumpOffset]
      rintro offset ⟨⟩
      exact ⟨_, [], (List.append_nil _).symm, by simp, by simp [h.depth]⟩
    · refine (allSound_append _ _ _).mpr ⟨?_, ⟨by simp [REOp.needs, h.depth], ?_⟩, trivial⟩
      · have placed := h.placed [splitOp greedy (codeSize atom + 5)]
          [.goto (-(5 + codeSize atom + 5))] (by simp)
        simpa using placed
      · rintro offset ⟨⟩
        refine ⟨[], _, rfl, ?_, by simp [h.depth]⟩
        simp

theorem Balanced.upTo (greedy : Bool) (max : Nat) : Balanced (emitUpTo atom greedy max) := by
  unfold emitUpTo
  dsimp only
  refine ⟨⟨⟨by simp [REOp.needs], by rintro _ ⟨⟩⟩, ⟨by simp, ?_⟩, ?_⟩, by simp [h.depth]⟩
  · simp only [splitOp_jumpOffset]
    rintro offset ⟨⟩
    refine ⟨.push_i32 max :: splitOp greedy (codeSize atom + 5) :: atom ++
      [.loop (-(5 + codeSize atom + 5))], [.drop], by simp, ?_, by simp [h.depth]⟩
    simp
    omega
  · refine (allSound_append _ _ _).mpr ⟨?_, ⟨by simp [REOp.needs, h.depth], ?_⟩,
      ⟨by simp [REOp.needs, h.depth], by rintro _ ⟨⟩⟩, trivial⟩
    · have placed := h.placed [.push_i32 max, splitOp greedy (codeSize atom + 5)]
        [.loop (-(5 + codeSize atom + 5)), .drop] (by simp)
      simpa using placed
    · rintro offset ⟨⟩
      refine ⟨[.push_i32 max], _, rfl, ?_, by simp [h.depth]⟩
      simp
      omega

theorem Balanced.times (min : Nat) : Balanced (emitTimes atom min) := by
  unfold emitTimes
  split
  · exact h
  · refine ⟨⟨⟨by simp [REOp.needs], by rintro _ ⟨⟩⟩, ?_⟩, by simp [h.depth]⟩
    refine (allSound_append _ _ _).mpr ⟨?_, ⟨by simp [REOp.needs, h.depth], ?_⟩,
      ⟨by simp [REOp.needs, h.depth], by rintro _ ⟨⟩⟩, trivial⟩
    · have placed := h.placed [.push_i32 min] [.loop (-((codeSize atom : Int) + 5)), .drop] (by simp)
      simpa using placed
    · rintro offset ⟨⟩
      refine ⟨[.push_i32 min], _, rfl, ?_, by simp [h.depth]⟩
      simp

theorem Balanced.oneOrMore (greedy : Bool) :
    Balanced (atom ++ [splitOp greedy (-((codeSize atom : Int) + 5))]) := by
  refine ⟨(allSound_append _ _ _).mpr ⟨?_, ⟨by simp [h.depth], ?_⟩, trivial⟩, by simp [h.depth]⟩
  · exact h.placed [] _ (by simp)
  · simp only [splitOp_jumpOffset]
    rintro offset ⟨⟩
    exact ⟨[], _, rfl, by simp, by simp [h.depth]⟩

theorem Balanced.loop (quant_min quant_max : Nat) (greedy check : Bool)
    (last_capture_count capture_count : Nat) :
    Balanced (emitLoop atom quant_min quant_max greedy check last_capture_count capture_count) := by
  have reset : Balanced (if last_capture_count ≠ capture_count then
      [.save_reset last_capture_count (capture_count - 1)] else []) := by
    split
    · exact balanced_single rfl rfl rfl
    · exact balanced_nil
  have option : Balanced (splitOp greedy (codeSize atom) :: atom) :=
    .guarded (by simp) (by simp) (by simp) h
  unfold emitLoop
  dsimp only
  generalize (if last_capture_count ≠ capture_count then
    [REOp.save_reset last_capture_count (capture_count - 1)] else []) = reset_ at reset ⊢
  split_ifs
  · exact reset
  · exact reset.append option
  · exact reset.append (h.star greedy check)
  · exact reset.append (h.upTo greedy quant_max)
  · exact h.oneOrMore (!greedy)
  · exact (h.times quant_min).append (h.star greedy check)
  · exact (h.times quant_min).append (h.upTo greedy _)
  · exact h.times quant_min

theorem Balanced.quantifier (quant_min quant_max : Nat) (greedy : Bool)
    (last_capture_count capture_count : Nat) :
    Balanced (emitQuantifier atom quant_min quant_max greedy last_capture_count capture_count) := by
  have body := h.append (@balanced_single .match rfl rfl rfl)
  unfold emitQuantifier
  dsimp only
  generalize (if (greedy && decide (quant_max > 0)) = true then
    (reIsSimpleQuantifier atom).getD 0 else 0) = simple
  split
  · exact .guarded rfl rfl (by simp [REOp.jumpOffset, REOp.size]) body
  · exact h.loop _ _ _ _ _ _

end Loops

theorem balanced_emit (node : Node) (dir : Bool) (count : Nat) : Balanced (node.emit dir count) := by
  induction node generalizing dir count with
  | empty => exact balanced_nil
  | charTest op char => exact balanced_charTest dir char.char
  | assertion op test => exact balanced_assertion test
  | backReference index =>
      rw [Node.emit]
      split <;> exact balanced_single rfl rfl rfl
  | seq first second ih ih' =>
      rw [Node.emit]
      split
      · exact (ih' _ _).append (ih _ _)
      · exact (ih _ _).append (ih' _ _)
  | alt left right ih ih' => exact (ih _ _).alt (ih' _ _)
  | capture body ih => exact (ih _ _).capture _ _
  | look is_neg behind body ih => exact (ih _ _).look _
  | quant atom quant_min quant_max bounds greedy ih => exact (ih _ _).quantifier _ _ _ _ _

theorem balanced_searchPrefix : Balanced searchPrefix := by
  refine ⟨⟨⟨by decide, ?_⟩, ⟨by decide, by rintro _ ⟨⟩⟩, ⟨by decide, ?_⟩, trivial⟩, rfl⟩
  · rintro offset ⟨⟩
    exact ⟨searchPrefix, [], rfl, rfl, rfl⟩
  · rintro offset ⟨⟩
    exact ⟨[], searchPrefix, rfl, rfl, rfl⟩

end PrimJs.Regexp
