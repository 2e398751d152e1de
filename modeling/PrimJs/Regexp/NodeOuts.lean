import PrimJs.Regexp.GreedyQuantRefines

/-! What the code of a pattern offers, computed along the pattern. -/

namespace PrimJs.Regexp

/-! ### The points after a pattern -/

def charOuts (x : ExecContext) (op : REOp) (p : Point) : List Point :=
  ((lreMatchCharOp x op p.cptr).map p.moveTo).toList

def prevOuts (x : ExecContext) (p : Point) : List Point :=
  (((if p.cptr = 0 then none else some (prevChar x p.cptr 0)) : Option Nat).map p.moveTo).toList

def backReferenceOuts (x : ExecContext) (dir : Bool) (index : Nat) (p : Point) : List Point :=
  ((backReference x ⟨p.capture, []⟩ dir index p.cptr).map p.moveTo).toList

/-- The characters of the atom when the quantifier takes the shortcut, else 0. -/
def shortcutChars (atom : List REOp) (quant_max : Nat) (greedy : Bool) : Nat :=
  if greedy && quant_max > 0 then (reIsSimpleQuantifier atom).getD 0 else 0

/-- The points after the quantifier over the atom with the code `atom`, which offers `f`. -/
def quantifierOuts (x : ExecContext) (atom : List REOp) (f : Point → List Point)
    (quant_min quant_max : Nat) (greedy : Bool) (last_capture_count capture_count : Nat) :
    Point → List Point :=
  if shortcutChars atom quant_max greedy > 0 then
    greedyOuts x atom quant_min quant_max (shortcutChars atom quant_max greedy)
  else
    loopOuts greedy (greedy && reCheckAdvance atom = 0) f (x.cbuf_end + 2) quant_min quant_max
      last_capture_count capture_count

/-- The points after the code of a pattern, in the order in which the machine tries them. -/
def Node.outs (x : ExecContext) (dir : Bool) (count : Nat) : Node → Point → List Point
  | empty => fun p => [p]
  | charTest op _ => fun p =>
      if dir then (prevOuts x p).flatMap fun q => (charOuts x op q).flatMap (prevOuts x)
      else charOuts x op p
  | assertion op _ => fun p => if assertionTest x op p.cptr then [p] else []
  | backReference index => backReferenceOuts x dir index
  | seq first second => fun p =>
      let f := first.outs x dir count
      let g := second.outs x dir (count + first.captures)
      if dir then (g p).flatMap f else (f p).flatMap g
  | alt left right => fun p =>
      left.outs x dir count p ++ right.outs x dir (count + left.captures) p
  | capture body => fun p =>
      let f := body.outs x dir (count + 1)
      if dir then (f (p.save (2 * count + 1))).map fun q => q.save (2 * count)
      else (f (p.save (2 * count))).map fun q => q.save (2 * count + 1)
  | look is_neg behind body => fun p => lookOuts is_neg p (body.outs x behind count p)
  | quant atom quant_min quant_max _ greedy =>
      quantifierOuts x (atom.emit dir count) (atom.outs x dir count) quant_min quant_max greedy count
        (count + atom.captures)

/-! ### Points inside the input -/

/-- A point of the input, with all the captures. -/
structure Valid (x : ExecContext) (p : Point) : Prop where
  inside : p.cptr ≤ x.cbuf_end
  length : p.capture.length = 2 * x.capture_count

variable {x : ExecContext} {base : Slots} {size : Nat}

variable {p : Point}

variable {cptr : Nat} {q : Point} {atom : List REOp}

theorem Valid.moveTo (h : Valid x p) (inside : cptr ≤ x.cbuf_end) :
    Valid x (p.moveTo cptr) := ⟨inside, h.length⟩

theorem Valid.save (h : Valid x p) (slot : Nat) : Valid x (p.save slot) :=
  ⟨h.inside, by rw [Point.save_length, h.length]⟩

theorem Valid.reset (h : Valid x p) (first last : Nat) : Valid x (p.reset first last) :=
  ⟨h.inside, by rw [Point.reset_length, h.length]⟩

theorem mem_test {test : Option Nat} (h : q ∈ (test.map p.moveTo).toList) :
    ∃ cptr, test = some cptr ∧ q = p.moveTo cptr := by
  cases test with
  | none => cases h
  | some cptr => exact ⟨cptr, rfl, List.mem_singleton.mp h⟩

theorem backReferenceLoop_bounds {cptr1_end fuel cptr1 cptr' : Nat} (inside : cptr ≤ x.cbuf_end)
    (h : backReferenceLoop x cptr1_end fuel cptr1 cptr = some cptr') :
    cptr' = cptr ∨ cptr < cptr' ∧ cptr' ≤ x.cbuf_end ∧ midPair x cptr' = false := by
  induction fuel generalizing cptr1 cptr with
  | zero => exact .inl (Option.some.inj h).symm
  | succ fuel ih =>
      rw [backReferenceLoop] at h
      split at h
      · split at h
        · cases h
        · next more =>
          dsimp only at h
          split at h
          · cases h
          · have bounds := @getChar_bounds x cptr (Nat.lt_of_not_le more)
            obtain rfl | later := ih bounds.2 h
            · exact .inr ⟨bounds.1, bounds.2, midPair_getChar x cptr⟩
            · exact .inr ⟨bounds.1.trans later.1, later.2⟩
      · exact .inl (Option.some.inj h).symm

theorem prevChar_lt (x : ExecContext) (positive : 0 < cptr) : prevChar x cptr 0 < cptr := by
  unfold prevChar getPrevChar
  dsimp only
  split <;> dsimp only <;> omega

/-- Stepping back does not stop in the middle of a pair. -/
theorem midPair_prevChar (x : ExecContext) (cptr : Nat) : midPair x (prevChar x cptr 0) = false := by
  unfold prevChar getPrevChar
  dsimp only
  split
  · next pair =>
    simp only [Bool.and_eq_true, decide_eq_true_eq] at pair
    simp [midPair, not_low_of_high pair.2]
  · next single =>
    rw [← Bool.not_eq_true, midPair]
    simp only [Bool.and_eq_true, decide_eq_true_eq] at single ⊢
    tauto

theorem backwardBackReferenceLoop_bounds {cptr1_start fuel cptr1 cptr' : Nat}
    (h : backwardBackReferenceLoop x cptr1_start fuel cptr1 cptr = some cptr') :
    cptr' = cptr ∨ cptr' < cptr ∧ midPair x cptr' = false := by
  induction fuel generalizing cptr1 cptr with
  | zero => exact .inl (Option.some.inj h).symm
  | succ fuel ih =>
      rw [backwardBackReferenceLoop] at h
      split at h
      · split at h
        · cases h
        · next more =>
          dsimp only at h
          split at h
          · cases h
          · have before := prevChar_lt x (Nat.pos_of_ne_zero more)
            obtain rfl | ⟨later, notMid⟩ := ih h
            · exact .inr ⟨before, midPair_prevChar x cptr⟩
            · exact .inr ⟨later.trans before, notMid⟩
      · exact .inl (Option.some.inj h).symm

theorem backReference_bounds {m : Slots} {dir : Bool} {index cptr' : Nat}
    (inside : cptr ≤ x.cbuf_end) (h : backReference x m dir index cptr = some cptr') :
    cptr' = cptr ∨ (dir = true ∧ cptr' < cptr ∧ midPair x cptr' = false) ∨
      (dir = false ∧ cptr < cptr' ∧ cptr' ≤ x.cbuf_end ∧ midPair x cptr' = false) := by
  unfold backReference at h
  split at h
  · cases h
  · split at h
    · split at h
      · next backward =>
        exact (backwardBackReferenceLoop_bounds h).imp_right fun less => .inl ⟨backward, less⟩
      · next forward =>
        exact (backReferenceLoop_bounds inside h).imp_right fun more =>
          .inr ⟨by simpa using forward, more⟩
    · exact .inl (Option.some.inj h).symm

/-! ### How a point moves -/

/-- How much of the input is left in the direction; a start in the middle of a pair comes before all
other positions. -/
def left (x : ExecContext) (dir : Bool) (p : Point) : Nat :=
  if dir then p.cptr else if midPair x p.cptr then x.cbuf_end + 1 else x.cbuf_end - p.cptr

theorem left_lt (dir : Bool) (valid : Valid x p) : left x dir p < x.cbuf_end + 2 := by
  have := valid.inside
  unfold left
  split_ifs <;> omega

def Advances (x : ExecContext) (dir : Bool) (p q : Point) : Prop :=
  q.cptr = p.cptr ∨ left x dir q < left x dir p

theorem left_same {dir : Bool} (same : q.cptr = p.cptr) : left x dir q = left x dir p := by
  rw [left, left, same]

theorem Advances.trans {dir : Bool} {r : Point} (h : Advances x dir p q) (h' : Advances x dir q r) :
    Advances x dir p r := by
  obtain same | less := h
  · obtain same' | less' := h'
    · exact .inl (same'.trans same)
    · exact .inr (by rwa [left_same same] at less')
  · obtain same' | less' := h'
    · exact .inr (by rwa [left_same same'])
    · exact .inr (less'.trans less)

theorem left_forward (valid : Valid x p) (inside : q.cptr ≤ x.cbuf_end)
    (notMid : midPair x q.cptr = false) (more : p.cptr < q.cptr ∨ midPair x p.cptr = true) :
    left x false q < left x false p := by
  have := valid.inside
  unfold left
  rw [if_neg Bool.false_ne_true, if_neg Bool.false_ne_true, notMid, if_neg Bool.false_ne_true]
  split
  · omega
  · next start =>
    obtain forward | wrong := more
    · omega
    · exact absurd wrong start

theorem left_backward (less : q.cptr < p.cptr) : left x true q < left x true p := by
  simpa [left] using less

/-- What `f` offers is inside the input and not behind. -/
def Moves (x : ExecContext) (dir : Bool) (f : Point → List Point) : Prop :=
  ∀ p, Valid x p → ∀ q ∈ f p, Valid x q ∧ Advances x dir p q

section Moves

variable {dir : Bool} {f g : Point → List Point}

theorem Moves.flatMap (h : Moves x dir f) (h' : Moves x dir g) :
    Moves x dir fun p => (f p).flatMap g := by
  intro p valid q member
  obtain ⟨p₁, first, second⟩ := List.mem_flatMap.mp member
  obtain ⟨valid₁, step₁⟩ := h p valid p₁ first
  obtain ⟨valid₂, step₂⟩ := h' p₁ valid₁ q second
  exact ⟨valid₂, step₁.trans step₂⟩

theorem Moves.prefer (h : Moves x dir f) (greedy : Bool) :
    Moves x dir fun p => prefer greedy (f p) p := by
  intro p valid q member
  obtain more | rfl := mem_prefer member
  · exact h p valid q more
  · exact ⟨valid, .inl rfl⟩

theorem moves_single (x : ExecContext) (dir : Bool) : Moves x dir fun p => [p] := by
  intro p valid q member
  obtain rfl := List.mem_singleton.mp member
  exact ⟨valid, .inl rfl⟩

theorem Moves.times (h : Moves x dir f) (n : Nat) : Moves x dir (timesOuts f n) := by
  induction n with
  | zero => exact moves_single x dir
  | succ n ih => exact h.flatMap ih

theorem Moves.upTo (h : Moves x dir f) (greedy : Bool) (n : Nat) :
    Moves x dir (upToOuts greedy f n) := by
  induction n with
  | zero => exact moves_single x dir
  | succ n ih => exact (h.flatMap ih).prefer greedy

theorem Moves.star (h : Moves x dir f) (greedy check : Bool) (fuel : Nat) :
    Moves x dir (starOuts greedy check f fuel) := by
  induction fuel with
  | zero => rintro p _ q ⟨⟩
  | succ fuel ih =>
      refine Moves.prefer ?_ greedy
      intro p valid q member
      obtain ⟨p₁, first, second⟩ := List.mem_flatMap.mp member
      obtain ⟨valid₁, step₁⟩ := h p valid p₁ first
      split at second
      · obtain rfl := List.mem_singleton.mp second
        exact ⟨valid₁, step₁⟩
      · obtain ⟨valid₂, step₂⟩ := ih p₁ valid₁ q second
        exact ⟨valid₂, step₁.trans step₂⟩

theorem Moves.loop (h : Moves x dir f) (greedy check : Bool)
    (fuel quant_min quant_max last_capture_count capture_count : Nat) :
    Moves x dir
      (loopOuts greedy check f fuel quant_min quant_max last_capture_count capture_count) := by
  have more : Moves x dir (moreOuts greedy check f fuel quant_min quant_max) := by
    unfold moreOuts
    split
    · exact h.star greedy check fuel
    · exact h.upTo greedy _
  intro p valid q member
  unfold loopOuts at member
  dsimp only at member
  split at member
  · have start : Valid x (resetOuts last_capture_count capture_count p) ∧
        (resetOuts last_capture_count capture_count p).cptr = p.cptr := by
      unfold resetOuts
      split
      · exact ⟨valid.reset _ _, rfl⟩
      · exact ⟨valid, rfl⟩
    obtain ⟨valid', step⟩ := (h.times quant_min).flatMap more _ start.1 q member
    exact ⟨valid', Advances.trans (.inl start.2) step⟩
  · exact (h.times quant_min).flatMap more p valid q member

end Moves

/-! ### Characters -/

theorem moves_charOuts (x : ExecContext) (op : REOp) : Moves x false (charOuts x op) := by
  intro p valid q member
  obtain ⟨cptr, test, rfl⟩ := mem_test member
  obtain ⟨inside, rfl⟩ := midPair_charOp test
  have bounds := getChar_bounds inside
  exact ⟨valid.moveTo bounds.2,
    .inr (left_forward valid bounds.2 (midPair_getChar x _) (.inl bounds.1))⟩

/-- A character read backwards: the position before it. -/
theorem backward_charOuts {op : REOp}
    (member : q ∈ (prevOuts x p).flatMap fun q => (charOuts x op q).flatMap (prevOuts x)) :
    q.cptr < p.cptr ∧ q.capture = p.capture := by
  obtain ⟨p₁, first, rest⟩ := List.mem_flatMap.mp member
  obtain ⟨p₂, second, third⟩ := List.mem_flatMap.mp rest
  obtain ⟨cptr₁, back, rfl⟩ := mem_test first
  obtain ⟨cptr₂, test, rfl⟩ := mem_test second
  obtain ⟨cptr₃, back', rfl⟩ := mem_test third
  split at back
  · cases back
  · next start =>
    obtain rfl := Option.some.inj back
    obtain ⟨-, rfl⟩ := midPair_charOp test
    split at back'
    · cases back'
    · obtain rfl := Option.some.inj back'
      have before := prevChar_lt x (Nat.pos_of_ne_zero start)
      refine ⟨?_, rfl⟩
      dsimp only [Point.moveTo]
      rw [prevChar_getChar]
      split <;> omega

theorem moves_charTest (x : ExecContext) (dir : Bool) (op : REOp) :
    Moves x dir fun p => if dir then (prevOuts x p).flatMap fun q => (charOuts x op q).flatMap
      (prevOuts x) else charOuts x op p := by
  cases dir with
  | false => exact moves_charOuts x op
  | true =>
      intro p valid q member
      dsimp only at member
      rw [if_pos rfl] at member
      obtain ⟨less, same⟩ := backward_charOuts member
      exact ⟨⟨(Nat.le_of_lt less).trans valid.inside, by rw [same, valid.length]⟩,
        .inr (left_backward less)⟩

theorem moves_backReference (x : ExecContext) (dir : Bool) (index : Nat) :
    Moves x dir (backReferenceOuts x dir index) := by
  intro p valid q member
  obtain ⟨cptr, test, rfl⟩ := mem_test member
  obtain rfl | ⟨rfl, less, -⟩ | ⟨rfl, more, inside, notMid⟩ := backReference_bounds valid.inside test
  · exact ⟨valid.moveTo valid.inside, .inl rfl⟩
  · exact ⟨valid.moveTo ((Nat.le_of_lt less).trans valid.inside), .inr (left_backward less)⟩
  · exact ⟨valid.moveTo inside, .inr (left_forward valid inside notMid (.inl more))⟩

/-! ### Simple quantifiers -/

theorem midPair_pred (mid : midPair x cptr = true) :
    midPair x (cptr - 1) = false ∧ cptr < x.cbuf_end := by
  simp only [midPair, Bool.and_eq_true, decide_eq_true_eq] at mid
  obtain ⟨⟨⟨-, positive⟩, high⟩, low⟩ := mid
  refine ⟨by simp [midPair, not_low_of_high high], ?_⟩
  by_contra out
  rw [unit_after x (Nat.le_of_not_lt out)] at low
  cases low

/-- The positions that stepping back can give. -/
theorem mem_givenBack {n start count : Nat} (simple : reIsSimpleQuantifier atom = some n)
    (nonempty : 0 < n) (h : SimpleMatches x atom start count cptr) :
    ∀ cptr' ∈ givenBack x n count cptr, cptr' = start ∨
      (start < cptr' ∧ cptr' ≤ x.cbuf_end ∧ midPair x cptr' = false) ∨
      (midPair x start = true ∧ cptr' = start - 1) := by
  induction count generalizing cptr with
  | zero =>
      cases h
      simp [givenBack]
  | succ count ih =>
      intro cptr' member
      have notMid := h.notMid simple nonempty
      obtain ⟨cptr₁, done, later⟩ := h.split
      obtain _ | ⟨final, none_⟩ := later
      cases none_
      have bounds := simpleRun_bounds simple final
      have inside := bounds.2.2 nonempty
      have forward := (done.le simple).1
      rw [givenBack] at member
      obtain rfl | member := List.mem_cons.mp member
      · exact .inr (.inl ⟨by omega, by omega, notMid⟩)
      · rw [giveBack_simpleRun simple final] at member
        cases count with
        | zero =>
            cases done
            obtain rfl := List.mem_singleton.mp member
            split
            · next mid => exact .inr (.inr ⟨mid.2, rfl⟩)
            · exact .inl rfl
        | succ count =>
            rw [done.notMid simple nonempty, if_neg (by simp)] at member
            exact ih done cptr' member

theorem moves_greedy (x : ExecContext) {n : Nat} (simple : reIsSimpleQuantifier atom = some n)
    (nonempty : 0 < n) (quant_min quant_max : Nat) :
    Moves x false (greedyOuts x atom quant_min quant_max n) := by
  intro p valid q member
  have greedy := greedy_simpleCount (x := x) simple nonempty quant_max p.cptr
  unfold greedyOuts at member
  generalize simpleCount x atom quant_max (x.cbuf_end + 1) 0 p.cptr = counted at greedy member
  obtain ⟨matches_, last⟩ := counted
  dsimp only at greedy member
  split at member
  · cases member
  · next enough =>
    obtain ⟨cptr, given, rfl⟩ := List.mem_map.mp member
    obtain ⟨more, rfl⟩ := Nat.exists_eq_add_of_le (Nat.le_of_not_lt enough)
    obtain ⟨start, done, later⟩ := greedy.matches_.split
    rw [Nat.add_sub_cancel_left] at given
    have startLe := done.le simple
    have startNotMid : start = p.cptr ∨ midPair x start = false ∧ p.cptr < start ∧
        start ≤ x.cbuf_end := by
      cases quant_min with
      | zero =>
          cases done
          exact .inl rfl
      | succ quant_min =>
          have notMid := done.notMid simple nonempty
          obtain ⟨before, done', last⟩ := done.split
          obtain _ | ⟨final, none_⟩ := last
          cases none_
          have bounds := simpleRun_bounds simple final
          have inside := bounds.2.2 nonempty
          have forward := (done'.le simple).1
          exact .inr ⟨notMid, by omega, by omega⟩
    have inside := valid.inside
    obtain rfl | ⟨more_, within, notMid⟩ | ⟨mid, rfl⟩ := mem_givenBack simple nonempty later cptr given
    · obtain same | ⟨notMid, forward, within⟩ := startNotMid
      · exact ⟨valid.moveTo (by omega), .inl same⟩
      · exact ⟨valid.moveTo within, .inr (left_forward valid within notMid (.inl forward))⟩
    · exact ⟨valid.moveTo within,
        .inr (left_forward valid within notMid (.inl (Nat.lt_of_le_of_lt startLe.1 more_)))⟩
    · obtain rfl | ⟨notMid, -⟩ := startNotMid
      · have pred := midPair_pred mid
        exact ⟨valid.moveTo (by omega), .inr (left_forward valid
          (show p.cptr - 1 ≤ x.cbuf_end by omega) pred.1 (.inr mid))⟩
      · rw [notMid] at mid
        cases mid

theorem reIsSimpleQuantifier_append (front back : List REOp) :
    reIsSimpleQuantifier (front ++ back) =
      (reIsSimpleQuantifier front).bind fun n => (reIsSimpleQuantifier back).map (n + ·) := by
  induction front with
  | nil => cases h : reIsSimpleQuantifier back <;> simp [reIsSimpleQuantifier, h]
  | cons op front ih =>
      rw [List.cons_append]
      cases op with
      | char | char32 | dot | any | range | range32 =>
          simp only [reIsSimpleQuantifier, ih]
          cases reIsSimpleQuantifier front <;> cases reIsSimpleQuantifier back <;> simp
          omega
      | line_start | line_end | word_boundary | not_word_boundary =>
          simp only [reIsSimpleQuantifier, ih]
      | _ => rfl

theorem simple_ops {n : Nat} (simple : reIsSimpleQuantifier atom = some n) :
    ∀ op ∈ atom, isCharOp op = true ∨ isAssertionOp op = true := by
  induction atom generalizing n with
  | nil => rintro op ⟨⟩
  | cons op atom ih =>
      intro op' member
      obtain ⟨char, m, rest, -⟩ | ⟨assertion, rest⟩ := reIsSimpleQuantifier_cons simple
      · obtain rfl | later := List.mem_cons.mp member
        · exact .inl char
        · exact ih rest op' later
      · obtain rfl | later := List.mem_cons.mp member
        · exact .inr assertion
        · exact ih rest op' later

def HasOwn (code : List REOp) : Prop := ∃ op ∈ code, isCharOp op = false ∧ isAssertionOp op = false

theorem HasOwn.of_mem {op : REOp} {code : List REOp} (member : op ∈ code)
    (char : isCharOp op = false) (assertion : isAssertionOp op = false) : HasOwn code :=
  ⟨op, member, char, assertion⟩

theorem HasOwn.back {code : List REOp} (h : HasOwn code) (front : List REOp) :
    HasOwn (front ++ code) := by
  obtain ⟨op, member, own⟩ := h
  exact ⟨op, List.mem_append_right front member, own⟩

theorem hasOwn_split (greedy : Bool) (offset : Int) (code : List REOp) :
    HasOwn (splitOp greedy offset :: code) := by
  refine .of_mem List.mem_cons_self ?_ ?_ <;> cases greedy <;> rfl

theorem hasOwn_star (atom : List REOp) (greedy check : Bool) : HasOwn (emitStar atom greedy check) := by
  unfold emitStar
  dsimp only
  split
  · exact hasOwn_split _ _ _
  · exact hasOwn_split _ _ _

theorem hasOwn_upTo (atom : List REOp) (greedy : Bool) (max : Nat) :
    HasOwn (emitUpTo atom greedy max) := .of_mem List.mem_cons_self rfl rfl

/-- The code of a quantifier is that of the atom, or none, or it has an instruction of its own. -/
theorem emitLoop_ops (atom : List REOp) (quant_min quant_max : Nat) (greedy check : Bool)
    (last_capture_count capture_count : Nat) :
    let code := emitLoop atom quant_min quant_max greedy check last_capture_count capture_count
    code = [] ∨ code = atom ∨ HasOwn code := by
  unfold emitLoop
  dsimp only
  by_cases zero : quant_min = 0
  · rw [if_pos zero]
    by_cases none_ : quant_max = 0
    · rw [if_pos none_]
      split
      · exact .inr (.inr (.of_mem List.mem_cons_self rfl rfl))
      · exact .inl rfl
    · rw [if_neg none_]
      refine .inr (.inr ?_)
      split
      · exact (hasOwn_split _ _ _).back _
      · split
        · exact (hasOwn_star _ _ _).back _
        · exact (hasOwn_upTo _ _ _).back _
  · rw [if_neg zero]
    split
    · exact .inr (.inr ((hasOwn_split _ _ _).back _))
    · split
      · exact .inr (.inr ((hasOwn_star _ _ _).back _))
      · split
        · exact .inr (.inr ((hasOwn_upTo _ _ _).back _))
        · unfold emitTimes
          split
          · exact .inr (.inl rfl)
          · exact .inr (.inr (.of_mem List.mem_cons_self rfl rfl))

theorem emitQuantifier_ops (atom : List REOp) (quant_min quant_max : Nat) (greedy : Bool)
    (last_capture_count capture_count : Nat) :
    let code := emitQuantifier atom quant_min quant_max greedy last_capture_count capture_count
    code = [] ∨ code = atom ∨ HasOwn code := by
  unfold emitQuantifier
  dsimp only
  generalize (if (greedy && decide (quant_max > 0)) = true then (reIsSimpleQuantifier atom).getD 0
    else 0) = simple
  split
  · exact .inr (.inr (.of_mem List.mem_cons_self rfl rfl))
  · exact emitLoop_ops _ _ _ _ _ _ _

/-- The quantifiers that take the shortcut. -/
theorem shortcutChars_pos {greedy : Bool} {quant_max : Nat}
    (positive : 0 < shortcutChars atom quant_max greedy) :
    reIsSimpleQuantifier atom = some (shortcutChars atom quant_max greedy) ∧ 0 < quant_max := by
  unfold shortcutChars at positive ⊢
  split at positive
  · next some_ =>
    rw [if_pos some_]
    simp only [Bool.and_eq_true, decide_eq_true_eq] at some_
    cases simple : reIsSimpleQuantifier atom with
    | none =>
        rw [simple] at positive
        exact absurd positive (lt_irrefl 0)
    | some n => exact ⟨rfl, some_.2⟩
  · exact absurd positive (lt_irrefl 0)

/-- Backwards, a simple atom reads no character. -/
theorem simple_backward (node : Node) (count : Nat) {n : Nat}
    (simple : reIsSimpleQuantifier (node.emit true count) = some n) : n = 0 := by
  induction node generalizing count n with
  | empty => exact (Option.some.inj simple).symm
  | charTest op char => cases simple
  | assertion op test =>
      cases op with
      | line_start | line_end | word_boundary | not_word_boundary =>
          exact (Option.some.inj simple).symm
      | _ => cases test
  | backReference index => cases simple
  | seq first second ih ih' =>
      rw [Node.emit] at simple
      rw [if_pos rfl, reIsSimpleQuantifier_append] at simple
      obtain ⟨m, simple', rest⟩ := Option.bind_eq_some_iff.mp simple
      obtain ⟨m', simple'', rfl⟩ := Option.map_eq_some_iff.mp rest
      rw [ih' _ simple', ih _ simple'']
  | alt left right => cases simple
  | capture body => cases simple
  | look is_neg behind body =>
      rw [Node.emit, lookaroundCode] at simple
      split at simple <;> cases simple
  | quant atom quant_min quant_max bounds greedy ih =>
      rw [Node.emit] at simple
      obtain none_ | same | ⟨op, member, char, assertion⟩ := emitQuantifier_ops
        (atom.emit true count) quant_min quant_max greedy count (count + atom.captures)
      · rw [none_] at simple
        exact (Option.some.inj simple).symm
      · rw [same] at simple
        exact ih count simple
      · obtain wrong | wrong := simple_ops simple op member
        · rw [char] at wrong
          cases wrong
        · rw [assertion] at wrong
          cases wrong

/-! ### Patterns -/

theorem mem_lookOuts {is_neg : Bool} {outs : List Point} (member : q ∈ lookOuts is_neg p outs) :
    q.cptr = p.cptr ∧ (q = p ∨ ∃ r ∈ outs, q.capture = r.capture) := by
  unfold lookOuts at member
  split at member
  · split at member
    · obtain rfl := List.mem_singleton.mp member
      exact ⟨rfl, .inl rfl⟩
    · cases member
  · obtain ⟨r, first, rfl⟩ := List.mem_map.mp member
    exact ⟨rfl, .inr ⟨r, List.mem_of_mem_head? (Option.mem_toList.mp first), rfl⟩⟩

/-- What a pattern offers is inside the input and not behind. -/
theorem Node.moves (x : ExecContext) (node : Node) (dir : Bool) (count : Nat) :
    Moves x dir (node.outs x dir count) := by
  induction node generalizing dir count with
  | empty => exact moves_single x dir
  | charTest op char => exact moves_charTest x dir op
  | assertion op test =>
      intro p valid q member
      dsimp only [Node.outs] at member
      split at member
      · exact moves_single x dir p valid q member
      · cases member
  | backReference index => exact moves_backReference x dir index
  | seq first second ih ih' =>
      cases dir with
      | true => exact (ih' true _).flatMap (ih true count)
      | false => exact (ih false count).flatMap (ih' false _)
  | alt left right ih ih' =>
      intro p valid q member
      obtain here | there := List.mem_append.mp member
      · exact ih dir count p valid q here
      · exact ih' dir _ p valid q there
  | capture body ih =>
      intro p valid q member
      have inner : ∀ slot slot', q ∈ (body.outs x dir (count + 1) (p.save slot)).map
          (fun q => q.save slot') → Valid x q ∧ Advances x dir p q := by
        intro slot slot' member
        obtain ⟨r, body_, rfl⟩ := List.mem_map.mp member
        obtain ⟨valid', step⟩ := ih dir (count + 1) _ (valid.save slot) r body_
        exact ⟨valid'.save slot', step⟩
      dsimp only [Node.outs] at member
      split at member
      · exact inner _ _ member
      · exact inner _ _ member
  | look is_neg behind body ih =>
      intro p valid q member
      obtain ⟨same, rfl | ⟨r, body_, capture⟩⟩ := mem_lookOuts member
      · exact ⟨valid, .inl rfl⟩
      · have inner := ih behind count p valid r body_
        exact ⟨⟨same ▸ valid.inside, by rw [capture, inner.1.length]⟩, .inl same⟩
  | quant atom quant_min quant_max bounds greedy ih =>
      rw [Node.outs, quantifierOuts]
      split
      · next positive =>
        have simple := (shortcutChars_pos positive).1
        cases dir with
        | false => exact moves_greedy x simple positive _ _
        | true => exact absurd (simple_backward atom count simple) (Nat.ne_of_gt positive)
      · exact (ih dir count).loop _ _ _ _ _ _ _

end PrimJs.Regexp
