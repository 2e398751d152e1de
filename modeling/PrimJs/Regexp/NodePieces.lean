import PrimJs.Regexp.NodeOuts

/-! The code of a pattern offers the points of the pattern, when its loops move on. -/

namespace PrimJs.Regexp

variable {x : ExecContext} {base : Slots} {size : Nat}

/-! ### The check for an empty iteration -/

/-- Whether an instruction moves on, as `re_check_advance` counts it; `none` does not decide it. -/
def opMove : REOp → Option Bool
  | .range _ | .range32 _ | .char _ | .char32 _ | .dot | .any => some true
  | .line_start | .line_end | .push_i32 _ | .push_char_pos | .drop | .word_boundary
  | .not_word_boundary | .prev | .save_start _ | .save_end _ | .save_reset _ _
  | .back_reference _ | .backward_back_reference _ => none
  | _ => some false

def firstMove : List REOp → Option Bool
  | [] => none
  | op :: code => (opMove op).or (firstMove code)

theorem reCheckAdvanceLoop_fst (code : List REOp) (ret : Option Bool) (written referred : List Nat) :
    (reCheckAdvanceLoop code ret written referred).1 = ret.or (firstMove code) := by
  induction code generalizing ret written referred with
  | nil => cases ret <;> rfl
  | cons op code ih =>
      cases op <;> cases ret <;> simp [reCheckAdvanceLoop, firstMove, opMove, ih]

theorem firstMove_of_reCheckAdvance {code : List REOp} (h : reCheckAdvance code = 1) :
    firstMove code = some true := by
  have fst := reCheckAdvanceLoop_fst code none [] []
  unfold reCheckAdvance at h
  generalize reCheckAdvanceLoop code none [] [] = run at fst h
  obtain ⟨ret, written, referred⟩ := run
  dsimp only at fst h
  rw [Option.none_or] at fst
  split at h
  · cases h
  · rw [← fst]
    cases ret with
    | none => cases h
    | some value =>
        cases value with
        | false => cases h
        | true => rfl

theorem firstMove_append (front back : List REOp) :
    firstMove (front ++ back) = (firstMove front).or (firstMove back) := by
  induction front with
  | nil => rfl
  | cons op front ih => rw [List.cons_append, firstMove, firstMove, ih, Option.or_assoc]

/-- Every point that `f` offers has less of the input left. -/
def MovesOn (x : ExecContext) (dir : Bool) (f : Point → List Point) : Prop :=
  ∀ p, Valid x p → ∀ q ∈ f p, left x dir q < left x dir p

theorem Advances.le {dir : Bool} {p q : Point} (h : Advances x dir p q) :
    left x dir q ≤ left x dir p :=
  h.elim (fun same => Nat.le_of_eq (left_same same)) Nat.le_of_lt

section

variable {dir : Bool} {f g : Point → List Point}

theorem MovesOn.flatMap (h : MovesOn x dir f) (move : Moves x dir f) (h' : Moves x dir g) :
    MovesOn x dir fun p => (f p).flatMap g := by
  intro p valid q member
  obtain ⟨p₁, first, second⟩ := List.mem_flatMap.mp member
  exact Nat.lt_of_le_of_lt (h' p₁ (move p valid p₁ first).1 q second).2.le (h p valid p₁ first)

theorem MovesOn.flatMap_right (h : Moves x dir f) (h' : MovesOn x dir g) :
    MovesOn x dir fun p => (f p).flatMap g := by
  intro p valid q member
  obtain ⟨p₁, first, second⟩ := List.mem_flatMap.mp member
  obtain ⟨valid₁, step⟩ := h p valid p₁ first
  exact Nat.lt_of_lt_of_le (h' p₁ valid₁ q second) step.le

theorem movesOn_seq {code code' : List REOp} (first : firstMove (code ++ code') = some true)
    (move : Moves x dir f) (move' : Moves x dir g) (h : firstMove code = some true → MovesOn x dir f)
    (h' : firstMove code' = some true → MovesOn x dir g) : MovesOn x dir fun p => (f p).flatMap g := by
  rw [firstMove_append] at first
  cases decided : firstMove code with
  | none =>
      rw [decided, Option.none_or] at first
      exact .flatMap_right move (h' first)
  | some value =>
      rw [decided, Option.some_or] at first
      exact (h (decided.trans first)).flatMap move move'

end

theorem firstMove_split (greedy : Bool) (offset : Int) (code : List REOp) :
    firstMove (splitOp greedy offset :: code) = some false := by
  cases greedy <;> rfl

theorem firstMove_star (atom : List REOp) (greedy check : Bool) :
    firstMove (emitStar atom greedy check) = some false := by
  unfold emitStar
  dsimp only
  split
  · exact firstMove_split _ _ _
  · exact firstMove_split _ _ _

theorem firstMove_upTo (atom : List REOp) (greedy : Bool) (max : Nat) :
    firstMove (emitUpTo atom greedy max) = some false := by
  cases greedy <;> rfl

/-- Only a quantifier that needs an iteration moves on by its first instructions. -/
theorem firstMove_quantifier {atom : List REOp} {quant_min quant_max : Nat} {greedy : Bool}
    {last_capture_count capture_count : Nat}
    (first : firstMove (emitQuantifier atom quant_min quant_max greedy last_capture_count
      capture_count) = some true) :
    shortcutChars atom quant_max greedy = 0 ∧ 0 < quant_min ∧ firstMove atom = some true := by
  have atomFirst : ∀ code, firstMove code ≠ some true → firstMove (atom ++ code) = some true →
      firstMove atom = some true := by
    intro code other whole
    rw [firstMove_append] at whole
    cases decided : firstMove atom with
    | none =>
        rw [decided, Option.none_or] at whole
        exact absurd whole other
    | some value =>
        rw [decided, Option.some_or] at whole
        exact whole
  unfold emitQuantifier at first
  dsimp only at first
  change firstMove (if shortcutChars atom quant_max greedy > 0 then _ else _) = _ at first
  by_cases short : shortcutChars atom quant_max greedy > 0
  · rw [if_pos short] at first
    cases first
  · rw [if_neg short] at first
    refine ⟨Nat.eq_zero_of_not_pos short, ?_⟩
    unfold emitLoop at first
    dsimp only at first
    by_cases zero : quant_min = 0
    · rw [if_pos zero] at first
      have reset : firstMove (if last_capture_count ≠ capture_count then
          [REOp.save_reset last_capture_count (capture_count - 1)] else []) = none := by
        split <;> rfl
      by_cases none_ : quant_max = 0
      · rw [if_pos none_, reset] at first
        cases first
      · rw [if_neg none_] at first
        split at first
        · rw [firstMove_append, reset, firstMove_split] at first
          cases first
        · split at first
          · rw [firstMove_append, reset, firstMove_star] at first
            cases first
          · rw [firstMove_append, reset, firstMove_upTo] at first
            cases first
    · rw [if_neg zero] at first
      refine ⟨Nat.pos_of_ne_zero zero, ?_⟩
      have times : ∀ code, firstMove code ≠ some true →
          firstMove (emitTimes atom quant_min ++ code) = some true → firstMove atom = some true := by
        intro code other whole
        unfold emitTimes at whole
        split at whole
        · exact atomFirst code other whole
        · refine atomFirst _ ?_ (show firstMove (atom ++ ([_, _] ++ code)) = some true by
            simpa [firstMove, opMove] using whole)
          simp [firstMove, opMove]
      split at first
      · refine atomFirst _ ?_ first
        rw [firstMove_split]
        decide
      · split at first
        · refine times _ ?_ first
          rw [firstMove_star]
          decide
        · split at first
          · refine times _ ?_ first
            rw [firstMove_upTo]
            decide
          · exact times [] (by decide) (by rwa [List.append_nil])

theorem MovesOn.times {dir : Bool} {f : Point → List Point} (h : MovesOn x dir f)
    (move : Moves x dir f) {n : Nat} (positive : 0 < n) : MovesOn x dir (timesOuts f n) := by
  obtain ⟨n, rfl⟩ := Nat.exists_eq_succ_of_ne_zero (Nat.ne_of_gt positive)
  exact h.flatMap move (move.times n)

/-- A pattern whose first instruction that decides reads a character moves on. -/
theorem Node.movesOn (x : ExecContext) (node : Node) (dir : Bool) (count : Nat)
    (first : firstMove (node.emit dir count) = some true) : MovesOn x dir (node.outs x dir count) := by
  induction node generalizing dir count with
  | empty => cases first
  | charTest op char =>
      intro p valid q member
      cases dir with
      | true => exact left_backward (backward_charOuts member).1
      | false =>
          obtain ⟨cptr, test, rfl⟩ := mem_test member
          obtain ⟨inside, rfl⟩ := midPair_charOp test
          have bounds := getChar_bounds inside
          exact left_forward valid bounds.2 (midPair_getChar x _) (.inl bounds.1)
  | assertion op test =>
      cases op with
      | line_start | line_end | word_boundary | not_word_boundary => cases first
      | _ => cases test
  | backReference index => cases dir <;> cases first
  | seq head tail ih ih' =>
      cases dir with
      | true =>
          exact movesOn_seq first (tail.moves x true _) (head.moves x true count) (ih' true _)
            (ih true count)
      | false =>
          exact movesOn_seq first (head.moves x false count) (tail.moves x false _) (ih false count)
            (ih' false _)
  | alt left right => cases first
  | capture body ih =>
      have inner : firstMove (body.emit dir (count + 1)) = some true := by
        rw [Node.emit, captureCode] at first
        split at first
        all_goals
          simp only [List.cons_append, firstMove, opMove, firstMove_append, Option.none_or,
            Option.or_none] at first
          exact first
      intro p valid q member
      have stored : ∀ slot slot', q ∈ (body.outs x dir (count + 1) (p.save slot)).map
          (fun q => q.save slot') → left x dir q < left x dir p := by
        intro slot slot' member
        obtain ⟨r, body_, rfl⟩ := List.mem_map.mp member
        exact ih dir (count + 1) inner _ (valid.save slot) r body_
      dsimp only [Node.outs] at member
      split at member
      · exact stored _ _ member
      · exact stored _ _ member
  | look is_neg behind body =>
      rw [Node.emit, lookaroundCode] at first
      split at first <;> cases first
  | quant atom quant_min quant_max bounds greedy ih =>
      obtain ⟨general, positive, atomFirst⟩ := firstMove_quantifier first
      have move := atom.moves x dir count
      intro p valid q member
      rw [Node.outs, quantifierOuts, general, if_neg (lt_irrefl 0), loopOuts] at member
      rw [if_neg (Nat.ne_of_gt positive)] at member
      refine ((ih dir count atomFirst).times move positive).flatMap (move.times quant_min) ?_ p valid q
        member
      unfold moreOuts
      split
      · exact move.star _ _ _
      · exact move.upTo _ _

/-! ### The pieces -/

theorem Piece.charTest (dir : Bool) {op : REOp} (char : isCharOp op = true) :
    Piece x base size (Valid x) (emitCharTest dir op) fun p =>
      if dir then (prevOuts x p).flatMap fun q => (charOuts x op q).flatMap (prevOuts x)
      else charOuts x op p := by
  have charPiece : Piece x base size (Valid x) [op] (charOuts x op) :=
    .charOp char fun p cptr valid test => valid.moveTo (lreMatchCharOp_bounds test).2
  cases dir with
  | false => exact charPiece
  | true =>
      have level : depth [op] = 0 := by cases op <;> first | rfl | cases char
      have prev : Piece x base size (Valid x) [.prev] (prevOuts x) := by
        refine ⟨fun pc at_ counters p _ _ => ?_, fun p valid q member => ?_⟩
        · exact @runs_prev x base size pc counters p at_.fetch
        · obtain ⟨cptr, back, rfl⟩ := mem_test member
          split at back
          · cases back
          · obtain rfl := Option.some.inj back
            exact valid.moveTo ((prevChar_le x _).trans valid.inside)
      exact prev.append rfl (charPiece.append level prev)

theorem Piece.backReference (dir : Bool) (index : Nat) :
    Piece x base size (Valid x)
      [if dir then .backward_back_reference index else .back_reference index]
      (backReferenceOuts x dir index) where
  keeps := fun p valid q member => (moves_backReference x dir index p valid q member).1
  runs := by
    intro pc at_ counters p _ _
    have run := @runs_backReference x base size pc counters p dir index at_.fetch
    cases dir <;> exact run

theorem Piece.save {op : REOp} {index slot : Nat}
    (isSave : op = .save_start index ∧ slot = 2 * index ∨ op = .save_end index ∧ slot = 2 * index + 1)
    (fits : index < x.capture_count) :
    Piece x base size (Valid x) [op] fun p => [p.save slot] where
  keeps := by
    intro p valid q member
    obtain rfl := List.mem_singleton.mp member
    exact valid.save slot
  runs := by
    intro pc at_ counters p valid _
    have run := @runs_save x base size pc counters p op index slot at_.fetch isSave fits valid.length
    obtain ⟨rfl, -⟩ | ⟨rfl, -⟩ := isSave <;> exact run

theorem Piece.reset {first last : Nat} (fits : last < x.capture_count) :
    Piece x base size (Valid x) [.save_reset first last] fun p => [p.reset first last] where
  keeps := by
    intro p valid q member
    obtain rfl := List.mem_singleton.mp member
    exact valid.reset first last
  runs := fun _ at_ _ _ valid _ => runs_reset at_.fetch fits valid.length

section

variable {code code' : List REOp} {f g : Point → List Point}

section

variable (h : Piece x base size (Valid x) code f)

include h

theorem Piece.capture (level : depth code = 0) (dir : Bool) {index : Nat}
    (fits : index < x.capture_count) :
    Piece x base size (Valid x) (captureCode dir index code) fun p =>
      if dir then (f (p.save (2 * index + 1))).map fun q => q.save (2 * index)
      else (f (p.save (2 * index))).map fun q => q.save (2 * index + 1) := by
  have around : ∀ {op op' : REOp} {slot slot' : Nat}, op.effect = 0 →
      Piece x base size (Valid x) [op] (fun p => [p.save slot]) →
      Piece x base size (Valid x) [op'] (fun p => [p.save slot']) →
      Piece x base size (Valid x) (op :: code ++ [op']) fun p =>
        (f (p.save slot)).map fun q => q.save slot' := by
    intro op op' slot slot' effect first last
    have whole := (first.append (by rw [depth_cons, effect]; rfl) h).append
      (by rw [depth_append, depth_cons, effect, level]; rfl) last
    have outs : (fun p : Point => ([p.save slot].flatMap f).flatMap fun q => [q.save slot']) =
        fun p => (f (p.save slot)).map fun q => q.save slot' := by
      funext p
      rw [List.flatMap_singleton, ← List.map_eq_flatMap]
    rw [outs] at whole
    exact whole
  cases dir with
  | false => exact around rfl (.save (.inl ⟨rfl, rfl⟩) fits) (.save (.inr ⟨rfl, rfl⟩) fits)
  | true => exact around rfl (.save (.inr ⟨rfl, rfl⟩) fits) (.save (.inl ⟨rfl, rfl⟩) fits)

theorem Piece.alt (level : depth code = 0) (h' : Piece x base size (Valid x) code' g) :
    Piece x base size (Valid x)
      (.split_next_first (codeSize code + 5) :: code ++ .goto (codeSize code') :: code')
      fun p => f p ++ g p where
  keeps := fun p valid q member => (List.mem_append.mp member).elim (h.keeps p valid q)
    (h'.keeps p valid q)
  runs := by
    intro pc at_ counters p valid room
    rw [List.cons_append] at at_ room ⊢
    have bound := effect_add_peak_le (.split_next_first (codeSize code + 5))
      (code ++ .goto (codeSize code') :: code')
    have bound' := peak_append_left code (.goto (codeSize code') :: code')
    have bound'' := peak_append_right code (.goto (codeSize code') :: code')
    have bound''' := effect_add_peak_le (.goto (codeSize code')) code'
    rw [REOp.goto_effect] at bound'''
    rw [show (REOp.split_next_first (codeSize code + 5)).effect = 0 from rfl] at bound
    have codeAt : CodeAt x.code (pc + 5) code := at_.tail.left
    have gotoAt : CodeAt x.code (pc + 5 + codeSize code) (.goto (codeSize code') :: code') :=
      at_.tail.right
    have codeAt' : CodeAt x.code (pc + 5 + codeSize code + 5) code' := gotoAt.tail
    have total : pc + codeSize (.split_next_first (codeSize code + 5) ::
        (code ++ .goto (codeSize code') :: code')) =
          pc + 5 + codeSize code + 5 + codeSize code' := by
      simp only [codeSize_cons, codeSize_append, REOp.size]
      omega
    have leave : jump (pc + 5 + codeSize code + 5) (codeSize code') =
        pc + 5 + codeSize code + 5 + codeSize code' := jump_forward _ _
    have other : jump (pc + 5) (codeSize code + 5) = pc + 5 + codeSize code + 5 := by
      unfold jump
      omega
    rw [total]
    refine @runs_splitOp x base size pc counters p pc _ counters true (codeSize code + 5) _ _
      at_.fetch ⟨le_refl _, by omega⟩ ?_ ?_
    · have whole := Runs.bind (h.runs _ codeAt counters p valid (by omega)) (le_refl _)
        (show pc + 5 + codeSize code ≤ pc + 5 + codeSize code + 5 + codeSize code' by omega)
        fun q _ => Runs.next ⟨by omega, by omega⟩ (fun s arrived => goto_turn gotoAt.fetch arrived)
          (by rw [leave]; exact .here x base size (pc + 5) _ counters q)
      rw [List.flatMap_singleton'] at whole
      exact whole.weaken (by omega)
    · rw [other]
      exact (h'.runs _ codeAt' counters p valid (by omega)).weaken (by omega)

theorem Piece.look (is_neg : Bool) :
    Piece x base size (Valid x) (lookaroundCode is_neg code) fun p => lookOuts is_neg p (f p) where
  keeps := by
    intro p valid q member
    obtain ⟨same, rfl | ⟨r, body_, capture⟩⟩ := mem_lookOuts member
    · exact valid
    · exact ⟨same ▸ valid.inside, by rw [capture, (h.keeps p valid r body_).length]⟩
  runs := by
    intro pc at_ counters p valid room
    unfold lookaroundCode at at_ room ⊢
    rw [List.cons_append] at at_ room ⊢
    generalize hop : (if is_neg then REOp.negative_lookahead (codeSize code + 1)
      else .lookahead (codeSize code + 1)) = op at at_ room ⊢
    have opSize : op.size = 5 := by rw [← hop]; cases is_neg <;> rfl
    have effect : op.effect = 0 := by rw [← hop]; cases is_neg <;> rfl
    have bound := effect_add_peak_le op (code ++ [.match])
    have bound' := peak_append_left code [.match]
    rw [effect] at bound
    have codeAt := at_.tail.left
    have matchAt := at_.tail.right
    rw [opSize] at codeAt matchAt
    have total : pc + codeSize (op :: (code ++ [.match])) = pc + 5 + codeSize code + 1 := by
      have last : REOp.match.size = 1 := rfl
      simp only [codeSize_cons, codeSize_append, codeSize_nil, opSize, last]
      omega
    have leave : jump (pc + 5) (codeSize code + 1) = pc + 5 + codeSize code + 1 := by
      unfold jump
      omega
    rw [total]
    refine Runs.look ⟨le_refl _, by omega⟩ matchAt.fetch (fun s arrived => ?_)
      ⟨by omega, by omega, by omega⟩ (h.runs _ codeAt counters p valid (by omega))
    rw [action, arrived.pc, at_.fetch, ← leave, ← hop]
    cases is_neg <;> rfl

end

end

/-! ### The loops -/

/-- No iteration of an unbounded loop without the check for empty iterations is empty: such a loop is
lazy, or `re_check_advance` gives -1 for its atom. -/
def Node.LoopsAdvance (x : ExecContext) (dir : Bool) (count : Nat) : Node → Prop
  | empty | charTest _ _ | assertion _ _ | backReference _ => True
  | seq first second =>
      first.LoopsAdvance x dir count ∧ second.LoopsAdvance x dir (count + first.captures)
  | alt left right =>
      left.LoopsAdvance x dir count ∧ right.LoopsAdvance x dir (count + left.captures)
  | capture body => body.LoopsAdvance x dir (count + 1)
  | look _ behind body => body.LoopsAdvance x behind count
  | quant atom _ quant_max _ greedy =>
      atom.LoopsAdvance x dir count ∧
        (quant_max = INT32_MAX → greedy = false ∨ reCheckAdvance (atom.emit dir count) = -1 →
          ∀ p, Valid x p → ∀ q ∈ atom.outs x dir count p, q.cptr ≠ p.cptr)

theorem reCheckAdvance_cases (code : List REOp) :
    reCheckAdvance code = -1 ∨ reCheckAdvance code = 0 ∨ reCheckAdvance code = 1 := by
  unfold reCheckAdvance
  dsimp only
  split
  · exact .inl rfl
  · split
    · exact .inr (.inr rfl)
    · exact .inr (.inl rfl)

/-- What the loop over the atom needs. -/
theorem Node.decreases {node : Node} {dir : Bool} {count : Nat} {greedy : Bool}
    (advance : greedy = false ∨ reCheckAdvance (node.emit dir count) = -1 →
      ∀ p, Valid x p → ∀ q ∈ node.outs x dir count p, q.cptr ≠ p.cptr) :
    Decreases (Valid x) (greedy && reCheckAdvance (node.emit dir count) = 0) (left x dir)
      (node.outs x dir count) := by
  intro p valid q member
  obtain same | less := (node.moves x dir count p valid q member).2
  · cases greedy with
    | false => exact absurd same (advance (.inl rfl) p valid q member)
    | true =>
        obtain minus | zero | one := reCheckAdvance_cases (node.emit dir count)
        · exact absurd same (advance (.inr minus) p valid q member)
        · exact .inl ⟨by rw [zero]; rfl, same⟩
        · exact .inr (node.movesOn x dir count (firstMove_of_reCheckAdvance one) p valid q member)
  · exact .inr less

/-- The code of a pattern whose loops advance. -/
theorem Node.piece {node : Node} {dir : Bool} {count : Nat}
    (fits : count + node.captures ≤ x.capture_count) (advance : node.LoopsAdvance x dir count) :
    Piece x base size (Valid x) (node.emit dir count) (node.outs x dir count) := by
  induction node generalizing dir count with
  | empty => exact .empty x base size _
  | charTest op char => exact .charTest dir char.char
  | assertion op test => exact .assertion test
  | backReference index => exact .backReference dir index
  | seq first second ih ih' =>
      rw [captures] at fits
      have piece := ih (by omega) advance.1
      have piece' := ih' (by omega) advance.2
      cases dir with
      | false => exact piece.append (balanced_emit first false count).depth piece'
      | true => exact piece'.append (balanced_emit second true _).depth piece
  | alt left right ih ih' =>
      rw [captures] at fits
      exact (ih (by omega) advance.1).alt (balanced_emit left dir count).depth
        (ih' (by omega) advance.2)
  | capture body ih =>
      rw [captures] at fits
      exact (ih (by omega) advance).capture (balanced_emit body dir _).depth dir (by omega)
  | look is_neg behind body ih => exact (ih fits advance).look is_neg
  | quant atom quant_min quant_max bounds greedy ih =>
      rw [captures] at fits
      have piece := ih fits advance.1
      rw [Node.outs, Node.emit, quantifierOuts, emitQuantifier]
      change Piece _ _ _ _ (if shortcutChars (atom.emit dir count) quant_max greedy > 0 then _ else _) _
      by_cases positive : shortcutChars (atom.emit dir count) quant_max greedy > 0
      · rw [if_pos positive, if_pos positive]
        obtain ⟨simple, some_match⟩ := shortcutChars_pos positive
        refine Piece.simple ⟨rfl, simple, positive, some_match, bounds.1⟩ fun p cptr valid le => ?_
        exact valid.moveTo (le.trans (Nat.max_le.mpr ⟨valid.inside, le_refl _⟩))
      · rw [if_neg positive, if_neg positive]
        refine piece.loop (balanced_emit atom dir count).depth _ _ bounds
          (fun unbounded => Node.decreases (advance.2 unbounded)) (fun p valid => left_lt dir valid)
          fun captures => .reset ?_
        omega

end PrimJs.Regexp
