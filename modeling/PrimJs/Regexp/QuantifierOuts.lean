import PrimJs.Regexp.Pieces

/-! What a quantifier offers, from what its atom offers. -/

namespace PrimJs.Regexp

def peak : List REOp → Int
  | [] => 0
  | op :: code => max 0 (op.effect + peak code)

theorem peak_nonneg (code : List REOp) : 0 ≤ peak code := by
  cases code with
  | nil => exact le_refl _
  | cons op code => exact le_max_left _ _

theorem effect_add_peak_le (op : REOp) (code : List REOp) :
    op.effect + peak code ≤ peak (op :: code) := le_max_right _ _

theorem peak_append (front back : List REOp) :
    peak (front ++ back) = max (peak front) (depth front + peak back) := by
  induction front with
  | nil =>
      have := peak_nonneg back
      simp [peak, this]
  | cons op front ih =>
      rw [List.cons_append, peak, peak, ih, depth_cons]
      omega

theorem peak_append_left (front back : List REOp) : peak front ≤ peak (front ++ back) := by
  rw [peak_append]
  exact le_max_left _ _

theorem peak_append_right (front back : List REOp) :
    depth front + peak back ≤ peak (front ++ back) := by
  rw [peak_append]
  exact le_max_right _ _

/-- A piece of code that offers `f` wherever it stands, for points that keep `Valid`. -/
structure Piece (x : ExecContext) (base : Slots) (size : Nat) (Valid : Point → Prop)
    (code : List REOp) (f : Point → List Point) : Prop where
  runs : ∀ pc, CodeAt x.code pc code → ∀ (counters : List Word) (p : Point), Valid p →
    counters.length + peak code ≤ size →
    Runs x base size pc pc (pc + codeSize code) counters counters p (f p)
  keeps : ∀ p, Valid p → ∀ q ∈ f p, Valid q

/-! ### The points after the iterations -/

/-- Exactly `n` iterations. -/
def timesOuts (f : Point → List Point) : Nat → Point → List Point
  | 0, p => [p]
  | n + 1, p => (f p).flatMap (timesOuts f n)

/-- Going on before leaving, or the other way round. -/
def prefer (greedy : Bool) (more : List Point) (p : Point) : List Point :=
  if greedy then more ++ [p] else [p] ++ more

/-- At most `n` iterations. -/
def upToOuts (greedy : Bool) (f : Point → List Point) : Nat → Point → List Point
  | 0, p => [p]
  | n + 1, p => prefer greedy ((f p).flatMap (upToOuts greedy f n)) p

/-- Any number of iterations; with the check, an iteration that has not moved is the last one. -/
def starOuts (greedy check : Bool) (f : Point → List Point) : (fuel : Nat) → Point → List Point
  | 0, _ => []
  | n + 1, p =>
      prefer greedy ((f p).flatMap fun q =>
        if check ∧ q.cptr = p.cptr then [q] else starOuts greedy check f n q) p

/-- The captures of an atom that may be skipped, before its first iteration. -/
def resetOuts (last_capture_count capture_count : Nat) (p : Point) : Point :=
  if last_capture_count ≠ capture_count then p.reset last_capture_count (capture_count - 1) else p

/-- The iterations after the minimum. -/
def moreOuts (greedy check : Bool) (f : Point → List Point) (fuel quant_min quant_max : Nat) :
    Point → List Point :=
  if quant_max = INT32_MAX then starOuts greedy check f fuel
  else upToOuts greedy f (quant_max - quant_min)

/-- The points after the general case of a quantifier. -/
def loopOuts (greedy check : Bool) (f : Point → List Point)
    (fuel quant_min quant_max last_capture_count capture_count : Nat) (p : Point) : List Point :=
  let p := if quant_min = 0 then resetOuts last_capture_count capture_count p else p
  (timesOuts f quant_min p).flatMap (moreOuts greedy check f fuel quant_min quant_max)

theorem mem_prefer {greedy : Bool} {more : List Point} {p q : Point}
    (h : q ∈ prefer greedy more p) : q ∈ more ∨ q = p := by
  unfold prefer at h
  split at h
  · simpa using h
  · simpa [or_comm] using h

section Keeps

variable {Valid : Point → Prop} {f : Point → List Point}

theorem keeps_times (keeps : ∀ p, Valid p → ∀ q ∈ f p, Valid q) (n : Nat) (p : Point)
    (valid : Valid p) : ∀ q ∈ timesOuts f n p, Valid q := by
  induction n generalizing p with
  | zero => simpa [timesOuts] using valid
  | succ n ih =>
      intro q member
      obtain ⟨p₁, first, rest⟩ := List.mem_flatMap.mp member
      exact ih p₁ (keeps p valid p₁ first) q rest

theorem keeps_upTo (keeps : ∀ p, Valid p → ∀ q ∈ f p, Valid q) (greedy : Bool) (n : Nat)
    (p : Point) (valid : Valid p) : ∀ q ∈ upToOuts greedy f n p, Valid q := by
  induction n generalizing p with
  | zero => simpa [upToOuts] using valid
  | succ n ih =>
      intro q member
      obtain more | rfl := mem_prefer member
      · obtain ⟨p₁, first, rest⟩ := List.mem_flatMap.mp more
        exact ih p₁ (keeps p valid p₁ first) q rest
      · exact valid

theorem keeps_star (keeps : ∀ p, Valid p → ∀ q ∈ f p, Valid q) (greedy check : Bool) (fuel : Nat)
    (p : Point) (valid : Valid p) : ∀ q ∈ starOuts greedy check f fuel p, Valid q := by
  induction fuel generalizing p with
  | zero => rintro q ⟨⟩
  | succ fuel ih =>
      intro q member
      obtain more | rfl := mem_prefer member
      · obtain ⟨p₁, first, rest⟩ := List.mem_flatMap.mp more
        split at rest
        · obtain rfl := List.mem_singleton.mp rest
          exact keeps p valid q first
        · exact ih p₁ (keeps p valid p₁ first) q rest
      · exact valid

end Keeps

/-! ### The code of the iterations -/

theorem jump_forward (pc n : Nat) : jump pc (n : Int) = pc + n := by
  unfold jump
  omega

section Loops

variable {x : ExecContext} {base : Slots} {size : Nat} {Valid : Point → Prop}
variable {atom : List REOp} {f : Point → List Point}

theorem Piece.times (h : Piece x base size Valid atom f) {n : Nat} (positive : 0 < n)
    (small : n < 2 ^ 64) : Piece x base size Valid (emitTimes atom n) (timesOuts f n) where
  keeps := fun p valid => keeps_times h.keeps n p valid
  runs := by
    intro pc at_ counters p valid room
    unfold emitTimes at at_ room ⊢
    by_cases single : n = 1
    · subst single
      rw [if_pos rfl] at at_ room ⊢
      have once : timesOuts f 1 p = f p := by simp [timesOuts]
      rw [once]
      exact h.runs pc at_ counters p valid room
    · rw [if_neg single, List.cons_append] at at_ room ⊢
      have bound := effect_add_peak_le (.push_i32 n) (atom ++ [.loop (-(codeSize atom + 5)), .drop])
      have bound' := peak_append_left atom [.loop (-(codeSize atom + 5)), .drop]
      have nonneg := peak_nonneg atom
      rw [REOp.push_i32_effect] at bound
      have atomAt : CodeAt x.code (pc + 5) atom := at_.tail.left
      have loopAt := at_.tail.right
      have dropAt := loopAt.tail
      rw [REOp.push_i32_size] at loopAt dropAt
      rw [REOp.loop_size] at dropAt
      have total : pc + codeSize (REOp.push_i32 n :: (atom ++ [.loop (-(codeSize atom + 5)), .drop])) =
          pc + 5 + codeSize atom + 5 + 1 := by
        simp only [codeSize_cons, codeSize_append, codeSize_nil,
          REOp.push_i32_size, REOp.loop_size, REOp.drop_size]
        omega
      rw [total]
      have back : jump (pc + 5 + codeSize atom + 5) (-(codeSize atom + 5)) = pc + 5 := by
        unfold jump
        omega
      -- by induction on the iterations that the counter still asks for
      have rounds : ∀ k p, Valid p → k + 1 < 2 ^ 64 →
          Runs x base size (pc + 5) (pc + 5) (pc + 5 + codeSize atom + 5 + 1)
            (counters ++ [.num (k + 1)]) counters p (timesOuts f (k + 1) p) := by
        intro k
        induction k with
        | zero =>
            intro p valid small
            refine (h.runs _ atomAt _ p valid (by simp; omega)).bind (le_refl _) (by omega) ?_
            intro q _
            refine .next ⟨by omega, by omega⟩ (fun s arrived => loop_turn loopAt.fetch small arrived) ?_
            exact (runs_drop dropAt.fetch).weaken (by omega)
        | succ k ih =>
            intro p valid small
            refine (h.runs _ atomAt _ p valid (by simp; omega)).bind (le_refl _) (by omega) ?_
            intro q member
            refine .next ⟨by omega, by omega⟩ (fun s arrived => loop_turn loopAt.fetch small arrived) ?_
            rw [if_neg (Nat.succ_ne_zero k), back]
            exact ih q (h.keeps p valid q member) (by omega)
      obtain ⟨k, rfl⟩ := Nat.exists_eq_succ_of_ne_zero (Nat.ne_of_gt positive)
      have push := @runs_push x base size pc counters p _ (.num (k + 1)) at_.fetch
        (.inl ⟨_, rfl, rfl⟩) (by omega)
      rw [← List.flatMap_singleton (timesOuts f (k + 1)) p]
      refine push.bind (le_refl _) (by simp only [REOp.push_i32_size]; omega) fun q member => ?_
      obtain rfl := List.mem_singleton.mp member
      exact (rounds k q valid small).weaken (by omega)

theorem Piece.upTo (h : Piece x base size Valid atom f) (greedy : Bool) {n : Nat}
    (positive : 0 < n) (small : n < 2 ^ 64) :
    Piece x base size Valid (emitUpTo atom greedy n) (upToOuts greedy f n) where
  keeps := fun p valid => keeps_upTo h.keeps greedy n p valid
  runs := by
    intro pc at_ counters p valid room
    unfold emitUpTo at at_ room ⊢
    dsimp only at at_ room ⊢
    rw [List.cons_append, List.cons_append] at at_ room ⊢
    generalize hlast : [REOp.loop (-(5 + (codeSize atom : Int) + 5)), .drop] = last at at_ room ⊢
    have bound := effect_add_peak_le (.push_i32 n)
      (splitOp greedy (codeSize atom + 5) :: (atom ++ last))
    have bound' := effect_add_peak_le (splitOp greedy (codeSize atom + 5)) (atom ++ last)
    have bound'' := peak_append_left atom last
    have nonneg := peak_nonneg atom
    rw [REOp.push_i32_effect] at bound
    rw [splitOp_effect] at bound'
    have splitAt := at_.tail
    have atomAt := splitAt.tail.left
    have loopAt := splitAt.tail.right
    rw [← hlast] at loopAt
    have dropAt := loopAt.tail
    simp only [REOp.push_i32_size, splitOp_size, REOp.loop_size] at splitAt atomAt loopAt dropAt
    have total : pc + codeSize (REOp.push_i32 n ::
        splitOp greedy (codeSize atom + 5) :: (atom ++ last)) =
          pc + 5 + 5 + codeSize atom + 5 + 1 := by
      rw [← hlast]
      simp only [codeSize_cons, codeSize_append, codeSize_nil, REOp.push_i32_size, splitOp_size,
        REOp.loop_size, REOp.drop_size]
      omega
    rw [total]
    have back : jump (pc + 5 + 5 + codeSize atom + 5) (-(5 + (codeSize atom : Int) + 5)) = pc + 5 := by
      unfold jump
      omega
    have leave : jump (pc + 5 + 5) (codeSize atom + 5) = pc + 5 + 5 + codeSize atom + 5 := by
      unfold jump
      omega
    have dropped : ∀ k p, Runs x base size (pc + 5) (pc + 5 + 5 + codeSize atom + 5)
        (pc + 5 + 5 + codeSize atom + 5 + 1) (counters ++ [.num k]) counters p [p] :=
      fun k p => (runs_drop dropAt.fetch).weaken (by omega)
    -- by induction on the iterations that the counter still allows
    have rounds : ∀ k p, Valid p → k + 1 < 2 ^ 64 →
        Runs x base size (pc + 5) (pc + 5) (pc + 5 + 5 + codeSize atom + 5 + 1)
          (counters ++ [.num (k + 1)]) counters p (upToOuts greedy f (k + 1) p) := by
      intro k
      induction k with
      | zero =>
          intro p valid small
          refine runs_splitOp splitAt.fetch ⟨by omega, by omega⟩ ?_ (by rw [leave]; exact dropped _ _)
          refine (h.runs _ atomAt _ p valid (by simp; omega)).bind (by omega) (by omega) ?_
          intro q _
          exact .next ⟨by omega, by omega⟩ (fun s arrived => loop_turn loopAt.fetch small arrived)
            (dropped _ _)
      | succ k ih =>
          intro p valid small
          refine runs_splitOp splitAt.fetch ⟨by omega, by omega⟩ ?_ (by rw [leave]; exact dropped _ _)
          refine (h.runs _ atomAt _ p valid (by simp; omega)).bind (by omega) (by omega) ?_
          intro q member
          refine .next ⟨by omega, by omega⟩ (fun s arrived => loop_turn loopAt.fetch small arrived) ?_
          rw [if_neg (Nat.succ_ne_zero k), back]
          exact ih q (h.keeps p valid q member) (by omega)
    obtain ⟨k, rfl⟩ := Nat.exists_eq_succ_of_ne_zero (Nat.ne_of_gt positive)
    have push := @runs_push x base size pc counters p _ (.num (k + 1)) at_.fetch
      (.inl ⟨_, rfl, rfl⟩) (by omega)
    rw [← List.flatMap_singleton (upToOuts greedy f (k + 1)) p]
    refine push.bind (le_refl _) (by simp only [REOp.push_i32_size]; omega) fun q member => ?_
    obtain rfl := List.mem_singleton.mp member
    exact (rounds k q valid small).weaken (by omega)

/-- Each iteration leaves less of the input, unless the check stops there. -/
def Decreases (Valid : Point → Prop) (check : Bool) (left : Point → Nat) (f : Point → List Point) :
    Prop :=
  ∀ p, Valid p → ∀ q ∈ f p, (check = true ∧ q.cptr = p.cptr) ∨ left q < left p

section

variable (h : Piece x base size Valid atom f) (greedy : Bool)

include h

theorem Piece.star (check : Bool) {left : Point → Nat} (decreases : Decreases Valid check left f)
    {fuel : Nat} (enough : ∀ p, Valid p → left p < fuel) :
    Piece x base size Valid (emitStar atom greedy check) (starOuts greedy check f fuel) where
  keeps := fun p valid => keeps_star h.keeps greedy check fuel p valid
  runs := by
    intro pc at_ counters p valid room
    have fits := enough p valid
    clear enough
    cases check with
    | true =>
        unfold emitStar at at_ room ⊢
        rw [if_pos rfl, List.cons_append, List.cons_append] at at_ room ⊢
        have bound := effect_add_peak_le (splitOp greedy (codeSize atom + 5 + 1))
          (.push_char_pos :: (atom ++ [.bne_char_pos (-(5 + 1 + (codeSize atom : Int) + 5))]))
        have bound' := effect_add_peak_le .push_char_pos
          (atom ++ [.bne_char_pos (-(5 + 1 + (codeSize atom : Int) + 5))])
        have bound'' := peak_append_left atom [.bne_char_pos (-(5 + 1 + (codeSize atom : Int) + 5))]
        have nonneg := peak_nonneg atom
        rw [REOp.push_char_pos_effect] at bound'
        rw [splitOp_effect] at bound
        have pushAt := at_.tail
        have atomAt := pushAt.tail.left
        have bneAt := pushAt.tail.right
        simp only [splitOp_size, REOp.push_char_pos_size] at pushAt atomAt bneAt
        have total : pc + codeSize (splitOp greedy (codeSize atom + 5 + 1) :: .push_char_pos ::
            (atom ++ [.bne_char_pos (-(5 + 1 + (codeSize atom : Int) + 5))])) =
              pc + 5 + 1 + codeSize atom + 5 := by
          simp only [codeSize_cons, codeSize_append, codeSize_nil, splitOp_size,
            REOp.push_char_pos_size, REOp.bne_char_pos_size]
          omega
        rw [total]
        have back : jump (pc + 5 + 1 + codeSize atom + 5) (-(5 + 1 + (codeSize atom : Int) + 5)) =
            pc := by
          unfold jump
          omega
        have leave : jump (pc + 5) (codeSize atom + 5 + 1) = pc + 5 + 1 + codeSize atom + 5 := by
          unfold jump
          omega
        induction fuel generalizing p with
        | zero => exact absurd fits (Nat.not_lt_zero _)
        | succ fuel ih =>
            refine runs_splitOp at_.fetch ⟨le_refl _, by omega⟩ ?_
              (by rw [leave]; exact .here x base size pc _ counters p)
            have push := @runs_push x base size (pc + 5) counters p _ (.ptr p.cptr) pushAt.fetch
              (.inr ⟨rfl, rfl⟩) (by omega)
            have entered : Runs x base size (pc + 5) (pc + 5) (pc + 5 + 1 + codeSize atom) counters
                (counters ++ [.ptr p.cptr]) p (f p) := by
              rw [← List.flatMap_singleton f p]
              refine push.bind (le_refl _) (by simp only [REOp.push_char_pos_size]; omega)
                fun q member => ?_
              obtain rfl := List.mem_singleton.mp member
              exact (h.runs _ atomAt _ q valid (by simp; omega)).weaken (by omega)
            refine entered.bind (by omega) (by omega) fun q member => ?_
            refine .next ⟨by omega, by omega⟩ (fun s arrived => bne_turn bneAt.fetch arrived) ?_
            obtain ⟨-, same⟩ | fewer := decreases p valid q member
            · rw [if_pos same, if_pos ⟨rfl, same⟩]
              exact .here x base size pc _ counters q
            · by_cases same : q.cptr = p.cptr
              · rw [if_pos same, if_pos ⟨rfl, same⟩]
                exact .here x base size pc _ counters q
              · rw [if_neg same, if_neg fun both => same both.2, back]
                exact ih q (h.keeps p valid q member) (by omega)
    | false =>
        unfold emitStar at at_ room ⊢
        rw [if_neg Bool.false_ne_true, List.cons_append] at at_ room ⊢
        have bound := effect_add_peak_le (splitOp greedy (codeSize atom + 5))
          (atom ++ [.goto (-(5 + (codeSize atom : Int) + 5))])
        have bound' := peak_append_left atom [.goto (-(5 + (codeSize atom : Int) + 5))]
        rw [splitOp_effect] at bound
        have atomAt := at_.tail.left
        have gotoAt := at_.tail.right
        simp only [splitOp_size] at atomAt gotoAt
        have total : pc + codeSize (splitOp greedy (codeSize atom + 5) ::
            (atom ++ [.goto (-(5 + (codeSize atom : Int) + 5))])) = pc + 5 + codeSize atom + 5 := by
          simp only [codeSize_cons, codeSize_append, codeSize_nil, splitOp_size, REOp.goto_size]
          omega
        rw [total]
        have back : jump (pc + 5 + codeSize atom + 5) (-(5 + (codeSize atom : Int) + 5)) = pc := by
          unfold jump
          omega
        have leave : jump (pc + 5) (codeSize atom + 5) = pc + 5 + codeSize atom + 5 := by
          unfold jump
          omega
        induction fuel generalizing p with
        | zero => exact absurd fits (Nat.not_lt_zero _)
        | succ fuel ih =>
            refine runs_splitOp at_.fetch ⟨le_refl _, by omega⟩ ?_
              (by rw [leave]; exact .here x base size pc _ counters p)
            refine (h.runs _ atomAt counters p valid (by omega)).bind (by omega) (by omega) ?_
            intro q member
            refine .next ⟨by omega, by omega⟩ (fun s arrived => goto_turn gotoAt.fetch arrived) ?_
            obtain ⟨wrong, -⟩ | fewer := decreases p valid q member
            · cases wrong
            · rw [back, if_neg fun both => Bool.false_ne_true both.1]
              exact ih q (h.keeps p valid q member) (by omega)

/-- An iteration, then the split that goes back to it. -/
theorem Piece.oneOrMore {left : Point → Nat} (decreases : Decreases Valid false left f)
    {fuel : Nat} (enough : ∀ p, Valid p → left p < fuel) :
    Piece x base size Valid (atom ++ [splitOp (!greedy) (-((codeSize atom : Int) + 5))])
      fun p => (f p).flatMap (starOuts greedy false f fuel) where
  keeps := by
    intro p valid q member
    obtain ⟨p₁, first, rest⟩ := List.mem_flatMap.mp member
    exact keeps_star h.keeps greedy false fuel p₁ (h.keeps p valid p₁ first) q rest
  runs := by
    intro pc at_ counters p valid room
    have bound := peak_append_left atom [splitOp (!greedy) (-((codeSize atom : Int) + 5))]
    have atomAt := at_.left
    have splitAt := at_.right
    have total : pc + codeSize (atom ++ [splitOp (!greedy) (-((codeSize atom : Int) + 5))]) =
        pc + codeSize atom + 5 := by
      simp only [codeSize_cons, codeSize_append, codeSize_nil, splitOp_size]
      omega
    rw [total]
    have back : jump (pc + codeSize atom + 5) (-((codeSize atom : Int) + 5)) = pc := by
      unfold jump
      omega
    -- by induction on what is left of the input
    have rounds : ∀ fuel q, Valid q → left q < fuel →
        Runs x base size pc (pc + codeSize atom) (pc + codeSize atom + 5) counters counters q
          (starOuts greedy false f fuel q) := by
      intro fuel
      induction fuel with
      | zero => exact fun q _ fits => absurd fits (Nat.not_lt_zero _)
      | succ fuel ih =>
          intro q valid fits
          have leave := Runs.here x base size pc (pc + codeSize atom + 5) counters q
          have again : Runs x base size pc (jump (pc + codeSize atom + 5)
              (-((codeSize atom : Int) + 5))) (pc + codeSize atom + 5) counters counters q
              ((f q).flatMap fun q₁ => if false = true ∧ q₁.cptr = q.cptr then [q₁]
                else starOuts greedy false f fuel q₁) := by
            rw [back]
            refine (h.runs _ atomAt counters q valid (by omega)).bind (le_refl _) (by omega) ?_
            intro q₁ member
            obtain ⟨wrong, -⟩ | fewer := decreases q valid q₁ member
            · cases wrong
            · rw [if_neg fun both => Bool.false_ne_true both.1]
              exact ih q₁ (h.keeps q valid q₁ member) (by omega)
          have split_ := runs_splitOp splitAt.fetch ⟨by omega, by omega⟩ leave again
          rw [starOuts, prefer]
          cases greedy <;> exact split_
    refine (h.runs _ atomAt counters p valid (by omega)).bind (le_refl _) (by omega) ?_
    exact fun q member => rounds fuel q (h.keeps p valid q member)
      (enough q (h.keeps p valid q member))

/-- A split over the atom. -/
theorem Piece.optional :
    Piece x base size Valid (splitOp greedy (codeSize atom) :: atom) (upToOuts greedy f 1) where
  keeps := fun p valid => keeps_upTo h.keeps greedy 1 p valid
  runs := by
    intro pc at_ counters p valid room
    have bound := effect_add_peak_le (splitOp greedy (codeSize atom)) atom
    rw [splitOp_effect] at bound
    have atomAt := at_.tail
    rw [splitOp_size] at atomAt
    have leave : jump (pc + 5) (codeSize atom) = pc + (5 + codeSize atom) := by
      unfold jump
      omega
    have once : (f p).flatMap (upToOuts greedy f 0) = f p := List.flatMap_singleton' _
    rw [codeSize_cons, splitOp_size, upToOuts, once, prefer]
    refine runs_splitOp at_.fetch ⟨le_refl _, by omega⟩ ?_
      (by rw [leave]; exact .here x base size pc _ counters p)
    rw [← Nat.add_assoc]
    exact (h.runs _ atomAt counters p valid (by omega)).weaken (by omega)

end

theorem Piece.append {code code' : List REOp} {g : Point → List Point}
    (h : Piece x base size Valid code f) (level : depth code = 0)
    (h' : Piece x base size Valid code' g) :
    Piece x base size Valid (code ++ code') fun p => (f p).flatMap g where
  keeps := by
    intro p valid q member
    obtain ⟨p₁, first, rest⟩ := List.mem_flatMap.mp member
    exact h'.keeps p₁ (h.keeps p valid p₁ first) q rest
  runs := by
    intro pc at_ counters p valid room
    have bound := peak_append_left code code'
    have bound' := peak_append_right code code'
    rw [codeSize_append, ← Nat.add_assoc]
    refine (h.runs pc at_.left counters p valid (by omega)).bind (le_refl _) (by omega) ?_
    exact fun q member =>
      (h'.runs _ at_.right counters q (h.keeps p valid q member) (by omega)).weaken (by omega)

theorem Piece.empty (x : ExecContext) (base : Slots) (size : Nat) (Valid : Point → Prop) :
    Piece x base size Valid [] fun p => [p] where
  keeps := by simp
  runs := fun pc _ counters p _ _ => .here x base size pc pc counters p

theorem depth_times (level : depth atom = 0) (n : Nat) : depth (emitTimes atom n) = 0 := by
  unfold emitTimes
  split
  · exact level
  · simp [level]

section

variable (h : Piece x base size Valid atom f) {quant_min quant_max : Nat} {left : Point → Nat}
  {fuel : Nat}

include h

theorem Piece.more (greedy check : Bool) (bounds : quant_min ≤ quant_max ∧ quant_max ≤ INT32_MAX)
    (decreases : quant_max = INT32_MAX → Decreases Valid check left f)
    (enough : ∀ p, Valid p → left p < fuel) :
    Piece x base size Valid
      (if quant_max = INT32_MAX then emitStar atom greedy check
      else if quant_max > quant_min then emitUpTo atom greedy (quant_max - quant_min) else [])
      (moreOuts greedy check f fuel quant_min quant_max) := by
  unfold moreOuts
  split
  · next unbounded => exact h.star greedy check (decreases unbounded) enough
  · split
    · have small : quant_max - quant_min < 2 ^ 64 := by
        have := bounds.2
        unfold INT32_MAX at this
        omega
      exact h.upTo greedy (by omega) small
    · next none_ =>
      rw [Nat.sub_eq_zero_of_le (Nat.le_of_not_lt none_)]
      exact .empty x base size Valid

/-- The general case of a quantifier. -/
theorem Piece.loop (level : depth atom = 0) (greedy check : Bool)
    (bounds : quant_min ≤ quant_max ∧ quant_max ≤ INT32_MAX)
    (decreases : quant_max = INT32_MAX → Decreases Valid check left f)
    (enough : ∀ p, Valid p → left p < fuel) {last_capture_count capture_count : Nat}
    (resets : last_capture_count ≠ capture_count →
      Piece x base size Valid [.save_reset last_capture_count (capture_count - 1)]
        fun p => [p.reset last_capture_count (capture_count - 1)]) :
    Piece x base size Valid
      (emitLoop atom quant_min quant_max greedy check last_capture_count capture_count)
      (loopOuts greedy check f fuel quant_min quant_max last_capture_count capture_count) := by
  have more := h.more greedy check bounds decreases enough
  unfold emitLoop
  dsimp only
  by_cases zero : quant_min = 0
  · subst zero
    have reset : Piece x base size Valid
        (if last_capture_count ≠ capture_count then
          [.save_reset last_capture_count (capture_count - 1)] else [])
        fun p => [resetOuts last_capture_count capture_count p] := by
      unfold resetOuts
      split
      · next some_ =>
        exact resets some_
      · exact .empty x base size Valid
    have resetLevel : depth (if last_capture_count ≠ capture_count then
        [REOp.save_reset last_capture_count (capture_count - 1)] else []) = 0 := by
      split <;> rfl
    have outs : loopOuts greedy check f fuel 0 quant_max last_capture_count capture_count =
        fun p => [resetOuts last_capture_count capture_count p].flatMap
          (moreOuts greedy check f fuel 0 quant_max) := by
      funext p
      simp [loopOuts, timesOuts]
    rw [if_pos rfl, outs]
    generalize (if last_capture_count ≠ capture_count then
      [REOp.save_reset last_capture_count (capture_count - 1)] else []) = code at reset resetLevel ⊢
    have whole := reset.append resetLevel more
    by_cases none_ : quant_max = 0
    · subst none_
      have bounded : ¬ 0 = INT32_MAX := by decide
      rw [if_neg bounded, if_neg (lt_irrefl 0), List.append_nil] at whole
      rw [if_pos rfl]
      exact whole
    · rw [if_neg none_]
      by_cases one : quant_max = 1
      · subst one
        rw [if_pos rfl]
        have more' : moreOuts greedy check f fuel 0 1 = upToOuts greedy f 1 :=
          if_neg (by decide)
        rw [more']
        exact reset.append resetLevel (h.optional greedy)
      · rw [if_neg one]
        by_cases unbounded : quant_max = INT32_MAX
        · rw [if_pos unbounded] at whole ⊢
          exact whole
        · rw [if_neg unbounded, if_pos (Nat.pos_of_ne_zero none_), Nat.sub_zero] at whole
          rw [if_neg unbounded]
          exact whole
  · have outs : loopOuts greedy check f fuel quant_min quant_max last_capture_count capture_count =
        fun p => (timesOuts f quant_min p).flatMap
          (moreOuts greedy check f fuel quant_min quant_max) := by
      funext p
      simp [loopOuts, zero]
    have small : quant_min < 2 ^ 64 := by
      have := bounds.2
      have := bounds.1
      unfold INT32_MAX at *
      omega
    rw [if_neg zero, outs]
    split
    · next plus =>
      simp only [Bool.and_eq_true, decide_eq_true_eq, Bool.not_eq_true'] at plus
      obtain ⟨⟨rfl, rfl⟩, rfl⟩ := plus
      have once : ∀ p, timesOuts f 1 p = f p := fun p => by simp [timesOuts]
      have star : moreOuts greedy false f fuel 1 INT32_MAX = starOuts greedy false f fuel := if_pos rfl
      simp only [once, star]
      exact h.oneOrMore greedy (decreases rfl) enough
    · have repeated := h.times (Nat.pos_of_ne_zero zero) small
      have whole := repeated.append (depth_times level quant_min) more
      by_cases unbounded : quant_max = INT32_MAX
      · rw [if_pos unbounded] at whole ⊢
        exact whole
      · rw [if_neg unbounded] at whole ⊢
        by_cases more_ : quant_max > quant_min
        · rw [if_pos more_] at whole ⊢
          exact whole
        · rw [if_neg more_, List.append_nil] at whole
          rw [if_neg more_]
          exact whole

end

end Loops

end PrimJs.Regexp
