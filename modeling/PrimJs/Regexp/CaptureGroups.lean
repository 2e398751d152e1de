import PrimJs.Regexp.FirstMatch

/-! The groups that a match reports: each one is unset, or a start and an end inside the input. -/

namespace PrimJs.Regexp

open Stepping

/-- The group `i` of the captures. -/
def GroupAt (x : ExecContext) (capture : List Word) (i : Nat) : Prop :=
  (capture[2 * i]? = some .null ∧ capture[2 * i + 1]? = some .null) ∨
    ∃ start stop, start ≤ stop ∧ stop ≤ x.cbuf_end ∧
      capture[2 * i]? = some (.ptr start) ∧ capture[2 * i + 1]? = some (.ptr stop)

/-- At `p` the groups from `first` up to `last` are whole, and the other captures are those of `p₀`. -/
structure Grouped (x : ExecContext) (first last : Nat) (p₀ p : Point) : Prop where
  valid : Valid x p
  notMid : midPair x p.cptr = false
  groups : ∀ i, first ≤ i → i < last → GroupAt x p.capture i
  others : ∀ j, j < 2 * first ∨ 2 * last ≤ j → p.capture[j]? = p₀.capture[j]?

section

variable {x : ExecContext} {first last first' last' : Nat} {p₀ p q : Point}

namespace Grouped

/-- A part of the pattern changes its own groups only. -/
theorem part (h : Grouped x first last p₀ p) (low : first ≤ first') (high : last' ≤ last)
    (inner : Grouped x first' last' p p → Grouped x first' last' p q) : Grouped x first last p₀ q := by
  have after := inner ⟨h.valid, h.notMid,
    fun i inside below => h.groups i (low.trans inside) (below.trans_le high), fun _ _ => rfl⟩
  refine ⟨after.valid, after.notMid, fun i inside below => ?_,
    fun j outside => (after.others j (by omega)).trans (h.others j outside)⟩
  by_cases within : first' ≤ i ∧ i < last'
  · exact after.groups i within.1 within.2
  · have whole := h.groups i inside below
    rwa [GroupAt, ← after.others (2 * i) (by omega), ← after.others (2 * i + 1) (by omega)] at whole

theorem moved (h : Grouped x first last p₀ p) (valid : Valid x q) (notMid : midPair x q.cptr = false)
    (same : q.capture = p.capture) : Grouped x first last p₀ q where
  valid := valid
  notMid := notMid
  groups := by
    rw [same]
    exact h.groups
  others := by
    rw [same]
    exact h.others

theorem reset (h : Grouped x first last p₀ p) : Grouped x first last p₀ (resetOuts first last p) := by
  unfold resetOuts
  split
  · refine ⟨h.valid.reset _ _, h.notMid, fun i inside below => ?_, fun j outside => ?_⟩
    · have cleared : ∀ j, j / 2 = i → (p.reset first (last - 1)).capture[j]? = some .null := by
        intro j half
        have present : ∃ w, p.capture[j]? = some w := by
          have even : j = 2 * i ∨ j = 2 * i + 1 := by omega
          obtain rfl | rfl := even
          · obtain ⟨one, -⟩ | ⟨_, _, -, -, one, -⟩ := h.groups i inside below <;> exact ⟨_, one⟩
          · obtain ⟨-, two⟩ | ⟨_, _, -, -, -, two⟩ := h.groups i inside below <;> exact ⟨_, two⟩
        obtain ⟨w, at_⟩ := present
        rw [Point.reset_getElem?, if_pos (by omega), at_]
        rfl
      exact .inl ⟨cleared _ (by omega), cleared _ (by omega)⟩
    · rw [Point.reset_getElem?, if_neg (by omega)]
      exact h.others j outside
  · exact h

end Grouped

/-- Forward, a point that is not in the middle of a pair stays so and does not go back. -/
theorem forward_of_advances (notMid : midPair x p.cptr = false) (valid : Valid x p)
    (h : Advances x false p q) : midPair x q.cptr = false ∧ p.cptr ≤ q.cptr := by
  have inside := valid.inside
  obtain same | less := h
  · rw [same]
    exact ⟨notMid, le_refl _⟩
  · unfold left at less
    rw [if_neg Bool.false_ne_true, if_neg Bool.false_ne_true, notMid, if_neg Bool.false_ne_true] at less
    split at less
    · omega
    · next whole => exact ⟨by simpa using whole, by omega⟩

theorem backward_of_advances (h : Advances x true p q) : q.cptr ≤ p.cptr := by
  obtain same | less := h
  · exact same.le
  · exact Nat.le_of_lt (by simpa [left] using less)

theorem charTest_notMid {op : REOp} (char : IsCharTest op) (count : Nat)
    (member : q ∈ (Node.charTest op char).outs x true count p) : midPair x q.cptr = false := by
  obtain ⟨r, -, member⟩ := List.mem_flatMap.mp member
  obtain ⟨r', -, member⟩ := List.mem_flatMap.mp member
  obtain ⟨cptr, test, rfl⟩ := mem_test member
  split at test
  · cases test
  · obtain rfl := Option.some.inj test
    exact midPair_prevChar x _

theorem Grouped.enter {count slot : Nat} (h : Grouped x count last p₀ p) (own : slot / 2 = count) :
    Grouped x (count + 1) last (p.save slot) (p.save slot) where
  valid := h.valid.save slot
  notMid := h.notMid
  groups := by
    intro i inside below
    have same : ∀ j, j ≠ slot → (p.save slot).capture[j]? = p.capture[j]? := fun j other =>
      List.getElem?_set_ne (Ne.symm other)
    rw [GroupAt, same _ (by omega), same _ (by omega)]
    exact h.groups i (by omega) below
  others := fun _ _ => rfl

/-- A capture saves one end of its group before its body and the other one after it. -/
theorem Grouped.save {count slot slot' : Nat} {r : Point} (h : Grouped x count last p₀ p)
    (body : Grouped x (count + 1) last (p.save slot) r) (within : count < last)
    (room : count < x.capture_count)
    (ends : slot = 2 * count ∧ slot' = 2 * count + 1 ∧ p.cptr ≤ r.cptr ∨
      slot = 2 * count + 1 ∧ slot' = 2 * count ∧ r.cptr ≤ p.cptr) :
    Grouped x count last p₀ (r.save slot') := by
  have length := h.valid.length
  have length' := body.valid.length
  have kept : ∀ j, j ≠ slot' → (r.save slot').capture[j]? = r.capture[j]? := fun j other =>
    List.getElem?_set_ne (Ne.symm other)
  have set : (r.save slot').capture[slot']? = some (.ptr r.cptr) :=
    List.getElem?_set_self (by omega)
  have before : r.capture[slot]? = some (.ptr p.cptr) :=
    (body.others slot (by omega)).trans (List.getElem?_set_self (by omega))
  refine ⟨body.valid.save slot', body.notMid, fun i inside below => ?_, fun j outside => ?_⟩
  · obtain rfl | above := Nat.eq_or_lt_of_le inside
    · obtain ⟨rfl, rfl, forward⟩ | ⟨rfl, rfl, back⟩ := ends
      · exact .inr ⟨_, _, forward, body.valid.inside, (kept _ (by omega)).trans before, set⟩
      · exact .inr ⟨_, _, back, h.valid.inside, set, (kept _ (by omega)).trans before⟩
    · have whole := body.groups i above below
      rwa [GroupAt, ← kept (2 * i) (by omega), ← kept (2 * i + 1) (by omega)] at whole
  · have frame : (p.save slot).capture[j]? = p.capture[j]? := List.getElem?_set_ne (by omega)
    calc (r.save slot').capture[j]? = r.capture[j]? := kept j (by omega)
      _ = (p.save slot).capture[j]? := body.others j (by omega)
      _ = p.capture[j]? := frame
      _ = p₀.capture[j]? := h.others j outside

theorem Grouped.loop {f : Point → List Point} (h : Grouped x first last p₀ p)
    (keeps : ∀ p, Grouped x first last p₀ p → ∀ q ∈ f p, Grouped x first last p₀ q)
    (greedy check : Bool) (fuel quant_min quant_max : Nat) :
    ∀ q ∈ loopOuts greedy check f fuel quant_min quant_max first last p, Grouped x first last p₀ q := by
  intro q member
  unfold loopOuts at member
  dsimp only at member
  obtain ⟨r, times, more⟩ := List.mem_flatMap.mp member
  have entered : Grouped x first last p₀ (if quant_min = 0 then resetOuts first last p else p) := by
    split
    · exact h.reset
    · exact h
  have repeated := keeps_times keeps quant_min _ entered r times
  unfold moreOuts at more
  split at more
  · exact keeps_star keeps greedy check fuel r repeated q more
  · exact keeps_upTo keeps greedy _ r repeated q more

/-- The groups of a pattern are whole at every point that it offers. -/
theorem Node.grouped (node : Node) (dir : Bool) (count : Nat)
    (fits : count + node.captures ≤ x.capture_count)
    (h : Grouped x count (count + node.captures) p₀ p) :
    ∀ q ∈ node.outs x dir count p, Grouped x count (count + node.captures) p₀ q := by
  induction node generalizing dir count p₀ p with
  | empty =>
      intro q member
      rwa [List.mem_singleton.mp member]
  | charTest op char =>
      intro q member
      have moves := Node.moves x (.charTest op char) dir count p h.valid q member
      cases dir with
      | false =>
          obtain ⟨cptr, -, rfl⟩ := mem_test member
          exact h.moved moves.1 (forward_of_advances h.notMid h.valid moves.2).1 rfl
      | true => exact h.moved moves.1 (charTest_notMid char count member) (backward_charOuts member).2
  | assertion op test =>
      intro q member
      dsimp only [outs] at member
      split at member
      · rwa [List.mem_singleton.mp member]
      · cases member
  | backReference index =>
      intro q member
      have moves := moves_backReference x dir index p h.valid q member
      obtain ⟨cptr, test, rfl⟩ := mem_test member
      refine h.moved moves.1 ?_ rfl
      obtain rfl | ⟨-, -, notMid⟩ | ⟨-, -, -, notMid⟩ := backReference_bounds h.valid.inside test
      · exact h.notMid
      · exact notMid
      · exact notMid
  | seq left right ih ih' =>
      intro q member
      rw [captures] at fits h ⊢
      cases dir with
      | false =>
          obtain ⟨r, before, after⟩ := List.mem_flatMap.mp member
          have between := h.part (le_refl _) (by omega) fun h => ih false count (by omega) h r before
          exact between.part (by omega) (by omega) fun h => ih' false _ (by omega) h q after
      | true =>
          obtain ⟨r, before, after⟩ := List.mem_flatMap.mp member
          have between := h.part (by omega) (by omega) fun h => ih' true _ (by omega) h r before
          exact between.part (le_refl _) (by omega) fun h => ih true count (by omega) h q after
  | alt left right ih ih' =>
      intro q member
      rw [captures] at fits h ⊢
      obtain here | there := List.mem_append.mp member
      · exact h.part (le_refl _) (by omega) fun h => ih dir count (by omega) h q here
      · exact h.part (by omega) (by omega) fun h => ih' dir _ (by omega) h q there
  | capture body ih =>
      intro q member
      rw [captures] at fits h ⊢
      have inner : ∀ slot, slot / 2 = count → ∀ r ∈ body.outs x dir (count + 1) (p.save slot),
          Grouped x (count + 1) (count + (body.captures + 1)) (p.save slot) r := by
        intro slot own r inside
        have enter := h.enter own
        rw [show count + (body.captures + 1) = count + 1 + body.captures by omega] at enter ⊢
        exact ih dir (count + 1) (by omega) enter r inside
      cases dir with
      | false =>
          obtain ⟨r, inside, rfl⟩ := List.mem_map.mp member
          have moves := Node.moves x body false _ _ (h.valid.save _) r inside
          have onward := forward_of_advances h.notMid h.valid moves.2
          exact h.save (inner _ (by omega) r inside) (by omega) (by omega)
            (.inl ⟨rfl, rfl, onward.2⟩)
      | true =>
          obtain ⟨r, inside, rfl⟩ := List.mem_map.mp member
          have moves := Node.moves x body true _ _ (h.valid.save _) r inside
          exact h.save (inner _ (by omega) r inside) (by omega) (by omega)
            (.inr ⟨rfl, rfl, backward_of_advances moves.2⟩)
  | look is_neg behind body ih =>
      intro q member
      have moves := Node.moves x (.look is_neg behind body) dir count p h.valid q member
      obtain ⟨same, rfl | ⟨r, inside, capture⟩⟩ := mem_lookOuts member
      · exact h
      · exact (ih behind count fits h r inside).moved moves.1 (by rw [same]; exact h.notMid) capture
  | quant atom quant_min quant_max bounds greedy ih =>
      intro q member
      have moves := Node.moves x (.quant atom quant_min quant_max bounds greedy) dir count p h.valid q
        member
      rw [outs, quantifierOuts] at member
      split at member
      · next positive =>
        cases dir with
        | false =>
            have same : q.capture = p.capture := by
              unfold greedyOuts at member
              dsimp only at member
              split at member
              · cases member
              · obtain ⟨cptr, -, rfl⟩ := List.mem_map.mp member
                rfl
            exact h.moved moves.1 (forward_of_advances h.notMid h.valid moves.2).1 same
        | true =>
            exact absurd (simple_backward atom count (shortcutChars_pos positive).1)
              (Nat.ne_of_gt positive)
      · exact h.loop (fun p h q member => ih dir count fits h q member) _ _ _ _ _ q member

theorem firstMatch_mem {outs : Point → List Point} {capture : List Word} {more cptr : Nat}
    (inside : cptr ≤ x.cbuf_end) (found : firstMatch x outs capture more cptr = some p) :
    ∃ start, p ∈ outs ⟨start, capture⟩ ∧ start ≤ x.cbuf_end ∧
      (start = cptr ∨ more ≠ 0 ∧ cptr < start ∧ midPair x start = false) := by
  induction more generalizing cptr with
  | zero => exact ⟨cptr, List.mem_of_mem_head? found, inside, .inl rfl⟩
  | succ more ih =>
      rw [firstMatch] at found
      cases first : (outs ⟨cptr, capture⟩).head? with
      | some q =>
          rw [first] at found
          obtain rfl := Option.some.inj found
          exact ⟨cptr, List.mem_of_mem_head? first, inside, .inl rfl⟩
      | none =>
          rw [first] at found
          dsimp only at found
          split at found
          · next left =>
            have bounds := getChar_bounds left
            obtain ⟨start, member, bound, rfl | ⟨-, later, notMid⟩⟩ := ih bounds.2 found
            · exact ⟨_, member, bound, .inr ⟨Nat.succ_ne_zero _, bounds.1, midPair_getChar x cptr⟩⟩
            · exact ⟨start, member, bound, .inr ⟨Nat.succ_ne_zero _, bounds.1.trans later, notMid⟩⟩
          · cases found

end

end PrimJs.Regexp
