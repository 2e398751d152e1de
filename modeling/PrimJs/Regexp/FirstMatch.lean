import PrimJs.Regexp.Termination

/-! A compiled pattern finds what the pattern, read as a tree, finds first. -/

namespace PrimJs.Regexp

open Stepping

/-- The first point that a pattern offers, at the first of `more + 1` positions that has one. -/
def firstMatch (x : ExecContext) (outs : Point → List Point) (capture : List Word) :
    (more cptr : Nat) → Option Point
  | 0, cptr => (outs ⟨cptr, capture⟩).head?
  | more + 1, cptr =>
      match (outs ⟨cptr, capture⟩).head? with
      | some p => some p
      | none =>
          if cptr < x.cbuf_end then firstMatch x outs capture more (getChar x cptr x.cbuf_end).2
          else none

/-- A match reports the captures of the point that was found; without one the slots are as before. -/
def ExecResult.Finds (base : Slots) (found : Option Point) : ExecResult → Prop
  | .match m => ∃ p, found = some p ∧ m.capture = p.capture
  | .noMatch m => found = none ∧ m = base
  | _ => False

theorem OffersResult.finds {base : Slots} {outs : List Point} {result : ExecResult}
    (h : OffersResult base outs result) : result.Finds base outs.head? := by
  cases h with
  | noMatch => exact ⟨rfl, rfl⟩
  | «match» same => exact ⟨_, rfl, same⟩

variable {u : UnicodeData} {buf : Bytes} {flags : REFlags} {bc : REByteCode}

section

variable (h : lreCompile u buf flags = .ok bc) {node : Node} (isFor : bc.IsFor node)
  (cbuf : List Nat) (cbuf_type : CbufType)

include h

theorem bodyPc_eq : bc.bodyPc = if flags.sticky then 0 else RE_SEARCH_PREFIX_LEN := by
  obtain ⟨-, -, -, -, same⟩ := lreCompile_emit h
  rw [REByteCode.bodyPc, same]

include isFor in
/-- The prefix tries one position after the other. -/
theorem prefix_finds (nonsticky : flags.sticky = false)
    (advance : (Node.capture node).LoopsAdvance (execContext u bc cbuf cbuf_type) false 0)
    {more cptr : Nat} (inside : cptr ≤ cbuf.length) (enough : cbuf.length - cptr ≤ more) :
    let x := execContext u bc cbuf cbuf_type
    let slots := initialSlots bc.capture_count bc.stack_size
    ∃ result, CopyingExec x slots 0 cptr result ∧
      result.Finds slots (firstMatch x ((Node.capture node).outs x false 0) slots.capture more cptr) := by
  intro x slots
  have searchable := lreCompile_searchable h nonsticky cbuf cbuf_type
  have prefixed : ∀ cptr result, PrefixRun x slots cptr result → CopyingExec x slots 0 cptr result :=
    fun cptr result => (prefixRun_iff searchable.searchPrefix cptr result).mpr
  have pc := bodyPc_eq h
  rw [nonsticky, if_neg Bool.false_ne_true] at pc
  induction more generalizing cptr with
  | zero =>
      obtain ⟨result, run, offers⟩ := body_returns h isFor cbuf cbuf_type advance inside
      rw [pc] at run
      refine ⟨result, prefixed _ _ ?_, offers.finds⟩
      obtain ⟨m, rfl⟩ | rfl := offers.cases_result
      · exact .here run (by rintro m ⟨⟩)
      · exact .exhausted run (show cbuf.length ≤ cptr by omega) rfl
  | succ more ih =>
      obtain ⟨result, run, offers⟩ := body_returns h isFor cbuf cbuf_type advance inside
      have finds := offers.finds
      rw [pc] at run
      rw [firstMatch]
      obtain ⟨m, rfl⟩ | rfl := offers.cases_result
      · obtain ⟨p, first, capture⟩ := finds
        rw [first]
        exact ⟨_, prefixed _ _ (.here run (by rintro m ⟨⟩)), p, rfl, capture⟩
      · rw [finds.1]
        dsimp only
        split
        · next left =>
          have bounds := getChar_bounds left
          obtain ⟨result, further, found⟩ := ih bounds.2 (by
            have := bounds.1
            change cbuf.length - (getChar x cptr x.cbuf_end).2 ≤ more
            omega)
          exact ⟨result, prefixed _ _ (.next run left further), found⟩
        · next out => exact ⟨_, prefixed _ _ (.exhausted run (Nat.le_of_not_lt out) rfl), rfl, rfl⟩

/-- The whole code on the copying machine, from the start position. -/
theorem code_finds (isFor : bc.IsFor node)
    (advance : (Node.capture node).LoopsAdvance (execContext u bc cbuf cbuf_type) false 0)
    {cindex : Nat} (inside : cindex ≤ cbuf.length) :
    let x := execContext u bc cbuf cbuf_type
    let slots := initialSlots bc.capture_count bc.stack_size
    ∃ result, CopyingExec x slots 0 cindex result ∧
      result.Finds slots (firstMatch x ((Node.capture node).outs x false 0) slots.capture
        (if flags.sticky then 0 else cbuf.length - cindex) cindex) := by
  cases sticky : flags.sticky with
  | true =>
      obtain ⟨result, run, offers⟩ := body_returns h isFor cbuf cbuf_type advance inside
      rw [bodyPc_eq h, sticky, if_pos rfl] at run
      exact ⟨result, run, offers.finds⟩
  | false => exact prefix_finds h isFor cbuf cbuf_type sticky advance inside (le_refl _)

/-- The matcher and the copying machine return the same, unless memory is refused. -/
theorem lreExec_copying (narrow : cbuf_type = .bits8 → ∀ unit ∈ cbuf, unit ≤ 0xff)
    (alloc : Nat → Bool) (cindex : Nat) :
    let Copying := CopyingExec (execContext u bc cbuf cbuf_type)
      (initialSlots bc.capture_count bc.stack_size) 0 cindex
    (∀ result, LreExec u bc cbuf cbuf_type cindex alloc result →
        Copying result ∨ GaveUp alloc result) ∧
      ∀ result, Copying result → ∃ result', LreExec u bc cbuf cbuf_type cindex alloc result' := by
  cases sticky : flags.sticky with
  | true =>
      simp only [LreExec, sticky_noPrefix h sticky, if_neg Bool.false_ne_true]
      refine ⟨fun result run => copying_of_backtrack run, fun result run => ?_⟩
      obtain exec | ⟨out, -⟩ := backtrack_of_copying alloc staticStackBuf run
      · exact ⟨_, exec⟩
      · exact ⟨_, out⟩
  | false =>
      have searchable := lreCompile_searchable h sticky cbuf cbuf_type
      have narrow' : (execContext u bc cbuf cbuf_type).cbuf_type = .bits8 →
          ∀ unit ∈ cbuf, unit ≤ 0xff := by
        intro type
        dsimp only [execContext] at type
        split at type <;> simp_all
      have found : lreHasSearchPrefix bc.code = true := searchable.searchPrefix
      simp only [LreExec, found, if_true]
      refine ⟨fun result run => copying_of_search narrow' searchable run, fun result run => ?_⟩
      obtain ⟨result', search, -⟩ := search_of_copying narrow' searchable staticStackBuf run
      exact ⟨result', search⟩

end

theorem optionalChars_advance (x : ExecContext) :
    (Node.capture (.seq (.quant (.alt (charNode 97 (by decide)) .empty) 0 INT32_MAX
      ⟨Nat.zero_le _, le_refl _⟩ true) (charNode 98 (by decide)))).LoopsAdvance x false 0 := by
  refine ⟨⟨⟨trivial, trivial⟩, fun _ unchecked => ?_⟩, trivial⟩
  obtain lazy | minus := unchecked
  · cases lazy
  · exact absurd minus (by decide)

end PrimJs.Regexp
