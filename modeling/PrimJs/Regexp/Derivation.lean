import PrimJs.Regexp.Compile

/-! The derivations of the parser: one rule for each production, without the fuel.

Facts about a parse are proved by induction on its derivation. -/

namespace PrimJs.Regexp

/-- What a derivation parses: the nonterminal, with the state and the code before it. -/
inductive Goal where
  | disjunction (s : REParseState)
  | alternatives (code : List REOp) (s : REParseState)
  | alternative (code : List REOp) (s : REParseState)
  | term (s : REParseState)
  | atom (s : REParseState)

inductive Assertion : Bytes → REOp → Prop where
  | line_start : Assertion ['^'] .line_start
  | line_end : Assertion ['$'] .line_end
  | word_boundary : Assertion ['\\', 'b'] .word_boundary
  | not_word_boundary : Assertion ['\\', 'B'] .not_word_boundary

/-- The text that opens a look-around, whether it is negative and whether it looks behind. -/
inductive LookaroundText : Bytes → Bool → Bool → Prop where
  | lookahead : LookaroundText ['(', '?', '='] false false
  | negative_lookahead : LookaroundText ['(', '?', '!'] true false
  | lookbehind : LookaroundText ['(', '?', '<', '='] false true
  | negative_lookbehind : LookaroundText ['(', '?', '<', '!'] true true

/-- The code of a look-around over `code`. -/
def lookaroundCode (is_neg : Bool) (code : List REOp) : List REOp :=
  (if is_neg then REOp.negative_lookahead (codeSize code + 1) else .lookahead (codeSize code + 1)) ::
    code ++ [.match]

/-- The code of a capture over `code`. -/
def captureCode (is_backward_dir : Bool) (index : Nat) (code : List REOp) : List REOp :=
  if is_backward_dir then .save_end index :: code ++ [.save_start index]
  else .save_start index :: code ++ [.save_end index]

/-- The start of a capture, with the state after its parenthesis or its name. -/
inductive CaptureOpen (ctx : REContext) (s : REParseState) : REParseState → Prop where
  | unnamed (p : Bytes) : s.buf_ptr = '(' :: p → peek p ≠ '?' →
      CaptureOpen ctx s { s with buf_ptr := p, group_names := s.group_names ++ [[]] }
  | named (p p' name : Bytes) : s.buf_ptr = '(' :: '?' :: '<' :: p → peek p ≠ '=' → peek p ≠ '!' →
      reParseGroupName ctx.unicode ctx.is_utf16 p = some (name, p') →
      findGroupName s.group_names name = none →
      CaptureOpen ctx s { s with
        buf_ptr := p'
        group_names := s.group_names ++ [name]
        has_named_captures := some true }

inductive LeafAtom (ctx : REContext) (dir : Bool) (s : REParseState) :
    List REOp → REParseState → Prop where
  | dot (p : Bytes) : s.buf_ptr = '.' :: p →
      LeafAtom ctx dir s (emitCharTest dir (if ctx.dotall then .any else .dot))
        { s with buf_ptr := p }
  | brace (p : Bytes) (code : List REOp) (s' : REParseState) : s.buf_ptr = '\x7b' :: p →
      parseBraceTerm ctx dir s = .ok (code, s') → LeafAtom ctx dir s code s'
  | namedReference (p : Bytes) (code : List REOp) (s' : REParseState) :
      s.buf_ptr = '\\' :: 'k' :: p → parseNamedReference ctx dir s = .ok (code, s') →
      LeafAtom ctx dir s code s'
  | zero (p p' : Bytes) (c : Nat) : s.buf_ptr = '\\' :: '0' :: p →
      parseZeroEscape ctx p = .ok (c, p') →
      LeafAtom ctx dir s (emitCharTest dir (emitChar ctx c)) { s with buf_ptr := p' }
  | decimal (p : Bytes) (code : List REOp) (s' : REParseState) : s.buf_ptr = '\\' :: p →
      '1' ≤ peek p → peek p ≤ '9' → parseDecimalEscape ctx dir s p = .ok (code, s') →
      LeafAtom ctx dir s code s'
  | charClass (p p' : Bytes) (op : REOp) : s.buf_ptr = '[' :: p →
      reParseCharClass ctx p = .ok (op, p') →
      LeafAtom ctx dir s (emitCharTest dir op) { s with buf_ptr := p' }
  | classAtom (c : Char) (p : Bytes) (code : List REOp) (s' : REParseState) :
      s.buf_ptr = c :: p → c ≠ '(' → c ≠ '[' →
      parseClassAtomTerm ctx dir s = .ok (code, s') → LeafAtom ctx dir s code s'

/-- `re_parse_alternative` stops at the end, at `|` and at `)`. -/
def AtEnd (s : REParseState) : Prop :=
  s.buf_ptr = [] ∨ peek s.buf_ptr = '|' ∨ peek s.buf_ptr = ')'

inductive Parses (ctx : REContext) : Goal → Bool → List REOp → REParseState → Prop where
  | disjunction {s s₁ s' dir code code'} :
      Parses ctx (.alternative [] s) dir code s₁ → Parses ctx (.alternatives code s₁) dir code' s' →
      Parses ctx (.disjunction s) dir code' s'
  | alternatives_done {s dir code} : peek s.buf_ptr ≠ '|' →
      Parses ctx (.alternatives code s) dir code s
  | alternatives_next {s s₁ s' dir code code₁ code'} {p : Bytes} : s.buf_ptr = '|' :: p →
      Parses ctx (.alternative [] { s with buf_ptr := p }) dir code₁ s₁ →
      Parses ctx (.alternatives (.split_next_first (codeSize code + 5) :: code ++
        .goto (codeSize code₁) :: code₁) s₁) dir code' s' →
      Parses ctx (.alternatives code s) dir code' s'
  | alternative_done {s dir code} : AtEnd s → Parses ctx (.alternative code s) dir code s
  | alternative_next {s s₁ s' dir code term code'} : ¬AtEnd s →
      Parses ctx (.term s) dir term s₁ →
      Parses ctx (.alternative (if dir then term ++ code else code ++ term) s₁) dir code' s' →
      Parses ctx (.alternative code s) dir code' s'
  | assertion {s dir text op} {p : Bytes} : Assertion text op → s.buf_ptr = text ++ p →
      Parses ctx (.term s) dir [op] { s with buf_ptr := p }
  | lookaround {s s₁ dir text is_neg behind code} {p p' : Bytes} :
      LookaroundText text is_neg behind → (behind = true ∨ ctx.is_utf16 = true) →
      s.buf_ptr = text ++ p →
      Parses ctx (.disjunction { s with buf_ptr := p }) behind code s₁ → s₁.buf_ptr = ')' :: p' →
      Parses ctx (.term s) dir (lookaroundCode is_neg code) { s₁ with buf_ptr := p' }
  | quantified {s s₁ s' dir atom code} : Parses ctx (.atom s) dir atom s₁ →
      parseQuantifier ctx atom s.capture_count s₁ = .ok (code, s') →
      Parses ctx (.term s) dir code s'
  | leaf {s s' dir code} : LeafAtom ctx dir s code s' → Parses ctx (.atom s) dir code s'
  | group {s s₁ dir code} {p p' : Bytes} : s.buf_ptr = '(' :: '?' :: ':' :: p →
      Parses ctx (.disjunction { s with buf_ptr := p }) dir code s₁ → s₁.buf_ptr = ')' :: p' →
      Parses ctx (.atom s) dir code { s₁ with buf_ptr := p' }
  | lookaheadAtom {s s₁ dir text is_neg code} {p p' : Bytes} :
      LookaroundText text is_neg false → ctx.is_utf16 = false → s.buf_ptr = text ++ p →
      Parses ctx (.disjunction { s with buf_ptr := p }) false code s₁ → s₁.buf_ptr = ')' :: p' →
      Parses ctx (.atom s) dir (lookaroundCode is_neg code) { s₁ with buf_ptr := p' }
  | capture {s s₀ s₁ dir code} {p' : Bytes} : CaptureOpen ctx s s₀ →
      s.capture_count < CAPTURE_COUNT_MAX →
      Parses ctx (.disjunction { s₀ with capture_count := s.capture_count + 1 }) dir code s₁ →
      s₁.buf_ptr = ')' :: p' →
      Parses ctx (.atom s) dir (captureCode dir s.capture_count code) { s₁ with buf_ptr := p' }

/-! ### Every successful parse has a derivation -/

theorem eq_cons_of_peek {p : Bytes} {c : Char} (hpeek : peek p = c) (hne : c ≠ '\x00') :
    p = c :: p.tail := by
  cases p with
  | nil => exact absurd hpeek.symm hne
  | cons head p => rw [show head = c from hpeek]; rfl

theorem reParseExpect_eq_ok {s s' : REParseState} {msg : String}
    (h : reParseExpect s ')' msg = .ok s') :
    ∃ p, s.buf_ptr = ')' :: p ∧ s' = { s with buf_ptr := p } := by
  unfold reParseExpect reParseError at h
  split at h
  · cases h
  · next hpeek =>
    obtain rfl := Except.ok.inj h
    exact ⟨_, eq_cons_of_peek (not_not.mp hpeek) (by decide), rfl⟩

/-- The claim about the parse functions that the induction on the fuel carries. -/
structure Derives (ctx : REContext) (fuel : Nat) : Prop where
  disjunction {dir s code s'} : reParseDisjunction ctx fuel dir s = .ok (code, s') →
    Parses ctx (.disjunction s) dir code s'
  alternatives {dir code s code' s'} : reParseAlternatives ctx fuel dir code s = .ok (code', s') →
    Parses ctx (.alternatives code s) dir code' s'
  alternative {dir code s code' s'} : reParseAlternative ctx fuel dir code s = .ok (code', s') →
    Parses ctx (.alternative code s) dir code' s'
  term {dir s code s'} : reParseTerm ctx fuel dir s = .ok (code, s') →
    Parses ctx (.term s) dir code s'
  group {dir s code s'} : reParseGroup ctx fuel dir s = .ok (code, s') →
    ∃ s₁ p', Parses ctx (.disjunction s) dir code s₁ ∧ s₁.buf_ptr = ')' :: p' ∧
      s' = { s₁ with buf_ptr := p' }
  lookahead {is_neg behind s code s'} :
    reParseLookahead ctx fuel is_neg behind s = .ok (code, s') →
    ∃ code₁ s₁ p', Parses ctx (.disjunction s) behind code₁ s₁ ∧ s₁.buf_ptr = ')' :: p' ∧
      code = lookaroundCode is_neg code₁ ∧ s' = { s₁ with buf_ptr := p' }
  capture {dir s code s'} : reParseCapture ctx fuel dir s = .ok (code, s') →
    ∃ code₁ s₁ p', s.capture_count < CAPTURE_COUNT_MAX ∧
      Parses ctx (.disjunction { s with capture_count := s.capture_count + 1 }) dir code₁ s₁ ∧
      s₁.buf_ptr = ')' :: p' ∧ code = captureCode dir s.capture_count code₁ ∧
      s' = { s₁ with buf_ptr := p' }

theorem bind_eq_ok {ε α β : Type} {x : Except ε α} {f : α → Except ε β} {b : β} :
    (x >>= f) = .ok b ↔ ∃ a, x = .ok a ∧ f a = .ok b := by
  cases x <;> simp [Bind.bind, Except.bind]

theorem derives_zero (ctx : REContext) : Derives ctx 0 := by
  constructor <;> intros <;> simp_all [reParseDisjunction, reParseAlternatives,
    reParseAlternative, reParseTerm, reParseGroup, reParseLookahead, reParseCapture]

variable {ctx : REContext}

section

variable {fuel : Nat} (ih : Derives ctx fuel)

include ih

theorem derives_disjunction {dir s code s'}
    (h : reParseDisjunction ctx (fuel + 1) dir s = .ok (code, s')) :
    Parses ctx (.disjunction s) dir code s' := by
  rw [reParseDisjunction] at h
  obtain ⟨⟨code₁, s₁⟩, hfirst, hrest⟩ := bind_eq_ok.mp h
  exact .disjunction (ih.alternative hfirst) (ih.alternatives hrest)

theorem derives_alternatives {dir code s code' s'}
    (h : reParseAlternatives ctx (fuel + 1) dir code s = .ok (code', s')) :
    Parses ctx (.alternatives code s) dir code' s' := by
  rw [reParseAlternatives] at h
  split at h
  · next hdone =>
    obtain ⟨rfl, rfl⟩ := Prod.mk.inj (Except.ok.inj h)
    exact .alternatives_done hdone
  · next hbar =>
    obtain ⟨⟨code₁, s₁⟩, hnext, hrest⟩ := bind_eq_ok.mp h
    exact .alternatives_next (eq_cons_of_peek (not_not.mp hbar) (by decide))
      (ih.alternative hnext) (ih.alternatives hrest)

theorem derives_alternative {dir code s code' s'}
    (h : reParseAlternative ctx (fuel + 1) dir code s = .ok (code', s')) :
    Parses ctx (.alternative code s) dir code' s' := by
  rw [reParseAlternative] at h
  split at h
  · next hend =>
    obtain ⟨rfl, rfl⟩ := Prod.mk.inj (Except.ok.inj h)
    exact .alternative_done (by simpa [AtEnd, or_assoc] using hend)
  · next hmore =>
    obtain ⟨⟨term, s₁⟩, hterm, hrest⟩ := bind_eq_ok.mp h
    exact .alternative_next (by simpa [AtEnd, and_assoc] using hmore) (ih.term hterm)
      (ih.alternative hrest)

theorem derives_group {dir s code s'} (h : reParseGroup ctx (fuel + 1) dir s = .ok (code, s')) :
    ∃ s₁ p', Parses ctx (.disjunction s) dir code s₁ ∧ s₁.buf_ptr = ')' :: p' ∧
      s' = { s₁ with buf_ptr := p' } := by
  rw [reParseGroup] at h
  obtain ⟨⟨code₁, s₁⟩, hbody, hrest⟩ := bind_eq_ok.mp h
  obtain ⟨s₂, hexpect, hok⟩ := bind_eq_ok.mp hrest
  obtain ⟨p', hclose, rfl⟩ := reParseExpect_eq_ok hexpect
  obtain ⟨rfl, rfl⟩ := Prod.mk.inj (Except.ok.inj hok)
  exact ⟨s₁, p', ih.disjunction hbody, hclose, rfl⟩

theorem derives_lookahead {is_neg behind s code s'}
    (h : reParseLookahead ctx (fuel + 1) is_neg behind s = .ok (code, s')) :
    ∃ code₁ s₁ p', Parses ctx (.disjunction s) behind code₁ s₁ ∧ s₁.buf_ptr = ')' :: p' ∧
      code = lookaroundCode is_neg code₁ ∧ s' = { s₁ with buf_ptr := p' } := by
  rw [reParseLookahead] at h
  obtain ⟨⟨code₁, s₁⟩, hbody, hrest⟩ := bind_eq_ok.mp h
  obtain ⟨s₂, hexpect, hok⟩ := bind_eq_ok.mp hrest
  obtain ⟨p', hclose, rfl⟩ := reParseExpect_eq_ok hexpect
  obtain ⟨rfl, rfl⟩ := Prod.mk.inj (Except.ok.inj hok)
  exact ⟨code₁, s₁, p', ih.disjunction hbody, hclose, rfl, rfl⟩

theorem derives_capture {dir s code s'} (h : reParseCapture ctx (fuel + 1) dir s = .ok (code, s')) :
    ∃ code₁ s₁ p', s.capture_count < CAPTURE_COUNT_MAX ∧
      Parses ctx (.disjunction { s with capture_count := s.capture_count + 1 }) dir code₁ s₁ ∧
      s₁.buf_ptr = ')' :: p' ∧ code = captureCode dir s.capture_count code₁ ∧
      s' = { s₁ with buf_ptr := p' } := by
  rw [reParseCapture] at h
  split at h
  · cases h
  · next hlt =>
    obtain ⟨⟨code₁, s₁⟩, hbody, hrest⟩ := bind_eq_ok.mp h
    obtain ⟨s₂, hexpect, hok⟩ := bind_eq_ok.mp hrest
    obtain ⟨p', hclose, rfl⟩ := reParseExpect_eq_ok hexpect
    obtain ⟨rfl, rfl⟩ := Prod.mk.inj (Except.ok.inj hok)
    exact ⟨code₁, s₁, p', not_le.mp hlt, ih.disjunction hbody, hclose, rfl, rfl⟩

end

/-- An atom followed by its quantifier. -/
theorem parses_of_quantified {dir : Bool} {s s' : REParseState} {emitted : Emitted}
    {code : List REOp}
    (h : (do let (atom, s₁) ← emitted; parseQuantifier ctx atom s.capture_count s₁) =
      .ok (code, s'))
    (hatom : ∀ atom s₁, emitted = .ok (atom, s₁) → Parses ctx (.atom s) dir atom s₁) :
    Parses ctx (.term s) dir code s' := by
  obtain ⟨⟨atom, s₁⟩, hemitted, hquantifier⟩ := bind_eq_ok.mp h
  exact .quantified (hatom atom s₁ hemitted) hquantifier

/-- A look-ahead is quantified outside the unicode mode only. -/
theorem parses_lookahead {fuel : Nat} (ih : Derives ctx fuel) {dir : Bool} {s s' : REParseState}
    {code : List REOp} {text p : Bytes} {is_neg : Bool} (htext : LookaroundText text is_neg false)
    (hp : s.buf_ptr = text ++ p) (h : (if ctx.is_utf16 = true then
        reParseLookahead ctx fuel is_neg false { s with buf_ptr := p }
      else do
        let (atom, s₁) ← reParseLookahead ctx fuel is_neg false { s with buf_ptr := p }
        parseQuantifier ctx atom s.capture_count s₁) = .ok (code, s')) :
    Parses ctx (.term s) dir code s' := by
  split at h
  · next hutf =>
    obtain ⟨code₁, s₁, p', hbody, hclose, rfl, rfl⟩ := ih.lookahead h
    exact .lookaround htext (.inr hutf) hp hbody hclose
  · next hlegacy =>
    refine parses_of_quantified h fun atom s₁ hok => ?_
    obtain ⟨code₁, s₁, p', hbody, hclose, rfl, rfl⟩ := ih.lookahead hok
    exact .lookaheadAtom htext (by simpa using hlegacy) hp hbody hclose

theorem derives_term {fuel : Nat} (ih : Derives ctx fuel) {dir s code s'}
    (h : reParseTerm ctx (fuel + 1) dir s = .ok (code, s')) : Parses ctx (.term s) dir code s' := by
  rw [reParseTerm] at h
  dsimp only at h
  split at h
  case h_1 p hp =>
    obtain ⟨rfl, rfl⟩ := Prod.mk.inj (Except.ok.inj h)
    exact .assertion .line_start hp
  case h_2 p hp =>
    obtain ⟨rfl, rfl⟩ := Prod.mk.inj (Except.ok.inj h)
    exact .assertion .line_end hp
  case h_3 p hp =>
    refine parses_of_quantified h fun atom s₁ hok => ?_
    obtain ⟨rfl, rfl⟩ := Prod.mk.inj (Except.ok.inj hok)
    exact .leaf (.dot p hp)
  case h_4 p hp =>
    exact parses_of_quantified h fun atom s₁ hok => .leaf (.brace p _ _ hp hok)
  case h_5 => cases h
  case h_6 => cases h
  case h_7 => cases h
  case h_8 p hp =>
    refine parses_of_quantified h fun atom s₁ hok => ?_
    obtain ⟨s₂, p', hbody, hclose, rfl⟩ := ih.group hok
    exact .group hp hbody hclose
  case h_9 p hp =>
    exact parses_lookahead ih .lookahead hp h
  case h_10 p hp =>
    exact parses_lookahead ih .negative_lookahead hp h
  case h_11 p hp =>
    obtain ⟨code₁, s₁, p', hbody, hclose, rfl, rfl⟩ := ih.lookahead h
    exact .lookaround .lookbehind (.inl rfl) hp hbody hclose
  case h_12 p hp =>
    obtain ⟨code₁, s₁, p', hbody, hclose, rfl, rfl⟩ := ih.lookahead h
    exact .lookaround .negative_lookbehind (.inl rfl) hp hbody hclose
  case h_13 p hequal hbang hp =>
    have hne : ∀ c : Char, c ≠ '\x00' → (∀ p₁, p = c :: p₁ → False) → peek p ≠ c :=
      fun c hc hno hpeek => hno _ (eq_cons_of_peek hpeek hc)
    split at h
    · cases h
    · next name p' hname =>
      split at h
      · cases h
      · next hnew =>
        refine parses_of_quantified h fun atom s₁ hok => ?_
        obtain ⟨code₁, s₂, p₂, hcount, hbody, hclose, rfl, rfl⟩ := ih.capture hok
        refine .capture (.named p p' name hp (hne _ (by decide) hequal) (hne _ (by decide) hbang)
          hname (by simpa using hnew)) hcount hbody hclose
  case h_14 => cases h
  case h_15 p _ _ _ _ _ _ hno hp =>
    refine parses_of_quantified h fun atom s₁ hok => ?_
    obtain ⟨code₁, s₂, p₂, hcount, hbody, hclose, rfl, rfl⟩ := ih.capture hok
    refine .capture (.unnamed p hp fun hpeek => ?_) hcount hbody hclose
    exact hno _ (eq_cons_of_peek hpeek (by decide))
  case h_16 p hp =>
    obtain ⟨rfl, rfl⟩ := Prod.mk.inj (Except.ok.inj h)
    exact .assertion .word_boundary hp
  case h_17 p hp =>
    obtain ⟨rfl, rfl⟩ := Prod.mk.inj (Except.ok.inj h)
    exact .assertion .not_word_boundary hp
  case h_18 p hp =>
    exact parses_of_quantified h fun atom s₁ hok => .leaf (.namedReference p _ _ hp hok)
  case h_19 p hp =>
    refine parses_of_quantified h fun atom s₁ hok => ?_
    obtain ⟨⟨c, p'⟩, hzero, hchar⟩ := bind_eq_ok.mp hok
    obtain ⟨rfl, rfl⟩ := Prod.mk.inj (Except.ok.inj hchar)
    exact .leaf (.zero p p' c hp hzero)
  case h_20 p _ _ _ _ hp =>
    split at h
    · next hdigit =>
      simp only [Bool.and_eq_true, decide_eq_true_eq] at hdigit
      exact parses_of_quantified h fun atom s₁ hok =>
        .leaf (.decimal p _ _ hp hdigit.1 hdigit.2 hok)
    · exact parses_of_quantified h fun atom s₁ hok =>
        .leaf (.classAtom _ p _ _ hp (by decide) (by decide) hok)
  case h_21 p hp =>
    refine parses_of_quantified h fun atom s₁ hok => ?_
    obtain ⟨⟨op, p'⟩, hclass, hchar⟩ := bind_eq_ok.mp hok
    obtain ⟨rfl, rfl⟩ := Prod.mk.inj (Except.ok.inj hchar)
    exact .leaf (.charClass p p' op hp hclass)
  case h_22 p hp =>
    split at h
    · cases h
    · exact parses_of_quantified h fun atom s₁ hok =>
        .leaf (.classAtom _ p _ _ hp (by decide) (by decide) hok)
  case h_23 p hp =>
    split at h
    · cases h
    · exact parses_of_quantified h fun atom s₁ hok =>
        .leaf (.classAtom _ p _ _ hp (by decide) (by decide) hok)
  case h_24 hopen _ _ _ _ _ hclass _ _ =>
    refine parses_of_quantified h fun atom s₁ hok => ?_
    cases hp : s.buf_ptr with
    | nil =>
        rw [parseClassAtomTerm, hp] at hok
        cases hok
    | cons c p =>
        refine .leaf (.classAtom c p _ _ hp ?_ ?_ hok)
        · rintro rfl
          exact hopen p hp
        · rintro rfl
          exact hclass p hp

theorem derives (ctx : REContext) (fuel : Nat) : Derives ctx fuel := by
  induction fuel with
  | zero => exact derives_zero ctx
  | succ fuel ih =>
      exact ⟨derives_disjunction ih, derives_alternatives ih, derives_alternative ih,
        derives_term ih, derives_group ih, derives_lookahead ih, derives_capture ih⟩

end PrimJs.Regexp
