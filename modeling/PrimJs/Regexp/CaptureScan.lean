import PrimJs.Regexp.Derivation

/-! What the scan for captures meets in a text, and the parts of a text that it passes over. -/

namespace PrimJs.Regexp

theorem skipClass_length_le (p : Bytes) : (skipClass p).length ≤ p.length := by
  induction p using skipClass.induct with
  | case1 => simp [skipClass]
  | case2 p => simp [skipClass]
  | case3 => simp [skipClass]
  | case4 c p ih =>
      rw [skipClass]
      simp only [List.length_cons]
      omega
  | case5 c p _ _ _ ih =>
      rw [skipClass] <;> simp_all
      omega

/-- The name of the capture opened by a parenthesis before `p`, `none` for another group; a
capture without name has the empty one. -/
def captureName (u : UnicodeData) (is_utf16 : Bool) (p : Bytes) : Option Bytes :=
  if peek p = '?' then
    if peekAt p 1 = '<' ∧ peekAt p 2 ≠ '=' ∧ peekAt p 2 ≠ '!' then
      some (((reParseGroupName u is_utf16 (p.drop 2)).map Prod.fst).getD [])
    else none
  else some []

/-- The names of the captures that open in a text outside of escapes and classes. -/
def captureNames (u : UnicodeData) (is_utf16 : Bool) : Bytes → List Bytes
  | [] => []
  | '(' :: p => (captureName u is_utf16 p).toList ++ captureNames u is_utf16 p
  | '\\' :: p => captureNames u is_utf16 p.tail
  | '[' :: p => captureNames u is_utf16 (skipClass p).tail
  | _ :: p => captureNames u is_utf16 p
  termination_by p => p.length
  decreasing_by
    · simp
    · simp only [List.length_tail, List.length_cons]
      omega
    · have hle := skipClass_length_le p
      simp only [List.length_tail, List.length_cons]
      omega
    · simp

/-- A character that the scan passes over, inside a class and outside. -/
def Ordinary (c : Char) : Prop := c ≠ '(' ∧ c ≠ '[' ∧ c ≠ '\\' ∧ c ≠ ']'

instance (c : Char) : Decidable (Ordinary c) := by unfold Ordinary; infer_instance

/-- From `p` to `p'` there are only ordinary characters and escaped ones. -/
inductive Inert : Bytes → Bytes → Prop where
  | refl (p : Bytes) : Inert p p
  | ordinary {c p p'} : Ordinary c → Inert p p' → Inert (c :: p) p'
  | escape {c p p'} : Inert p p' → Inert ('\\' :: c :: p) p'

variable {p p' : Bytes} {c : Nat}

theorem Inert.trans {p'' : Bytes} (h : Inert p p') (h' : Inert p' p'') : Inert p p'' := by
  induction h with
  | refl => exact h'
  | ordinary hc _ ih => exact .ordinary hc (ih h')
  | escape _ ih => exact .escape (ih h')

theorem Inert.length_le (h : Inert p p') : p'.length ≤ p.length := by
  induction h with
  | refl => exact le_refl _
  | ordinary _ _ ih => simp only [List.length_cons]; omega
  | escape _ ih => simp only [List.length_cons]; omega

variable (u : UnicodeData) (is_utf16 : Bool)

theorem captureNames_ordinary {c : Char} (p : Bytes) (hopen : c ≠ '(') (hclass : c ≠ '[')
    (hescape : c ≠ '\\') : captureNames u is_utf16 (c :: p) = captureNames u is_utf16 p := by
  rw [captureNames] <;> simp_all

theorem captureNames_escape (c : Char) (p : Bytes) :
    captureNames u is_utf16 ('\\' :: c :: p) = captureNames u is_utf16 p := by
  rw [captureNames, List.tail_cons]

theorem skipClass_of_ne {c : Char} (p : Bytes) (hclose : c ≠ ']') (hescape : c ≠ '\\') :
    skipClass (c :: p) = skipClass p := by
  rw [skipClass] <;> simp_all

theorem Inert.captureNames_eq (h : Inert p p') :
    captureNames u is_utf16 p = captureNames u is_utf16 p' := by
  induction h with
  | refl => rfl
  | ordinary hc _ ih => rw [captureNames_ordinary u is_utf16 _ hc.1 hc.2.1 hc.2.2.1, ih]
  | escape _ ih => rw [captureNames_escape, ih]

theorem Inert.skipClass_eq (h : Inert p p') : skipClass p = skipClass p' := by
  induction h with
  | refl => rfl
  | ordinary hc _ ih => rw [skipClass_of_ne _ hc.2.2.2 hc.2.2.1, ih]
  | escape _ ih => rw [skipClass, ih]

/-! ### Digits, escapes and names are inert -/

theorem ordinary_of_isDigit {c : Char} (h : isDigit c = true) : Ordinary c := by
  refine ⟨?_, ?_, ?_, ?_⟩ <;> rintro rfl <;> simp [isDigit] at h

theorem ordinary_of_fromHex {c : Char} {d : Nat} (h : fromHex c = some d) : Ordinary c := by
  refine ⟨?_, ?_, ?_, ?_⟩ <;> rintro rfl <;> revert h <;> simp [fromHex]

theorem ne_zero_of_fromHex {c : Char} {d : Nat} (h : fromHex c = some d) : c ≠ '\x00' := by
  rintro rfl
  simp [fromHex] at h

theorem ordinary_of_ge {c : Char} (h : 128 ≤ c.toNat) : Ordinary c := by
  refine ⟨?_, ?_, ?_, ?_⟩ <;> rintro rfl <;> revert h <;> decide

theorem peek_eq_some {c : Char} (hpeek : peek p = c) (hne : c ≠ '\x00') :
    ∃ q, p = c :: q := ⟨p.tail, eq_cons_of_peek hpeek hne⟩

/-- A step of a reader that looks at one character. -/
theorem Inert.of_peek (hne : peek p ≠ '\x00') (hc : Ordinary (peek p)) (h : Inert p.tail p') :
    Inert p p' := by
  rw [eq_cons_of_peek rfl hne]
  exact .ordinary hc h

theorem inert_parseDigitsLoop {allow : Bool} {v v' : Nat}
    (h : parseDigitsLoop allow v p = some (v', p')) : Inert p p' := by
  induction p generalizing v with
  | nil =>
      obtain ⟨rfl, rfl⟩ := Prod.mk.inj (Option.some.inj h)
      exact .refl _
  | cons c p ih =>
      rw [parseDigitsLoop] at h
      split at h
      · obtain ⟨rfl, rfl⟩ := Prod.mk.inj (Option.some.inj h)
        exact .refl _
      · next hdigit =>
        have hc := ordinary_of_isDigit (by simpa using hdigit)
        dsimp only at h
        split at h
        · split at h
          · exact .ordinary hc (ih h)
          · cases h
        · exact .ordinary hc (ih h)

theorem inert_hexDigits {n c' : Nat} (h : hexDigits n c p = some (c', p')) : Inert p p' := by
  induction n generalizing c p with
  | zero =>
      obtain ⟨rfl, rfl⟩ := Prod.mk.inj (Option.some.inj h)
      exact .refl _
  | succ n ih =>
      rw [hexDigits] at h
      obtain ⟨digit, hdigit, hrest⟩ := Option.bind_eq_some_iff.mp h
      exact .of_peek (ne_zero_of_fromHex hdigit) (ordinary_of_fromHex hdigit) (ih hrest)

theorem inert_hexBraces {c' : Nat} (h : hexBraces c p = some (c', p')) : Inert p p' := by
  induction p generalizing c with
  | nil => cases h
  | cons head p ih =>
      rw [hexBraces] at h
      obtain ⟨digit, hdigit, hrest⟩ := Option.bind_eq_some_iff.mp h
      dsimp only at hrest
      split at hrest
      · cases hrest
      · split at hrest
        · next hclose =>
          obtain ⟨rfl, rfl⟩ := Prod.mk.inj (Option.some.inj hrest)
          exact .ordinary (ordinary_of_fromHex hdigit)
            (.of_peek (by rw [hclose]; decide) (by rw [hclose]; decide) (.refl _))
        · exact .ordinary (ordinary_of_fromHex hdigit) (ih hrest)

theorem inert_escapedLowSurrogate (h : escapedLowSurrogate p = some (c, p')) : Inert p p' := by
  unfold escapedLowSurrogate at h
  split at h
  · next hescape =>
    split at h
    · next c1 p₁ hdigits =>
      split at h
      · obtain ⟨rfl, rfl⟩ := Prod.mk.inj (Option.some.inj h)
        match p, hescape, hdigits with
        | [], hescape, _ => simp [peekAt] at hescape
        | [_], hescape, _ => simp [peekAt] at hescape
        | a :: b :: q, hescape, hdigits =>
            obtain ⟨rfl, rfl⟩ : a = '\\' ∧ b = 'u' := by simpa [peekAt] using hescape
            exact .escape (inert_hexDigits hdigits)
      · cases h
    · cases h
  · cases h

theorem inert_parseHexEscape {e : Char} {allow : Nat} (h : parseHexEscape e p allow = .char c p') :
    Inert p p' := by
  unfold parseHexEscape at h
  split at h
  · next hbrace =>
    simp only [Bool.and_eq_true, decide_eq_true_eq] at hbrace
    split at h
    · next c₁ p₁ hbraces =>
      obtain ⟨rfl, rfl⟩ := Escape.char.inj h
      exact .of_peek (by rw [hbrace.1]; decide) (by rw [hbrace.1]; decide) (inert_hexBraces hbraces)
    · cases h
  · split at h
    · cases h
    · next c₁ p₁ hdigits =>
      split at h
      · split at h
        · next c₂ p₂ hlow =>
          obtain ⟨rfl, rfl⟩ := Escape.char.inj h
          exact (inert_hexDigits hdigits).trans (inert_escapedLowSurrogate hlow)
        · obtain ⟨rfl, rfl⟩ := Escape.char.inj h
          exact inert_hexDigits hdigits
      · obtain ⟨rfl, rfl⟩ := Escape.char.inj h
        exact inert_hexDigits hdigits

theorem isDigit_of_isOctal {c : Char} (h : isOctal c = true) : isDigit c = true := by
  simp only [isOctal, isDigit, Bool.and_eq_true, decide_eq_true_eq] at h ⊢
  exact ⟨h.1, Char.le_trans h.2 (by decide)⟩

theorem Inert.of_isDigit (hdigit : isDigit (peek p) = true) (h : Inert p.tail p') : Inert p p' := by
  refine .of_peek ?_ (ordinary_of_isDigit hdigit) h
  intro hzero
  rw [hzero] at hdigit
  simp [isDigit] at hdigit

theorem Inert.of_isOctal (hdigit : isOctal (peek p) = true) (h : Inert p.tail p') : Inert p p' :=
  .of_isDigit (isDigit_of_isOctal hdigit) h

theorem inert_parseOctalEscape {e : Char} {allow : Nat}
    (h : parseOctalEscape e p allow = .char c p') : Inert p p' := by
  unfold parseOctalEscape at h
  dsimp only at h
  split at h
  · split at h
    · cases h
    · obtain ⟨rfl, rfl⟩ := Escape.char.inj h
      exact .refl _
  · split at h
    · obtain ⟨rfl, rfl⟩ := Escape.char.inj h
      exact .refl _
    · next hfirst =>
      have hfirst : isOctal (peek p) = true := by simpa using hfirst
      split at h
      · obtain ⟨rfl, rfl⟩ := Escape.char.inj h
        exact .of_isOctal hfirst (.refl _)
      · next hsecond =>
        obtain ⟨rfl, rfl⟩ := Escape.char.inj h
        simp only [Bool.or_eq_true, not_or, Bool.not_eq_true] at hsecond
        exact .of_isOctal hfirst (.of_isOctal (by simpa using hsecond.2) (.refl _))

/-- An escape is one character after the backslash, then inert text. -/
theorem inert_lreParseEscape {allow : Nat} (h : lreParseEscape p allow = .char c p') :
    p ≠ [] ∧ Inert p.tail p' := by
  have hne : p ≠ [] := by
    rintro rfl
    cases h
  refine ⟨hne, ?_⟩
  unfold lreParseEscape at h
  dsimp only at h
  split at h
  case h_7 => exact inert_parseHexEscape h
  case h_8 => exact inert_parseHexEscape h
  case h_9 =>
    split at h
    · exact inert_parseOctalEscape h
    · cases h
  all_goals
    obtain ⟨rfl, rfl⟩ := Escape.char.inj h
    exact .refl _

theorem inert_utf8Continue {l c' : Nat} (h : utf8Continue l c p = some (c', p')) : Inert p p' := by
  induction l generalizing c p with
  | zero =>
      obtain ⟨rfl, rfl⟩ := Prod.mk.inj (Option.some.inj h)
      exact .refl _
  | succ l ih =>
      rw [utf8Continue] at h
      split at h
      · cases h
      · next hbyte =>
        simp only [Bool.or_eq_true, decide_eq_true_eq, not_or, not_lt] at hbyte
        refine .of_peek ?_ (ordinary_of_ge hbyte.1) (ih h)
        intro hzero
        rw [hzero] at hbyte
        exact absurd hbyte.1 (by decide)

/-- A character is its first byte, then inert text. -/
theorem inert_unicodeFromUtf8 (h : unicodeFromUtf8 p = some (c, p')) : Inert p.tail p' := by
  unfold unicodeFromUtf8 at h
  dsimp only at h
  split at h
  · obtain ⟨rfl, rfl⟩ := Prod.mk.inj (Option.some.inj h)
    exact .refl _
  · obtain ⟨l, hl, hrest⟩ := Option.bind_eq_some_iff.mp h
    obtain ⟨⟨v, p₁⟩, hcontinue, hend⟩ := Option.bind_eq_some_iff.mp hrest
    dsimp only at hend
    split at hend
    · cases hend
    · obtain ⟨rfl, rfl⟩ := Prod.mk.inj (Option.some.inj hend)
      exact inert_utf8Continue hcontinue

theorem ordinary_of_ident {c : Char}
    (h : lreJsIsIdentFirst u c.toNat = true ∨ lreJsIsIdentNext u c.toNat = true) :
    Ordinary c ∧ c ≠ '\x00' := by
  refine ⟨⟨?_, ?_, ?_, ?_⟩, ?_⟩ <;> rintro rfl <;>
    simp [lreJsIsIdentFirst, lreJsIsIdentNext, lreIdTableAscii, lre_id_start_table_ascii,
      lre_id_continue_table_ascii] at h

theorem inert_groupNameChar (hident : lreJsIsIdentFirst u c = true ∨ lreJsIsIdentNext u c = true)
    (h : groupNameChar is_utf16 p = some (c, p')) : Inert p p' := by
  unfold groupNameChar at h
  split at h
  · next hescape =>
    split at h
    · cases h
    · next hu =>
      split at h
      · next c₁ p₁ hparse =>
        obtain ⟨rfl, rfl⟩ := Prod.mk.inj (Option.some.inj h)
        obtain ⟨hne, hinert⟩ := inert_lreParseEscape hparse
        obtain ⟨q, rfl⟩ := peek_eq_some hescape (by decide)
        obtain ⟨head, q, rfl⟩ := List.exists_cons_of_ne_nil hne
        exact .escape hinert
      · cases h
  · split at h
    · next hbyte =>
      exact .of_peek (by rintro hzero; rw [hzero] at hbyte; revert hbyte; decide)
        (ordinary_of_ge hbyte) (inert_unicodeFromUtf8 h)
    · obtain ⟨rfl, rfl⟩ := Prod.mk.inj (Option.some.inj h)
      obtain ⟨hordinary, hne⟩ := ordinary_of_ident u hident
      exact .of_peek hne hordinary (.refl _)

theorem inert_groupNameLoop {fuel : Nat} {name name' : Bytes}
    (h : groupNameLoop u is_utf16 fuel name p = some (name', p')) : Inert p p' ∧ peek p' = '>' := by
  induction fuel generalizing name p with
  | zero => cases h
  | succ fuel ih =>
      rw [groupNameLoop] at h
      split at h
      · next hclose =>
        obtain ⟨rfl, rfl⟩ := Prod.mk.inj (Option.some.inj h)
        exact ⟨.refl _, hclose⟩
      · obtain ⟨⟨c, p₁⟩, hchar, hrest⟩ := Option.bind_eq_some_iff.mp h
        dsimp only at hrest
        split at hrest
        · cases hrest
        · by_cases hident :
              (if name = [] then lreJsIsIdentFirst u c else lreJsIsIdentNext u c) = true
          · rw [if_neg (by simp [hident])] at hrest
            split at hrest
            · cases hrest
            · obtain ⟨hinert, hclose⟩ := ih hrest
              refine ⟨(inert_groupNameChar u is_utf16 ?_ hchar).trans hinert, hclose⟩
              split at hident
              · exact .inl hident
              · exact .inr hident
          · rw [if_pos (by simp [hident])] at hrest
            cases hrest

/-- A group name is inert text up to its `>`. -/
theorem inert_reParseGroupName {name : Bytes}
    (h : reParseGroupName u is_utf16 p = some (name, p')) : Inert p ('>' :: p') ∧ name ≠ [] := by
  obtain ⟨⟨name₁, p₁⟩, hloop, hrest⟩ := Option.bind_eq_some_iff.mp h
  dsimp only at hrest
  split at hrest
  · cases hrest
  · next hname =>
    obtain ⟨rfl, rfl⟩ := Prod.mk.inj (Option.some.inj hrest)
    obtain ⟨hinert, hclose⟩ := inert_groupNameLoop u is_utf16 hloop
    rw [eq_cons_of_peek hclose (by decide)] at hinert
    exact ⟨hinert, hname⟩

end PrimJs.Regexp
