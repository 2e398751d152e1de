import PrimJs.Regexp.CaptureScan

/-! The scan for captures and the parser stay in step. -/

namespace PrimJs.Regexp

/-- From `p` to `p'` a class atom has been read: the scan gives the same from both, outside of a
class unless the atom starts with a parenthesis or a bracket, inside unless it closes the class. -/
structure AtomScan (u : UnicodeData) (is_utf16 : Bool) (p p' : Bytes) : Prop where
  shorter : p'.length < p.length
  names : peek p ≠ '(' → peek p ≠ '[' → captureNames u is_utf16 p = captureNames u is_utf16 p'
  inClass : peek p ≠ ']' → skipClass p = skipClass p'

section

variable {u : UnicodeData} {is_utf16 : Bool}

variable {p p' : Bytes} {ctx : REContext}

theorem AtomScan.escape {c : Char} (h : Inert p p') :
    AtomScan u is_utf16 ('\\' :: c :: p) p' where
  shorter := by
    have hle := h.length_le
    simp only [List.length_cons]
    omega
  names _ _ := (Inert.escape h).captureNames_eq u is_utf16
  inClass _ := (Inert.escape h).skipClass_eq

theorem AtomScan.char {c : Char} (hc : c ≠ '\\') (h : Inert p p') :
    AtomScan u is_utf16 (c :: p) p' where
  shorter := by
    have hle := h.length_le
    simp only [List.length_cons]
    omega
  names hopen hclass := by
    rw [captureNames_ordinary u is_utf16 (c := c) p hopen hclass hc, h.captureNames_eq]
  inClass hclose := by rw [skipClass_of_ne (c := c) p hclose hc, h.skipClass_eq]

/-- A backslash that is not followed by a control letter is read alone. -/
theorem AtomScan.backslash (p : Bytes) : AtomScan u is_utf16 ('\\' :: 'c' :: p) ('c' :: p) where
  shorter := by simp
  names _ _ := by
    rw [captureNames_escape, captureNames_ordinary] <;> decide
  inClass _ := by
    rw [skipClass, skipClass_of_ne] <;> decide

theorem ordinary_of_isUnicodeChar {c : Char} (h : isUnicodeChar c = true) : Ordinary c := by
  refine ⟨?_, ?_, ?_, ?_⟩ <;> rintro rfl <;> simp [isUnicodeChar] at h

theorem inert_dropWhile {test : Char → Bool} (h : ∀ c, test c = true → Ordinary c) :
    Inert p (p.dropWhile test) := by
  induction p with
  | nil => exact .refl _
  | cons c p ih =>
      rw [List.dropWhile_cons]
      split
      · next htest => exact .ordinary (h c htest) ih
      · exact .refl _

theorem inert_unicodeWord {word : Bytes} (h : unicodeWord p = some (word, p')) : Inert p p' := by
  unfold unicodeWord at h
  dsimp only at h
  split at h
  · cases h
  · obtain ⟨rfl, rfl⟩ := Prod.mk.inj (Option.some.inj h)
    exact inert_dropWhile fun c => ordinary_of_isUnicodeChar

theorem inert_parseUnicodeProperty {cr : List Nat} {is_inv : Bool}
    (h : parseUnicodeProperty u p is_inv = .ok (cr, p')) : Inert p p' := by
  unfold parseUnicodeProperty at h
  split at h
  · cases h
  · next hopen =>
    refine .of_peek (by rw [not_not.mp hopen]; decide) (by rw [not_not.mp hopen]; decide) ?_
    split at h
    · cases h
    · next name p₁ hname =>
      refine (inert_unicodeWord hname).trans ?_
      split at h
      · cases h
      · next value p₂ hvalue =>
        have hinert : Inert p₁ p₂ := by
          split at hvalue
          · next hequal =>
            exact .of_peek (by rw [hequal]; decide) (by rw [hequal]; decide)
              (inert_unicodeWord hvalue)
          · obtain ⟨rfl, rfl⟩ := Prod.mk.inj (Option.some.inj hvalue)
            exact .refl _
        refine hinert.trans ?_
        split at h
        · cases h
        · next hclose =>
          refine .of_peek (by rw [not_not.mp hclose]; decide) (by rw [not_not.mp hclose]; decide) ?_
          split at h
          · cases h
          · obtain ⟨rfl, rfl⟩ := Prod.mk.inj (Except.ok.inj h)
            exact .refl _

variable {atom : ClassAtom}

theorem inert_normalChar (h : normalChar ctx p = .ok (atom, p')) : Inert p.tail p' := by
  unfold normalChar at h
  split at h
  · split at h
    · split at h <;> cases h
    · next c p₁ hchar =>
      split at h
      · cases h
      · obtain ⟨rfl, rfl⟩ := Prod.mk.inj (Except.ok.inj h)
        exact inert_unicodeFromUtf8 hchar
  · obtain ⟨rfl, rfl⟩ := Prod.mk.inj (Except.ok.inj h)
    exact .refl _

theorem inert_classEscape (h : classEscape ctx p = .ok (atom, p')) : Inert p.tail p' := by
  unfold classEscape at h
  split at h
  · next c p₁ hescape =>
    obtain ⟨rfl, rfl⟩ := Prod.mk.inj (Except.ok.inj h)
    exact (inert_lreParseEscape hescape).2
  · split at h
    · cases h
    · exact inert_normalChar h
  · split at h
    · exact inert_normalChar h
    · split at h
      · cases h
      · exact inert_normalChar h

theorem scan_controlEscape {inclass : Bool} (h : controlEscape ctx p inclass = .ok (atom, p')) :
    AtomScan u is_utf16 ('\\' :: 'c' :: p) p' := by
  unfold controlEscape at h
  dsimp only at h
  split at h
  · next hcontrol =>
    obtain ⟨rfl, rfl⟩ := Prod.mk.inj (Except.ok.inj h)
    have hordinary : Ordinary (peek p) ∧ peek p ≠ '\x00' := by
      refine ⟨⟨?_, ?_, ?_, ?_⟩, ?_⟩ <;> intro hpeek <;> rw [hpeek] at hcontrol <;>
        simp [isDigit] at hcontrol
    exact .escape (.of_peek hordinary.2 hordinary.1 (.refl _))
  · split at h
    · cases h
    · obtain ⟨rfl, rfl⟩ := Prod.mk.inj (Except.ok.inj h)
      exact .backslash p

theorem scan_getClassAtom {inclass : Bool} (h : getClassAtom ctx p inclass = .ok (atom, p')) :
    AtomScan u is_utf16 p p' := by
  unfold getClassAtom at h
  split at h
  case h_1 => cases h
  case h_2 => cases h
  case h_9 => exact scan_controlEscape h
  case h_10 p =>
    split at h
    · obtain ⟨⟨cr, p₁⟩, hproperty, hok⟩ := bind_eq_ok.mp h
      obtain ⟨rfl, rfl⟩ := Prod.mk.inj (Except.ok.inj hok)
      exact .escape (inert_parseUnicodeProperty hproperty)
    · exact .escape (inert_classEscape h)
  case h_11 p =>
    split at h
    · obtain ⟨⟨cr, p₁⟩, hproperty, hok⟩ := bind_eq_ok.mp h
      obtain ⟨rfl, rfl⟩ := Prod.mk.inj (Except.ok.inj hok)
      exact .escape (inert_parseUnicodeProperty hproperty)
    · exact .escape (inert_classEscape h)
  case h_12 p hne _ _ _ _ _ _ _ _ _ =>
    obtain ⟨c, q, rfl⟩ := List.exists_cons_of_ne_nil fun hnil => hne hnil
    exact .escape (inert_classEscape h)
  case h_13 hnil _ _ _ _ _ _ _ _ _ _ hescape =>
    cases p with
    | nil => exact absurd rfl hnil
    | cons c q => exact .char (fun hc => hescape q (by rw [hc])) (inert_normalChar h)
  all_goals
    obtain ⟨rfl, rfl⟩ := Prod.mk.inj (Except.ok.inj h)
    exact .escape (.refl _)

/-- One turn of the class loop passes over the text it reads. -/
theorem scan_parseClassItem {ctx : REContext} {cr cr' : List Nat} {p p' : Bytes}
    (hopen : peek p ≠ ']') (h : parseClassItem ctx cr p = .ok (cr', p')) :
    p'.length < p.length ∧ skipClass p = skipClass p' := by
  obtain ⟨⟨c1, p₁⟩, hfirst, hrest⟩ := bind_eq_ok.mp h
  have hscan : AtomScan ctx.unicode ctx.is_utf16 p p₁ := scan_getClassAtom hfirst
  have hdone : p' = p₁ → p'.length < p.length ∧ skipClass p = skipClass p' := by
    rintro rfl
    exact ⟨hscan.shorter, hscan.inClass hopen⟩
  dsimp only at hrest
  split at hrest
  · next hdash =>
    simp only [Bool.and_eq_true, decide_eq_true_eq] at hdash
    split at hrest
    · split at hrest
      · cases hrest
      · obtain ⟨rfl, rfl⟩ := Prod.mk.inj (Except.ok.inj hrest)
        exact hdone rfl
    · obtain ⟨⟨c2, p₀⟩, hsecond, hlast⟩ := bind_eq_ok.mp hrest
      dsimp only at hlast
      split at hlast
      · split at hlast
        · cases hlast
        · obtain ⟨rfl, rfl⟩ := Prod.mk.inj (Except.ok.inj hlast)
          exact hdone rfl
      · split at hlast
        · cases hlast
        · obtain ⟨rfl, rfl⟩ := Prod.mk.inj (Except.ok.inj hlast)
          have hscan₀ : AtomScan ctx.unicode ctx.is_utf16 p₁.tail p₀ := scan_getClassAtom hsecond
          obtain ⟨q, rfl⟩ := peek_eq_some hdash.1 (by decide)
          have hnext : peek q ≠ ']' := by
            cases q with
            | nil => decide
            | cons c q => exact hdash.2
          have hshort := hscan.shorter
          have hshort₀ := hscan₀.shorter
          simp only [List.length_cons, List.tail_cons] at hshort hshort₀
          refine ⟨by omega, ?_⟩
          rw [hscan.inClass hopen, skipClass_of_ne q (by decide) (by decide)]
          exact hscan₀.inClass hnext
  · obtain ⟨rfl, rfl⟩ := Prod.mk.inj (Except.ok.inj hrest)
    exact hdone rfl

theorem scan_parseClassLoop {fuel : Nat} {cr cr' : List Nat}
    (h : parseClassLoop ctx fuel cr p = .ok (cr', p')) :
    p'.length ≤ p.length ∧ skipClass p = p' ∧ peek p' = ']' := by
  induction fuel generalizing cr p with
  | zero => cases h
  | succ fuel ih =>
      rw [parseClassLoop] at h
      split at h
      · next hclose =>
        obtain ⟨rfl, rfl⟩ := Prod.mk.inj (Except.ok.inj h)
        obtain ⟨q, rfl⟩ := peek_eq_some hclose (by decide)
        exact ⟨le_refl _, by rw [skipClass], hclose⟩
      · next hopen =>
        obtain ⟨⟨cr₁, p₁⟩, hitem, hrest⟩ := bind_eq_ok.mp h
        obtain ⟨hshort, hskip⟩ := scan_parseClassItem hopen hitem
        obtain ⟨hle, hend, hclose⟩ := ih hrest
        exact ⟨hle.trans hshort.le, hskip.trans hend, hclose⟩

/-- A class is passed over as a whole. -/
theorem scan_reParseCharClass {op : REOp} (h : reParseCharClass ctx p = .ok (op, p')) :
    p'.length ≤ p.length ∧ captureNames u is_utf16 ('[' :: p) = captureNames u is_utf16 p' := by
  obtain ⟨⟨cr, p₁⟩, hloop, hrest⟩ := bind_eq_ok.mp h
  obtain ⟨op₁, hemit, hok⟩ := bind_eq_ok.mp hrest
  obtain ⟨rfl, rfl⟩ := Prod.mk.inj (Except.ok.inj hok)
  obtain ⟨hle, hskip, hclose⟩ := scan_parseClassLoop hloop
  obtain ⟨q, rfl⟩ := peek_eq_some hclose (by decide)
  rw [captureNames]
  split at hskip
  · next hinvert =>
    simp only [hinvert, if_true] at hle
    obtain ⟨r, rfl⟩ := peek_eq_some (by simpa using hinvert) (by decide)
    rw [skipClass_of_ne r (by decide) (by decide)]
    simp only [List.tail_cons] at hskip hle ⊢
    exact ⟨by simp only [List.length_cons] at hle ⊢; omega, by rw [hskip, List.tail_cons]⟩
  · next hinvert =>
    simp only [hinvert, if_false] at hle
    exact ⟨by simp only [List.length_cons, List.tail_cons] at hle ⊢; omega, by rw [hskip]⟩

end

def totalCaptures (ctx : REContext) : Nat :=
  (reParseCaptures ctx.unicode ctx.is_utf16 ctx.buf_start).1

def CountCached (ctx : REContext) (s : REParseState) : Prop :=
  ∀ count, s.total_capture_count = some count → count = totalCaptures ctx

/-- From `s` to `s'` no capture has been opened. -/
structure LeafScan (ctx : REContext) (s s' : REParseState) : Prop where
  shorter : s'.buf_ptr.length < s.buf_ptr.length
  names : captureNames ctx.unicode ctx.is_utf16 s.buf_ptr =
    captureNames ctx.unicode ctx.is_utf16 s'.buf_ptr
  group_names : s'.group_names = s.group_names
  capture_count : s'.capture_count = s.capture_count
  cached : CountCached ctx s → CountCached ctx s'

section

variable {ctx : REContext} {dir : Bool} {s s' : REParseState}

variable {p : Bytes} {code : List REOp}

/-- Reading text and leaving the rest of the state alone. -/
theorem LeafScan.of_ptr (hshort : p.length < s.buf_ptr.length)
    (hnames : captureNames ctx.unicode ctx.is_utf16 s.buf_ptr =
      captureNames ctx.unicode ctx.is_utf16 p) : LeafScan ctx s { s with buf_ptr := p } :=
  ⟨hshort, hnames, rfl, rfl, id⟩

variable {q : Bytes}

theorem LeafScan.of_inert {c : Char} (hp : s.buf_ptr = '\\' :: c :: q) (h : Inert q p) :
    LeafScan ctx s { s with buf_ptr := p } := by
  have hscan : AtomScan ctx.unicode ctx.is_utf16 ('\\' :: c :: q) p := .escape h
  refine .of_ptr ?_ ?_
  · rw [hp]
    exact hscan.shorter
  · rw [hp]
    exact hscan.names (by simp [peek]) (by simp [peek])

theorem reCountCaptures_spec (ctx : REContext) (s : REParseState) (hcached : CountCached ctx s) :
    (reCountCaptures ctx s).1 = totalCaptures ctx ∧ CountCached ctx (reCountCaptures ctx s).2 := by
  unfold reCountCaptures
  split
  · next count hcount => exact ⟨hcached count hcount, hcached⟩
  · exact ⟨rfl, fun count hcount => (Option.some.inj hcount).symm⟩

theorem reCountCaptures_frame (ctx : REContext) (s : REParseState) :
    (reCountCaptures ctx s).2.buf_ptr = s.buf_ptr ∧
      (reCountCaptures ctx s).2.group_names = s.group_names ∧
      (reCountCaptures ctx s).2.capture_count = s.capture_count := by
  unfold reCountCaptures
  split <;> exact ⟨rfl, rfl, rfl⟩

theorem scan_parseClassAtomTerm {code : List REOp} (hopen : peek s.buf_ptr ≠ '(')
    (hclass : peek s.buf_ptr ≠ '[') (h : parseClassAtomTerm ctx dir s = .ok (code, s')) :
    LeafScan ctx s s' := by
  obtain ⟨⟨atom, p⟩, hatom, hrest⟩ := bind_eq_ok.mp h
  have hscan : AtomScan ctx.unicode ctx.is_utf16 s.buf_ptr p := scan_getClassAtom hatom
  have hleaf : LeafScan ctx s { s with buf_ptr := p } :=
    .of_ptr hscan.shorter (hscan.names hopen hclass)
  dsimp only at hrest
  split at hrest
  · obtain ⟨op, hemit, hok⟩ := bind_eq_ok.mp hrest
    obtain ⟨rfl, rfl⟩ := Prod.mk.inj (Except.ok.inj hok)
    exact hleaf
  · obtain ⟨rfl, rfl⟩ := Prod.mk.inj (Except.ok.inj hrest)
    exact hleaf

theorem scan_parseBraceTerm (hp : peek s.buf_ptr = '\x7b')
    (h : parseBraceTerm ctx dir s = .ok (code, s')) : LeafScan ctx s s' := by
  have hopen : peek s.buf_ptr ≠ '(' := by rw [hp]; decide
  have hclass : peek s.buf_ptr ≠ '[' := by rw [hp]; decide
  unfold parseBraceTerm at h
  dsimp only at h
  split at h
  · cases h
  · split_ifs at h
    all_goals first
      | exact scan_parseClassAtomTerm hopen hclass h
      | cases h

theorem scan_parseBadNameReference {msg : String} (hp : s.buf_ptr = '\\' :: q)
    (h : parseBadNameReference ctx dir s msg = .ok (code, s')) : LeafScan ctx s s' := by
  unfold parseBadNameReference at h
  split at h
  · cases h
  · have hframe : (reHasNamedCaptures ctx s).2 = s ∨
        (reHasNamedCaptures ctx s).2 = (reCountCaptures ctx s).2 := by
      unfold reHasNamedCaptures
      split
      · exact .inl rfl
      · exact .inr rfl
    cases hpair : reHasNamedCaptures ctx s with
    | mk has_named s₂ =>
      rw [hpair] at h hframe
      dsimp only at h hframe
      split at h
      · cases h
      · rcases hframe with rfl | rfl
        · exact scan_parseClassAtomTerm (by simp [hp, peek]) (by simp [hp, peek]) h
        · obtain ⟨hptr, hgroups, hcount⟩ := reCountCaptures_frame ctx s
          have hleaf := scan_parseClassAtomTerm (by simp [hptr, hp, peek])
            (by simp [hptr, hp, peek]) h
          exact ⟨hptr ▸ hleaf.shorter, hptr ▸ hleaf.names, hleaf.group_names.trans hgroups,
            hleaf.capture_count.trans hcount,
            fun hcached => hleaf.cached (reCountCaptures_spec ctx s hcached).2⟩

theorem scan_parseNamedReference (hp : s.buf_ptr = '\\' :: 'k' :: q)
    (h : parseNamedReference ctx dir s = .ok (code, s')) : LeafScan ctx s s' := by
  unfold parseNamedReference at h
  split at h
  · exact scan_parseBadNameReference hp h
  · next hless =>
    split at h
    · exact scan_parseBadNameReference hp h
    · next name p₁ hname =>
      have hleaf : LeafScan ctx s { s with buf_ptr := p₁ } := by
        rw [hp] at hless hname
        obtain ⟨r, rfl⟩ : ∃ r, q = '<' :: r := by
          cases q with
          | nil => simp [peekAt] at hless
          | cons c r => exact ⟨r, by simpa [peekAt] using hless⟩
        have hinert := (inert_reParseGroupName _ _ hname).1
        exact .of_inert hp (.ordinary (by decide)
          (hinert.trans (.ordinary (by decide) (.refl _))))
      split at h
      · obtain ⟨rfl, rfl⟩ := Prod.mk.inj (Except.ok.inj h)
        exact hleaf
      · split at h
        · obtain ⟨rfl, rfl⟩ := Prod.mk.inj (Except.ok.inj h)
          exact hleaf
        · exact scan_parseBadNameReference hp h

theorem inert_parseZeroEscape {c : Nat} {p' : Bytes} (h : parseZeroEscape ctx p = .ok (c, p')) :
    Inert p p' := by
  unfold parseZeroEscape at h
  split at h
  · split at h
    · cases h
    · obtain ⟨rfl, rfl⟩ := Prod.mk.inj (Except.ok.inj h)
      exact .refl _
  · split at h
    · next hfirst =>
      dsimp only at h
      split at h
      · next hsecond =>
        obtain ⟨rfl, rfl⟩ := Prod.mk.inj (Except.ok.inj h)
        exact .of_isOctal hfirst (.of_isOctal hsecond (.refl _))
      · obtain ⟨rfl, rfl⟩ := Prod.mk.inj (Except.ok.inj h)
        exact .of_isOctal hfirst (.refl _)
    · obtain ⟨rfl, rfl⟩ := Prod.mk.inj (Except.ok.inj h)
      exact .refl _

theorem inert_parseLegacyOctal (hlow : '1' ≤ peek q) (hhigh : peek q ≤ '9') :
    q ≠ [] ∧ Inert q.tail (parseLegacyOctal q).2 := by
  have hne : q ≠ [] := by
    rintro rfl
    exact absurd hlow (by decide)
  refine ⟨hne, ?_⟩
  obtain ⟨c, q, rfl⟩ := List.exists_cons_of_ne_nil hne
  change '1' ≤ c at hlow
  unfold parseLegacyOctal
  by_cases hseven : c ≤ '7'
  · have hoctal : isOctal c = true := by
      simp only [isOctal, Bool.and_eq_true, decide_eq_true_eq]
      exact ⟨Char.le_trans (by decide) hlow, hseven⟩
    by_cases hthree : c ≤ '3'
    · simp only [peek, List.headD_cons, hseven, hthree, if_true, List.tail_cons]
      split_ifs with hsecond hthird
      · exact .of_isOctal hsecond (.of_isOctal hthird (.refl _))
      · exact .of_isOctal hsecond (.refl _)
      · exact .refl _
    · simp only [peek, List.headD_cons, hseven, hthree, hoctal, if_true, if_false, List.tail_cons]
      split_ifs with hsecond
      · exact .of_isOctal hsecond (.refl _)
      · exact .refl _
  · simp only [peek, List.headD_cons, hseven, if_false, List.tail_cons]
    exact .refl _

theorem inert_parseDigits_tail {c : Char} {r : Bytes} {v : Nat} (hdigit : isDigit c = true)
    (h : parseDigits (c :: r) = some (v, p)) : Inert r p := by
  rw [parseDigits, parseDigitsLoop] at h
  simp only [hdigit, Bool.not_true, Bool.false_eq_true, if_false] at h
  split at h
  · cases h
  · exact inert_parseDigitsLoop h

theorem scan_parseDecimalEscape (hp : s.buf_ptr = '\\' :: q) (hlow : '1' ≤ peek q)
    (hhigh : peek q ≤ '9') (h : parseDecimalEscape ctx dir s q = .ok (code, s')) :
    LeafScan ctx s s' := by
  have hframe := reCountCaptures_frame ctx s
  obtain ⟨hne, hoctal⟩ := inert_parseLegacyOctal hlow hhigh
  obtain ⟨c, r, rfl⟩ := List.exists_cons_of_ne_nil hne
  have hdone : ∀ (s₂ : REParseState) (p : Bytes), Inert r p →
      (s₂ = s ∨ s₂ = (reCountCaptures ctx s).2) → s' = { s₂ with buf_ptr := p } →
      LeafScan ctx s s' := by
    rintro s₂ p hinert hs₂ rfl
    have hleaf : LeafScan ctx s { s with buf_ptr := p } := .of_inert hp hinert
    rcases hs₂ with rfl | rfl
    · exact hleaf
    · exact ⟨hleaf.shorter, hleaf.names, hframe.2.1, hframe.2.2,
        fun hcached => (reCountCaptures_spec ctx s hcached).2⟩
  have hdigit : isDigit c = true := by
    simp only [isDigit, Bool.and_eq_true, decide_eq_true_eq]
    exact ⟨Char.le_trans (by decide) hlow, hhigh⟩
  unfold parseDecimalEscape at h
  -- the state is the one before or the one after the captures have been counted
  split at h
  next reference s₂ href =>
    have hs₂ : (s₂ = s ∨ s₂ = (reCountCaptures ctx s).2) ∧
        ∀ v p, reference = some (v, p) → parseDigits (c :: r) = some (v, p) := by
      cases hdigits : parseDigits (c :: r) with
      | none =>
          rw [hdigits] at href
          obtain ⟨rfl, rfl⟩ := Prod.mk.inj href
          exact ⟨.inl rfl, fun v p hv => by cases hv⟩
      | some pair =>
          rw [hdigits] at href
          dsimp only at href
          split at href
          · obtain ⟨rfl, rfl⟩ := Prod.mk.inj href
            refine ⟨.inr rfl, fun v p hv => ?_⟩
            split at hv
            · cases hv
            · exact hv
          · obtain ⟨rfl, rfl⟩ := Prod.mk.inj href
            exact ⟨.inl rfl, fun v p hv => hv⟩
    split at h
    · next v p =>
      obtain ⟨rfl, rfl⟩ := Prod.mk.inj (Except.ok.inj h)
      exact hdone s₂ p (inert_parseDigits_tail hdigit (hs₂.2 v p rfl)) hs₂.1 rfl
    · split at h
      · cases h
      · obtain ⟨rfl, rfl⟩ := Prod.mk.inj (Except.ok.inj h)
        exact hdone s₂ _ hoctal hs₂.1 rfl

/-- The leaf atoms open no capture. -/
theorem scan_leafAtom (h : LeafAtom ctx dir s code s') : LeafScan ctx s s' := by
  cases h with
  | dot p hp =>
      refine .of_ptr (by simp [hp]) ?_
      rw [hp, captureNames_ordinary] <;> decide
  | brace p code s' hp h => exact scan_parseBraceTerm (by simp [hp, peek]) h
  | namedReference p code s' hp h => exact scan_parseNamedReference hp h
  | zero p p' c hp h => exact .of_inert hp (inert_parseZeroEscape h)
  | decimal p code s' hp hlow hhigh h => exact scan_parseDecimalEscape hp hlow hhigh h
  | charClass p p' op hp h =>
      obtain ⟨hle, hnames⟩ :=
        scan_reParseCharClass (u := ctx.unicode) h
      refine .of_ptr (by simp [hp]; omega) (by rw [hp, hnames])
  | classAtom c p code s' hp hopen hclass h =>
      exact scan_parseClassAtomTerm (by simpa [hp, peek]) (by simpa [hp, peek]) h

/-- From `s` to `s'` the parser has made the captures that the scan meets. -/
structure Synced (ctx : REContext) (s s' : REParseState) : Prop where
  shorter : s'.buf_ptr.length ≤ s.buf_ptr.length
  made : ∃ made : List Bytes, s'.group_names = s.group_names ++ made ∧
    s'.capture_count = s.capture_count + made.length ∧
    captureNames ctx.unicode ctx.is_utf16 s.buf_ptr =
      made ++ captureNames ctx.unicode ctx.is_utf16 s'.buf_ptr
  cached : CountCached ctx s → CountCached ctx s'

theorem Synced.refl (s : REParseState) : Synced ctx s s :=
  ⟨le_refl _, ⟨[], by simp⟩, id⟩

theorem Synced.trans {s₁ s₂ s₃ : REParseState} (h : Synced ctx s₁ s₂) (h' : Synced ctx s₂ s₃) :
    Synced ctx s₁ s₃ := by
  obtain ⟨made, hgroups, hcount, hnames⟩ := h.made
  obtain ⟨made', hgroups', hcount', hnames'⟩ := h'.made
  refine ⟨h'.shorter.trans h.shorter, ⟨made ++ made', ?_, ?_, ?_⟩, h'.cached ∘ h.cached⟩
  · rw [hgroups', hgroups, List.append_assoc]
  · rw [hcount', hcount, List.length_append, Nat.add_assoc]
  · rw [hnames, hnames', List.append_assoc]

theorem LeafScan.synced (h : LeafScan ctx s s') : Synced ctx s s' :=
  ⟨h.shorter.le, ⟨[], by simp [h.group_names], by simp [h.capture_count], by simpa using h.names⟩,
    h.cached⟩

/-- Reading text without captures. -/
theorem Synced.of_ptr (hle : p.length ≤ s.buf_ptr.length)
    (hnames : captureNames ctx.unicode ctx.is_utf16 s.buf_ptr =
      captureNames ctx.unicode ctx.is_utf16 p) : Synced ctx s { s with buf_ptr := p } :=
  ⟨hle, ⟨[], by simp, by simp, by simpa using hnames⟩, id⟩

/-- Reading one character that opens nothing. -/
theorem Synced.of_char {c : Char} {p : Bytes} (hp : s.buf_ptr = c :: p)
    (hc : c ≠ '(' ∧ c ≠ '[' ∧ c ≠ '\\') : Synced ctx s { s with buf_ptr := p } :=
  .of_ptr (by simp [hp]) (by rw [hp, captureNames_ordinary _ _ p hc.1 hc.2.1 hc.2.2])

theorem Synced.of_inert (h : Inert s.buf_ptr p) : Synced ctx s { s with buf_ptr := p } :=
  .of_ptr h.length_le (h.captureNames_eq _ _)

theorem inert_parseDigitsClamped (p : Bytes) : Inert p (parseDigitsClamped p).2 := by
  unfold parseDigitsClamped
  cases h : parseDigitsLoop true 0 p with
  | none => exact .refl _
  | some pair =>
      have ⟨n, after⟩ := pair
      exact inert_parseDigitsLoop h

theorem inert_parseQuantifierBounds {p' : Bytes} {bounds : Option (Nat × Nat)}
    (h : parseQuantifierBounds ctx p = .ok (bounds, p')) : Inert p p' := by
  unfold parseQuantifierBounds at h
  split at h
  case h_4 p1 =>
    split at h
    · split at h
      · cases h
      · obtain ⟨rfl, rfl⟩ := Prod.mk.inj (Except.ok.inj h)
        exact .refl _
    · dsimp only at h
      have hmin := inert_parseDigitsClamped p1
      have hmax : Inert (parseDigitsClamped p1).2
          (if peek (parseDigitsClamped p1).2 = ',' then
            if isDigit (peek (parseDigitsClamped p1).2.tail) then
              parseDigitsClamped (parseDigitsClamped p1).2.tail
            else (INT32_MAX, (parseDigitsClamped p1).2.tail)
          else ((parseDigitsClamped p1).1, (parseDigitsClamped p1).2)).2 := by
        split
        · next hcomma =>
          refine .of_peek (by rw [hcomma]; decide) (by rw [hcomma]; decide) ?_
          split
          · exact inert_parseDigitsClamped _
          · exact .refl _
        · exact .refl _
      revert h
      generalize (if peek (parseDigitsClamped p1).2 = ',' then
            if isDigit (peek (parseDigitsClamped p1).2.tail) then
              parseDigitsClamped (parseDigitsClamped p1).2.tail
            else (INT32_MAX, (parseDigitsClamped p1).2.tail)
          else ((parseDigitsClamped p1).1, (parseDigitsClamped p1).2)) = bound at hmax ⊢
      intro h
      split at h
      · cases h
      · split at h
        · next hclose =>
          obtain ⟨rfl, rfl⟩ := Prod.mk.inj (Except.ok.inj h)
          exact .ordinary (by decide) (hmin.trans (hmax.trans
            (.of_peek (by rw [hclose]; decide) (by rw [hclose]; decide) (.refl _))))
        · split at h
          · obtain ⟨rfl, rfl⟩ := Prod.mk.inj (Except.ok.inj h)
            exact .refl _
          · cases h
  case h_5 =>
    obtain ⟨rfl, rfl⟩ := Prod.mk.inj (Except.ok.inj h)
    exact .refl _
  all_goals
    obtain ⟨rfl, rfl⟩ := Prod.mk.inj (Except.ok.inj h)
    exact .ordinary (by decide) (.refl _)

theorem synced_parseQuantifier {atom : List REOp} {last : Nat}
    (h : parseQuantifier ctx atom last s = .ok (code, s')) : Synced ctx s s' := by
  obtain ⟨⟨bounds, p⟩, hbounds, hrest⟩ := bind_eq_ok.mp h
  have hinert := inert_parseQuantifierBounds hbounds
  dsimp only at hrest
  split at hrest
  · obtain ⟨rfl, rfl⟩ := Prod.mk.inj (Except.ok.inj hrest)
    exact .of_inert hinert
  · obtain ⟨rfl, rfl⟩ := Prod.mk.inj (Except.ok.inj hrest)
    refine .of_inert (hinert.trans ?_)
    split
    · exact .refl _
    · next hlazy =>
      have hlazy : peek p = '?' := by simpa using hlazy
      exact .of_peek (by rw [hlazy]; decide) (by rw [hlazy]; decide) (.refl _)

theorem captureNames_open (p : Bytes) :
    captureNames ctx.unicode ctx.is_utf16 ('(' :: p) =
      (captureName ctx.unicode ctx.is_utf16 p).toList ++
        captureNames ctx.unicode ctx.is_utf16 p := by
  rw [captureNames]

theorem synced_groupText {p : Bytes} (hp : s.buf_ptr = '(' :: '?' :: ':' :: p) :
    Synced ctx s { s with buf_ptr := p } := by
  refine .of_ptr (by simp [hp]; omega) ?_
  rw [hp, captureNames_open, captureNames_ordinary _ _ _ (by decide) (by decide) (by decide),
    captureNames_ordinary _ _ _ (by decide) (by decide) (by decide)]
  simp [captureName, peek, peekAt]

/-- The text of a look-around opens no capture. -/
theorem synced_lookaroundText {text : Bytes} {is_neg behind : Bool}
    (htext : LookaroundText text is_neg behind) (hp : s.buf_ptr = text ++ p) :
    Synced ctx s { s with buf_ptr := p } := by
  refine .of_ptr (by simp [hp]) ?_
  rw [hp]
  cases htext <;>
    simp only [List.cons_append, List.nil_append, captureNames_open] <;>
    repeat rw [captureNames_ordinary _ _ _ (by decide) (by decide) (by decide)]
  all_goals simp [captureName, peek, peekAt]

theorem synced_captureOpen {s₀ : REParseState} (h : CaptureOpen ctx s s₀) :
    Synced ctx s { s₀ with capture_count := s.capture_count + 1 } ∧
      s₀.buf_ptr.length < s.buf_ptr.length := by
  cases h with
  | unnamed p hp hplain =>
      refine ⟨⟨by simp [hp], ⟨[[]], rfl, rfl, ?_⟩, id⟩, by simp [hp]⟩
      rw [hp, captureNames_open, captureName, if_neg hplain]
      rfl
  | named p p' name hp hequal hbang hname hnew =>
      have hinert := (inert_reParseGroupName _ _ hname).1
      have hlength := hinert.length_le
      simp only [List.length_cons] at hlength
      refine ⟨⟨by simp [hp]; omega, ⟨[name], rfl, rfl, ?_⟩, id⟩, by simp [hp]; omega⟩
      have hopen : captureName ctx.unicode ctx.is_utf16 ('?' :: '<' :: p) = some name := by
        have h0 : peekAt ('?' :: '<' :: p) 2 = peek p := by
          cases p <;> rfl
        rw [captureName, if_pos (show peek ('?' :: '<' :: p) = '?' from rfl), if_pos ⟨rfl, by rwa [h0], by rwa [h0]⟩]
        simp [hname]
      rw [hp, captureNames_open, hopen,
        captureNames_ordinary _ _ _ (by decide) (by decide) (by decide),
        captureNames_ordinary _ _ _ (by decide) (by decide) (by decide),
        hinert.captureNames_eq, captureNames_ordinary _ _ _ (by decide) (by decide) (by decide)]
      rfl

end

def Goal.state : Goal → REParseState
  | .disjunction s | .alternatives _ s | .alternative _ s | .term s | .atom s => s

def Goal.Shrinks (goal : Goal) (s' : REParseState) : Prop :=
  match goal with
  | .term s | .atom s => s'.buf_ptr.length < s.buf_ptr.length
  | _ => True

theorem Assertion.scan {text p : Bytes} {op : REOp} (h : Assertion text op) (u : UnicodeData)
    (is_utf16 : Bool) : captureNames u is_utf16 (text ++ p) = captureNames u is_utf16 p ∧
      0 < text.length := by
  cases h
  case line_start => exact ⟨captureNames_ordinary _ _ _ (by decide) (by decide) (by decide), by simp⟩
  case line_end => exact ⟨captureNames_ordinary _ _ _ (by decide) (by decide) (by decide), by simp⟩
  case word_boundary => exact ⟨captureNames_escape _ _ _ _, by simp⟩
  case not_word_boundary => exact ⟨captureNames_escape _ _ _ _, by simp⟩

theorem LookaroundText.length_pos {text : Bytes} {is_neg behind : Bool}
    (h : LookaroundText text is_neg behind) : 0 < text.length := by
  cases h <;> simp

section

variable {ctx : REContext} {goal : Goal} {dir : Bool} {code : List REOp} {s' : REParseState}
  (h : Parses ctx goal dir code s')

include h

/-- Every parse makes the captures that the scan meets in the text it reads. -/
theorem parses_synced : Synced ctx goal.state s' ∧ goal.Shrinks s' := by
  induction h with
  | disjunction _ _ ih ih' => exact ⟨ih.1.trans ih'.1, trivial⟩
  | alternatives_done _ => exact ⟨.refl _, trivial⟩
  | alternatives_next hp _ _ ih ih' =>
      exact ⟨(Synced.of_char hp (by decide)).trans (ih.1.trans ih'.1), trivial⟩
  | alternative_done _ => exact ⟨.refl _, trivial⟩
  | alternative_next _ _ _ ih ih' => exact ⟨ih.1.trans ih'.1, trivial⟩
  | assertion htext hp =>
      obtain ⟨hnames, hpos⟩ := htext.scan ctx.unicode ctx.is_utf16
      refine ⟨.of_ptr (by simp [Goal.state, hp]) (by rw [Goal.state, hp, hnames]), ?_⟩
      simp only [Goal.Shrinks, hp, List.length_append]
      omega
  | lookaround htext _ hp _ hclose ih =>
      have hopen := @synced_lookaroundText ctx _ _ _ _ _ htext hp
      have hend := @Synced.of_char ctx _ _ _ hclose (by decide)
      refine ⟨hopen.trans (ih.1.trans hend), ?_⟩
      have hle := ih.1.shorter
      have hpos := htext.length_pos
      simp only [Goal.Shrinks, Goal.state, hp, hclose, List.length_append, List.length_cons] at hle ⊢
      omega
  | quantified _ hquantifier ih =>
      have hafter := synced_parseQuantifier hquantifier
      exact ⟨ih.1.trans hafter, hafter.shorter.trans_lt ih.2⟩
  | leaf hleaf => exact ⟨(scan_leafAtom hleaf).synced, (scan_leafAtom hleaf).shorter⟩
  | group hp _ hclose ih =>
      refine ⟨(@synced_groupText ctx _ _ hp).trans
        (ih.1.trans (@Synced.of_char ctx _ _ _ hclose (by decide))), ?_⟩
      have hle := ih.1.shorter
      simp only [Goal.Shrinks, Goal.state, hp, hclose, List.length_cons] at hle ⊢
      omega
  | lookaheadAtom htext _ hp _ hclose ih =>
      have hopen := @synced_lookaroundText ctx _ _ _ _ _ htext hp
      have hend := @Synced.of_char ctx _ _ _ hclose (by decide)
      refine ⟨hopen.trans (ih.1.trans hend), ?_⟩
      have hle := ih.1.shorter
      have hpos := htext.length_pos
      simp only [Goal.Shrinks, Goal.state, hp, hclose, List.length_append, List.length_cons] at hle ⊢
      omega
  | capture hopen _ _ hclose ih =>
      obtain ⟨hsynced, hshort⟩ := synced_captureOpen hopen
      refine ⟨hsynced.trans (ih.1.trans (@Synced.of_char ctx _ _ _ hclose (by decide))), ?_⟩
      have hle := ih.1.shorter
      simp only [Goal.Shrinks, Goal.state, hclose, List.length_cons] at hle ⊢
      omega

/-- `re_parse_disjunction` stops where `re_parse_alternative` does. -/
theorem parses_atEnd :
    match goal with
    | .disjunction _ | .alternative _ _ => AtEnd s'
    | .alternatives _ s => AtEnd s → AtEnd s'
    | _ => True := by
  induction h with
  | disjunction _ _ ih ih' => exact ih' ih
  | alternatives_done _ => exact id
  | alternatives_next _ _ _ ih ih' => exact fun _ => ih' ih
  | alternative_done hend => exact hend
  | alternative_next _ _ _ _ ih' => exact ih'
  | _ => trivial

end

/-! ### The compiled captures -/

/-- What `lre_compile` returns is what its parse made. -/
theorem lreCompile_eq_ok {u : UnicodeData} {buf : Bytes} {flags : REFlags} {bc : REByteCode}
    (h : lreCompile u buf flags = .ok bc) :
    ∃ ctx body s, ctx.unicode = u ∧ ctx.buf_start = buf ∧ ctx.is_utf16 = flags.utf16 ∧
      ctx.ignore_case = flags.ignore_case ∧
      Parses ctx (.disjunction (initialState buf)) false body s ∧ s.buf_ptr = [] ∧
      bc.code = (if flags.sticky then [] else searchPrefix) ++
        .save_start 0 :: body ++ [.save_end 0, .match] ∧
      bc.capture_count = s.capture_count ∧ computeStackSize bc.code = some bc.stack_size ∧
      bc.flags = flags ∧
      bc.group_names = if s.group_names.any (· ≠ []) then some s.group_names else none := by
  obtain ⟨⟨body, s⟩, hparse, hrest⟩ := bind_eq_ok.mp h
  have hderiv := (derives _ _).disjunction hparse
  dsimp only at hrest
  split at hrest
  · cases hrest
  · next hend =>
    have hempty : s.buf_ptr = [] := by
      rcases parses_atEnd hderiv with hnil | hbar | hclose
      · exact hnil
      · rw [hbar] at hend
        exact absurd hend (by decide)
      · rw [hclose] at hend
        exact absurd hend (by decide)
    split at hrest
    · cases hrest
    · next stack_size hsize =>
      obtain rfl := Except.ok.inj hrest
      exact ⟨_, body, s, rfl, rfl, rfl, rfl, hderiv, hempty, rfl, rfl, hsize, rfl, rfl⟩

end PrimJs.Regexp
