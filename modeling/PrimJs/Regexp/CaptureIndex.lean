import PrimJs.Regexp.CaptureSync

/-! The scan for captures gives the count and the indices of the full parse. -/

namespace PrimJs.Regexp

variable (u : UnicodeData) (is_utf16 : Bool)

/-- A parenthesis before `p` opens a named capture. -/
def NamedOpen (p : Bytes) : Prop :=
  peek p = '?' ∧ peekAt p 1 = '<' ∧ peekAt p 2 ≠ '=' ∧ peekAt p 2 ≠ '!'

/-- Where the scan for a name goes on after a named group that it passes: one character after
the end of the name. -/
def afterName (p : Bytes) : Bytes :=
  match reParseGroupName u is_utf16 (p.drop 2) with
  | some (_, q) => q.tail
  | none => p.drop 3

/-- The character that the scan for `searched` drops after each name it passes opens nothing: the
captures from there on are those that follow the name. -/
inductive NamesKept (searched : Bytes) : Bytes → Prop where
  | nil : NamesKept searched []
  | plain {p} : ¬NamedOpen p → NamesKept searched p → NamesKept searched ('(' :: p)
  | found {p q} : NamedOpen p → reParseGroupName u is_utf16 (p.drop 2) = some (searched, q) →
      NamesKept searched ('(' :: p)
  | passed {p} : NamedOpen p →
      captureNames u is_utf16 (afterName u is_utf16 p) = captureNames u is_utf16 p →
      NamesKept searched (afterName u is_utf16 p) → NamesKept searched ('(' :: p)
  | escape {p} : NamesKept searched p.tail → NamesKept searched ('\\' :: p)
  | charClass {p} : NamesKept searched (skipClass p).tail → NamesKept searched ('[' :: p)
  | ordinary {c p} : c ≠ '(' → c ≠ '[' → c ≠ '\\' → NamesKept searched p →
      NamesKept searched (c :: p)

variable {u is_utf16}

section
-- The equations of the loop are made here, once for all lemmas below.
attribute [local simp] reParseCapturesLoop
end

theorem captureName_plain {p : Bytes} (h : ¬NamedOpen p) :
    captureName u is_utf16 p = if peek p = '?' then none else some [] := by
  unfold NamedOpen at h
  unfold captureName
  split
  · next hquestion => rw [if_neg fun hopen => h ⟨hquestion, hopen⟩]
  · rfl

theorem captureName_named {p : Bytes} (h : NamedOpen p) : captureName u is_utf16 p =
    some (((reParseGroupName u is_utf16 (p.drop 2)).map Prod.fst).getD []) := by
  rw [captureName, if_pos h.1, if_pos h.2]

/-! ### The steps of the scan -/

section

variable {capture_name : Option Bytes} {fuel : Nat} {p : Bytes} {capture_index : Nat}
  {has_named : Bool}

theorem loop_plain (h : ¬NamedOpen p) :
    reParseCapturesLoop u is_utf16 capture_name (fuel + 1) ('(' :: p) capture_index has_named =
      reParseCapturesLoop u is_utf16 capture_name fuel p
        (if peek p = '?' then capture_index else capture_index + 1) has_named := by
  unfold NamedOpen at h
  by_cases hquestion : peek p = '?'
  · have hopen : ¬(peekAt p 1 = '<' ∧ peekAt p 2 ≠ '=') ∨ peekAt p 2 = '!' := by
      by_contra hcontra
      simp only [not_or, not_not] at hcontra
      exact h ⟨hquestion, hcontra.1.1, hcontra.1.2, hcontra.2⟩
    cases capture_name <;> simp only [reParseCapturesLoop, hquestion, if_true] <;>
      rw [if_neg (by rcases hopen with hopen | hopen <;> simp_all)]
  · cases capture_name <;> simp only [reParseCapturesLoop, hquestion, if_false]

theorem loop_named (h : NamedOpen p) :
    reParseCapturesLoop u is_utf16 none (fuel + 1) ('(' :: p) capture_index has_named =
      reParseCapturesLoop u is_utf16 none fuel p (capture_index + 1) true := by
  rw [reParseCapturesLoop, if_pos h.1, if_pos (by simpa [and_assoc] using h.2)]

theorem loop_found {searched q : Bytes} (h : NamedOpen p)
    (hname : reParseGroupName u is_utf16 (p.drop 2) = some (searched, q)) :
    reParseCapturesLoop u is_utf16 (some searched) (fuel + 1) ('(' :: p) capture_index has_named =
      (capture_index, some capture_index, true) := by
  rw [reParseCapturesLoop, if_pos h.1, if_pos (by simpa [and_assoc] using h.2), hname]
  simp

theorem loop_passed {searched : Bytes} (h : NamedOpen p)
    (hother : ∀ q, reParseGroupName u is_utf16 (p.drop 2) ≠ some (searched, q)) :
    reParseCapturesLoop u is_utf16 (some searched) (fuel + 1) ('(' :: p) capture_index has_named =
      reParseCapturesLoop u is_utf16 (some searched) fuel (afterName u is_utf16 p)
        (capture_index + 1) true := by
  rw [reParseCapturesLoop, if_pos h.1, if_pos (by simpa [and_assoc] using h.2), afterName]
  cases hname : reParseGroupName u is_utf16 (p.drop 2) with
  | none => rfl
  | some pair =>
      have hne : pair.1 ≠ searched := by
        rintro rfl
        exact hother pair.2 hname
      simp [hne]

theorem loop_escape :
    reParseCapturesLoop u is_utf16 capture_name (fuel + 1) ('\\' :: p) capture_index has_named =
      reParseCapturesLoop u is_utf16 capture_name fuel p.tail capture_index has_named := by
  rw [reParseCapturesLoop]

theorem loop_class :
    reParseCapturesLoop u is_utf16 capture_name (fuel + 1) ('[' :: p) capture_index has_named =
      reParseCapturesLoop u is_utf16 capture_name fuel (skipClass p).tail capture_index
        has_named := by
  rw [reParseCapturesLoop]

theorem loop_ordinary {c : Char} (hopen : c ≠ '(') (hclass : c ≠ '[') (hescape : c ≠ '\\') :
    reParseCapturesLoop u is_utf16 capture_name (fuel + 1) (c :: p) capture_index has_named =
      reParseCapturesLoop u is_utf16 capture_name fuel p capture_index has_named := by
  rw [reParseCapturesLoop] <;> simp_all

end

/-- The count of the scan is the number of captures that it meets. -/
theorem reParseCapturesLoop_count (fuel : Nat) (p : Bytes) (capture_index : Nat) (has_named : Bool)
    (hfuel : p.length ≤ fuel) :
    (reParseCapturesLoop u is_utf16 none fuel p capture_index has_named).1 =
      capture_index + (captureNames u is_utf16 p).length := by
  induction fuel generalizing p capture_index has_named with
  | zero =>
      obtain rfl := List.length_eq_zero_iff.mp (Nat.le_zero.mp hfuel)
      simp [reParseCapturesLoop, captureNames]
  | succ fuel ih =>
      rcases p with _ | ⟨c, p⟩
      · simp [reParseCapturesLoop, captureNames]
      have hle : p.length ≤ fuel := by simpa using hfuel
      by_cases hopen : c = '('
      · subst hopen
        rw [captureNames]
        by_cases hnamed : NamedOpen p
        · rw [loop_named hnamed, ih p _ _ hle, captureName_named hnamed]
          simp
          omega
        · rw [loop_plain hnamed, ih p _ _ hle, captureName_plain hnamed]
          split <;> simp
          omega
      by_cases hescape : c = '\\'
      · subst hescape
        rw [loop_escape, captureNames, ih _ _ _ (by simp; omega)]
      by_cases hclass : c = '['
      · subst hclass
        have hskip := skipClass_length_le p
        rw [loop_class, captureNames, ih _ _ _ (by simp; omega)]
      rw [loop_ordinary hopen hclass hescape, captureNames_ordinary _ _ _ hopen hclass hescape,
        ih p _ _ hle]

/-- The name after an open parenthesis opens no further capture. -/
theorem captureNames_afterOpen {p : Bytes} (h : NamedOpen p) :
    captureNames u is_utf16 ('(' :: p) =
      (((reParseGroupName u is_utf16 (p.drop 2)).map Prod.fst).getD []) ::
        captureNames u is_utf16 p := by
  rw [captureNames, captureName_named h]
  rfl

/-- Where the dropped characters open nothing, the scan for a name finds its index. -/
theorem reParseCapturesLoop_index {searched : Bytes} (hname : searched ≠ []) (fuel : Nat)
    (p : Bytes) (capture_index : Nat) (has_named : Bool) (hfuel : p.length ≤ fuel)
    (hkept : NamesKept u is_utf16 searched p) :
    (reParseCapturesLoop u is_utf16 (some searched) fuel p capture_index has_named).2.1 =
      findGroupNameFrom searched capture_index (captureNames u is_utf16 p) := by
  induction hkept generalizing fuel capture_index has_named with
  | nil => cases fuel <;> simp [reParseCapturesLoop, captureNames, findGroupNameFrom]
  | @plain p hnamed _ ih =>
      obtain ⟨fuel, rfl⟩ := Nat.exists_eq_add_of_lt hfuel
      rw [loop_plain hnamed, ih _ _ _ (by simp), captureNames, captureName_plain hnamed]
      split
      · rfl
      · simp [findGroupNameFrom, hname.symm]
  | @found p q hnamed hfound =>
      obtain ⟨fuel, rfl⟩ := Nat.exists_eq_add_of_lt hfuel
      rw [loop_found hnamed hfound, captureNames_afterOpen hnamed, hfound]
      simp [findGroupNameFrom]
  | @passed p hnamed hsame _ ih =>
      obtain ⟨fuel, rfl⟩ := Nat.exists_eq_add_of_lt hfuel
      rw [captureNames_afterOpen hnamed]
      cases hgroup : reParseGroupName u is_utf16 (p.drop 2) with
      | none =>
          have hle : (afterName u is_utf16 p).length ≤ p.length := by
            simp [afterName, hgroup]
          rw [loop_passed hnamed (by simp [hgroup]), ih _ _ _ (by omega), hsame]
          simp [findGroupNameFrom, hname.symm]
      | some pair =>
          obtain ⟨name, q⟩ := pair
          by_cases hsearched : name = searched
          · rw [loop_found hnamed (hsearched ▸ hgroup)]
            simp [findGroupNameFrom, hsearched]
          · have hle : (afterName u is_utf16 p).length ≤ p.length := by
              have hlength := (inert_reParseGroupName _ _ hgroup).1.length_le
              simp only [List.length_cons, List.length_drop] at hlength
              simp only [afterName, hgroup, List.length_tail]
              omega
            rw [loop_passed hnamed (by simp [hgroup, hsearched]), ih _ _ _ (by omega), hsame]
            simp [findGroupNameFrom, hsearched]
  | @escape p _ ih =>
      obtain ⟨fuel, rfl⟩ := Nat.exists_eq_add_of_lt hfuel
      rw [loop_escape, captureNames, ih _ _ _ (by simp; omega)]
  | @charClass p _ ih =>
      obtain ⟨fuel, rfl⟩ := Nat.exists_eq_add_of_lt hfuel
      have hle := skipClass_length_le p
      rw [loop_class, captureNames, ih _ _ _ (by simp; omega)]
  | @ordinary c p hopen hclass hescape _ ih =>
      obtain ⟨fuel, rfl⟩ := Nat.exists_eq_add_of_lt hfuel
      rw [loop_ordinary hopen hclass hescape, captureNames_ordinary _ _ _ hopen hclass hescape,
        ih _ _ _ (by simp)]

/-! ### The captures of a compiled pattern -/

def REByteCode.groupIndex (bc : REByteCode) (name : Bytes) : Option Nat :=
  bc.group_names.bind fun names => findGroupName names name

theorem findGroupNameFrom_eq_none {name : Bytes} {names : List Bytes} (h : name ∉ names)
    (capture_index : Nat) : findGroupNameFrom name capture_index names = none := by
  induction names generalizing capture_index with
  | nil => rfl
  | cons head names ih =>
      simp only [List.mem_cons, not_or] at h
      rw [findGroupNameFrom, if_neg (Ne.symm h.1), ih h.2]

/-- The captures of a compiled pattern are those that the scan meets in its text. -/
theorem lreCompile_captures {buf : Bytes} {flags : REFlags} {bc : REByteCode}
    (h : lreCompile u buf flags = .ok bc) :
    bc.capture_count = 1 + (captureNames u flags.utf16 buf).length ∧
      ∀ name, name ≠ [] →
        bc.groupIndex name = findGroupName (captureNames u flags.utf16 buf) name := by
  obtain ⟨ctx, body, s, rfl, rfl, hutf, -, hparse, hend, -, hcount, -, -, hnames⟩ :=
    lreCompile_eq_ok h
  obtain ⟨made, hgroups, hmade, hscan⟩ := (parses_synced hparse).1.made
  rw [hend, captureNames, List.append_nil, hutf] at hscan
  change captureNames _ _ ctx.buf_start = made at hscan
  change s.group_names = [] ++ made at hgroups
  rw [hscan]
  refine ⟨hcount.trans hmade, fun name hname => ?_⟩
  rw [REByteCode.groupIndex, hnames, hgroups, List.nil_append]
  split
  · rfl
  · next hunnamed =>
    refine (findGroupNameFrom_eq_none (fun hmem => ?_) 1).symm
    exact hunnamed (List.any_eq_true.mpr ⟨name, hmem, by simpa using hname⟩)

/-- For every pattern that compiles, the scan counts the captures of the full parse, and it finds
the parser's index for a name when the characters it drops after other names open nothing. -/
theorem reParseCaptures_agrees {buf : Bytes} {flags : REFlags} {bc : REByteCode}
    (h : lreCompile u buf flags = .ok bc) :
    (reParseCaptures u flags.utf16 buf).1 = bc.capture_count ∧
      ∀ name, name ≠ [] → NamesKept u flags.utf16 name buf →
        reParseCapturesNamed u flags.utf16 buf name = bc.groupIndex name := by
  obtain ⟨hcount, hindex⟩ := lreCompile_captures h
  constructor
  · rw [hcount]
    exact reParseCapturesLoop_count _ _ _ _ (le_refl _)
  · intro name hname hkept
    rw [hindex name hname]
    exact reParseCapturesLoop_index hname _ _ _ _ (le_refl _) hkept

def REFlags.none : REFlags where
  ignore_case := false
  multi_line := false
  dotall := false
  utf16 := false
  sticky := false

/-- `\k<b>(?<a>x)(?<b>y)`: the dropped character is ordinary. -/
def forwardReference : Bytes :=
  ['\\', 'k', '<', 'b', '>', '(', '?', '<', 'a', '>', 'x', ')', '(', '?', '<', 'b', '>', 'y', ')']

/-- `\k<b>(?<a>\()(?<b>y)`: the scan drops the backslash after the first name. -/
def escapedReference : Bytes :=
  ['\\', 'k', '<', 'b', '>', '(', '?', '<', 'a', '>', '\\', '(', ')', '(', '?', '<', 'b', '>',
    'y', ')']

theorem forwardReference_namesKept : NamesKept .ascii false ['b'] forwardReference := by
  have hlast : NamesKept .ascii false ['b'] [')', '(', '?', '<', 'b', '>', 'y', ')'] :=
    .ordinary (by decide) (by decide) (by decide)
      (.found (q := ['y', ')']) (by unfold NamedOpen; decide) (by decide +kernel))
  have hafter : afterName .ascii false
      ['?', '<', 'a', '>', 'x', ')', '(', '?', '<', 'b', '>', 'y', ')'] =
        [')', '(', '?', '<', 'b', '>', 'y', ')'] := by decide +kernel
  refine .escape (.ordinary (by decide) (by decide) (by decide)
    (.ordinary (by decide) (by decide) (by decide) (.ordinary (by decide) (by decide) (by decide)
      (.passed (by unfold NamedOpen; decide) ?_ ?_))))
  · rw [hafter]
    repeat rw [captureNames_ordinary (c := '?') _ _ _ (by decide) (by decide) (by decide)]
    repeat rw [captureNames_ordinary (c := '<') _ _ _ (by decide) (by decide) (by decide)]
    repeat rw [captureNames_ordinary (c := 'a') _ _ _ (by decide) (by decide) (by decide)]
    repeat rw [captureNames_ordinary (c := '>') _ _ _ (by decide) (by decide) (by decide)]
    repeat rw [captureNames_ordinary (c := 'x') _ _ _ (by decide) (by decide) (by decide)]
  · rw [hafter]
    exact hlast

theorem forwardReference_compiles : ∃ bc, lreCompile .ascii forwardReference .none = .ok bc := by
  have hok : (lreCompile .ascii forwardReference .none).isOk = true := by decide +kernel
  cases hbc : lreCompile .ascii forwardReference .none with
  | ok bc => exact ⟨bc, rfl⟩
  | error e =>
      rw [hbc] at hok
      cases hok

theorem forwardReference_agrees : ∃ bc, lreCompile .ascii forwardReference .none = .ok bc ∧
    reParseCapturesNamed .ascii false forwardReference ['b'] = bc.groupIndex ['b'] := by
  obtain ⟨bc, hbc⟩ := forwardReference_compiles
  exact ⟨bc, hbc, (reParseCaptures_agrees hbc).2 ['b'] (by decide) forwardReference_namesKept⟩

/-- The scan takes the escaped parenthesis for a capture: it gives 3 to the second group. -/
theorem escapedReference_disagrees :
    (lreCompile .ascii escapedReference .none).toOption.map (·.groupIndex ['b']) =
        some (some 2) ∧
      reParseCapturesNamed .ascii false escapedReference ['b'] = some 3 := by
  decide +kernel

end PrimJs.Regexp
