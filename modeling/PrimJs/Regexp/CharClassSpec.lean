import PrimJs.Regexp.CharMatch
import PrimJs.Regexp.Derivation

/-! A compiled class matches the characters of its set. -/

namespace PrimJs.Regexp

open CharRange Boundaries

/-! ### The encodings of a range -/

variable {cr : List Nat} {c : Nat}

theorem mem_rangePairs32 {range : Nat × Nat} (h : range ∈ rangePairs32 cr) :
    range.1 ∈ cr ∧ range.2 + 1 ∈ cr ∨ range.1 ∈ cr ∧ range.2 = 0 := by
  induction cr using List.twoStepInduction with
  | nil => simp [rangePairs32] at h
  | singleton _ => simp [rangePairs32] at h
  | cons_cons low high rest ih _ =>
      rw [rangePairs32] at h
      rcases List.mem_cons.mp h with rfl | h
      · rcases Nat.eq_zero_or_pos high with hzero | hpos
        · exact .inr ⟨by simp, by simp [hzero]⟩
        · exact .inl ⟨by simp, by simp only [List.mem_cons]; right; left; omega⟩
      · rcases ih h with ⟨hlow, hhigh⟩ | ⟨hlow, hhigh⟩
        · exact .inl ⟨by simp [hlow], by simp [hhigh]⟩
        · exact .inr ⟨by simp [hlow], hhigh⟩

theorem normal_tail {low high : Nat} {rest : List Nat} (h : Normal (low :: high :: rest)) :
    low < high ∧ (∀ q ∈ rest, high < q) ∧ Normal rest := by
  obtain ⟨hlow, htail⟩ := List.pairwise_cons.mp h.increasing
  obtain ⟨hhigh, hrest⟩ := List.pairwise_cons.mp htail
  exact ⟨hlow high (by simp), hhigh, by simpa [parity_simps] using h.even, hrest⟩

theorem rangePairs32_separated (h : Normal cr) : Separated (rangePairs32 cr) := by
  induction cr using List.twoStepInduction with
  | nil => exact ⟨by simp [rangePairs32], by simp [rangePairs32]⟩
  | singleton _ => exact ⟨by simp [rangePairs32], by simp [rangePairs32]⟩
  | cons_cons low high rest ih _ =>
      obtain ⟨hlt, hlater, hrest⟩ := normal_tail h
      obtain ⟨hle, hapart⟩ := ih hrest
      rw [rangePairs32]
      refine ⟨fun range hmem => ?_, List.pairwise_cons.mpr ⟨fun later hmem => ?_, hapart⟩⟩
      · rcases List.mem_cons.mp hmem with rfl | hmem
        · exact Nat.le_sub_one_of_lt hlt
        · exact hle range hmem
      · have hlow : later.1 ∈ rest := by
          rcases mem_rangePairs32 hmem with hpair | hpair
          · exact hpair.1
          · exact hpair.1
        have hgap := hlater _ hlow
        change high - 1 < later.1
        omega

theorem covers_cons (range : Nat × Nat) (ranges : List (Nat × Nat)) (c : Nat) :
    Covers (range :: ranges) c ↔ (range.1 ≤ c ∧ c ≤ range.2) ∨ Covers ranges c := by
  simp [Covers]

theorem covers_append (front back : List (Nat × Nat)) (c : Nat) :
    Covers (front ++ back) c ↔ Covers front c ∨ Covers back c := by
  simp [Covers, or_and_right, exists_or]

theorem covers_rangePairs32 (h : Normal cr) (c : Nat) :
    Covers (rangePairs32 cr) c ↔ c ∈ region cr := by
  induction cr using List.twoStepInduction with
  | nil => simp [rangePairs32, Covers]
  | singleton _ => simp [rangePairs32, Covers, region]
  | cons_cons low high rest ih _ =>
      obtain ⟨hlt, -, hrest⟩ := normal_tail h
      rw [rangePairs32, covers_cons, ih hrest, region_cons_cons, Set.mem_union, Set.mem_Ico]
      have hiff : c ≤ high - 1 ↔ c < high := by omega
      simp only [hiff]

/-- The pairs of the two encodings differ in a last range without end only. -/
theorem rangePairs16_cases (h : Normal cr) (hbounded : ∀ q ∈ cr, q ≤ UINT32_MAX) :
    (UINT32_MAX ∉ cr ∧ rangePairs16 cr = rangePairs32 cr) ∨
      ∃ front low, cr = front ++ [low, UINT32_MAX] ∧ Normal front ∧
        rangePairs16 cr = rangePairs32 front ++ [(low, 0xffff)] ∧
        ∀ range ∈ rangePairs32 front, range.2 < low := by
  induction cr using List.twoStepInduction with
  | nil => exact .inl ⟨by simp, rfl⟩
  | singleton _ =>
      have heven := h.even
      simp at heven
  | cons_cons low high rest ih _ =>
      obtain ⟨hlt, hlater, hrest⟩ := normal_tail h
      have hhigh : high ≤ UINT32_MAX := hbounded high (by simp)
      by_cases hlast : high = UINT32_MAX
      · -- nothing comes after infinity
        have hnil : rest = [] := by
          rcases rest with _ | ⟨q, rest⟩
          · rfl
          · have hq := hlater q (by simp)
            have hq' := hbounded q (by simp)
            omega
        subst hnil hlast
        exact .inr ⟨[], low, rfl, ⟨by simp, by simp⟩, by simp [rangePairs16, rangePairs32],
          by simp [rangePairs32]⟩
      · rcases ih hrest fun q hq => hbounded q (by simp [hq]) with ⟨hmem, hpairs⟩ |
          ⟨front, low', rfl, hfront, hpairs, hapart⟩
        · refine .inl ⟨?_, by rw [rangePairs16, rangePairs32, hpairs, if_neg hlast]⟩
          simp only [List.mem_cons, not_or]
          exact ⟨by omega, fun heq => hlast heq.symm, hmem⟩
        · refine .inr ⟨low :: high :: front, low', rfl, ⟨?_, ?_⟩, ?_, ?_⟩
          · simpa [parity_simps] using hfront.even
          · have hpairwise := h.increasing
            rw [show low :: high :: (front ++ [low', UINT32_MAX]) =
              (low :: high :: front) ++ [low', UINT32_MAX] from rfl] at hpairwise
            exact (List.pairwise_append.mp hpairwise).1
          · rw [rangePairs16, rangePairs32, hpairs, if_neg hlast]
            rfl
          · intro range hmem
            rw [rangePairs32] at hmem
            rcases List.mem_cons.mp hmem with rfl | hmem
            · have hgap := hlater low' (by simp)
              change high - 1 < low'
              omega
            · exact hapart range hmem

theorem rangePairs32_length (cr : List Nat) : (rangePairs32 cr).length = cr.length / 2 := by
  induction cr using List.twoStepInduction with
  | nil => simp [rangePairs32]
  | singleton _ => simp [rangePairs32]
  | cons_cons low high rest ih _ =>
      rw [rangePairs32, List.length_cons, ih]
      simp only [List.length_cons]
      omega

/-- The encoding with 32-bit bounds tests the membership in the range. -/
theorem lreRange32Match_region (h : Normal cr) (hpos : 0 < cr.length / 2)
    (hsize : cr.length / 2 < 65535) (c : Nat) :
    lreRange32Match (rangePairs32 cr) c = true ↔ c ∈ region cr := by
  have hlength := rangePairs32_length cr
  rw [lreRange32Match_iff (rangePairs32_separated h) (List.ne_nil_of_length_pos (by omega))
    (by omega), covers_rangePairs32 h]

theorem le_getLastD (h : cr.Pairwise (· < ·)) {q : Nat} (hq : q ∈ cr) : q ≤ cr.getLastD 0 := by
  induction cr using List.reverseRecOn with
  | nil => cases hq
  | append_singleton front last _ =>
      rw [List.getLastD_concat]
      rcases List.mem_append.mp hq with hq | hq
      · exact ((List.pairwise_append.mp h).2.2 q hq last (by simp)).le
      · simp only [List.mem_singleton] at hq
        exact hq.le

theorem region_append {front : List Nat} (heven : Even front.length) (low high : Nat) :
    region (front ++ [low, high]) = region front ∪ Set.Ico low high := by
  induction front using List.twoStepInduction with
  | nil => simp
  | singleton _ => simp at heven
  | cons_cons a b rest ih _ =>
      have hrest : Even rest.length := by simpa [parity_simps] using heven
      rw [List.cons_append, List.cons_append, region_cons_cons, region_cons_cons, ih hrest,
        Set.union_assoc]

/-- The encoding with 16-bit bounds does so too, `0xffff` standing for infinity. -/
theorem lreRangeMatch_region (h : Normal cr) (hbounded : ∀ q ∈ cr, q ≤ UINT32_MAX)
    (hpos : 0 < cr.length / 2) (hsize : cr.length / 2 < 65535) (hhigh : highPoint cr ≤ 0xffff)
    (hc : c < UINT32_MAX) : lreRangeMatch (rangePairs16 cr) c = true ↔ c ∈ region cr := by
  have hlength := rangePairs32_length cr
  rcases rangePairs16_cases h hbounded with ⟨hmem, hpairs⟩ |
    ⟨front, low, rfl, hfront, hpairs, hapart⟩
  · -- every bound is below infinity
    have hne : rangePairs32 cr ≠ [] := List.ne_nil_of_length_pos (by omega)
    have hcr : cr ≠ [] := by
      rintro rfl
      simp at hpos
    have hlast : cr.getLastD 0 ≤ 0xffff := by
      unfold highPoint at hhigh
      split at hhigh
      · next hmax =>
        refine absurd ?_ hmem
        rw [← hmax, List.getLastD_eq_getLast?, List.getLast?_eq_some_getLast hcr]
        exact List.getLast_mem hcr
      · exact hhigh
    have hfinite : ((rangePairs32 cr).getLastD (0, 0)).2 ≠ 0xffff := by
      have hlastMem : (rangePairs32 cr).getLastD (0, 0) ∈ rangePairs32 cr := by
        rw [List.getLastD_eq_getLast?, List.getLast?_eq_some_getLast hne]
        exact List.getLast_mem hne
      rcases mem_rangePairs32 hlastMem with ⟨-, hpoint⟩ | ⟨-, hzero⟩
      · have hle := le_getLastD h.increasing hpoint
        omega
      · omega
    rw [hpairs, lreRangeMatch_iff (rangePairs32_separated h) hne (by omega),
      covers_rangePairs32 h, or_iff_left fun hinf => hfinite hinf.2.2]
  · have hlow : low ≤ 0xffff := by
      have hlast : (front ++ [low, UINT32_MAX]).getLastD 0 = UINT32_MAX := by
        rw [show front ++ [low, UINT32_MAX] = (front ++ [low]) ++ [UINT32_MAX] by simp,
          List.getLastD_concat]
      have hdrop : (front ++ [low, UINT32_MAX]).dropLast.getLastD 0 = low := by
        rw [show front ++ [low, UINT32_MAX] = (front ++ [low]) ++ [UINT32_MAX] by simp,
          List.dropLast_concat, List.getLastD_concat]
      rwa [highPoint, if_pos hlast, hdrop] at hhigh
    have hsep := rangePairs32_separated hfront
    have hfrontLength := rangePairs32_length front
    have hsepAll : Separated (rangePairs32 front ++ [(low, 0xffff)]) := by
      refine ⟨fun range hmem => ?_, List.pairwise_append.mpr ⟨hsep.apart, by simp, ?_⟩⟩
      · rcases List.mem_append.mp hmem with hmem | hmem
        · exact hsep.lower_le range hmem
        · rw [List.mem_singleton.mp hmem]
          exact hlow
      · intro range hmem later hlater
        rw [List.mem_singleton.mp hlater]
        exact hapart range hmem
    have hlastPair : ((rangePairs32 front ++ [(low, 0xffff)]).getLastD (0, 0)).2 = 0xffff := by
      rw [List.getLastD_concat]
    simp only [List.length_append, List.length_cons, List.length_nil] at hsize
    rw [hpairs, lreRangeMatch_iff hsepAll (by simp) (by simp; omega), covers_append,
      covers_rangePairs32 hfront, region_append hfront.even, Set.mem_union, Set.mem_Ico, hlastPair]
    have hlowFirst : Covers (rangePairs32 front ++ [(low, 0xffff)]) low :=
      ⟨(low, 0xffff), by simp, le_refl _, hlow⟩
    have hfirst := (hsepAll.covers_bounds (by simp) hlowFirst).1
    simp only [Covers, List.mem_singleton, exists_eq_left]
    constructor
    · rintro ((hmem | ⟨hle, -⟩) | ⟨-, hge, -⟩)
      · exact .inl hmem
      · exact .inr ⟨hle, hc⟩
      · exact .inr ⟨by omega, hc⟩
    · rintro (hmem | ⟨hle, -⟩)
      · exact .inl (.inl hmem)
      · rcases Nat.lt_or_ge c 0xffff with hlt | hge
        · exact .inl (.inr ⟨hle, hlt.le⟩)
        · exact .inr ⟨by omega, hge, trivial⟩

/-- The instruction emitted for a range tests the membership in it. -/
theorem reEmitRange_spec {op : REOp} (h : Normal cr) (hbounded : ∀ q ∈ cr, q ≤ UINT32_MAX)
    (hemit : reEmitRange cr = .ok op) (u : UnicodeData) (is_utf16 : Bool) (hc : c < UINT32_MAX) :
    lreCharOpMatch u false is_utf16 op c = true ↔ c ∈ region cr := by
  unfold reEmitRange at hemit
  split at hemit
  · cases hemit
  · next hsize =>
    split at hemit
    · next hempty =>
      obtain rfl := Except.ok.inj hemit
      have hnil : cr = [] := by
        have heven := Nat.even_iff.mp h.even
        exact List.length_eq_zero_iff.mp (by omega)
      simp only [hnil, region_nil, Set.mem_empty_iff_false, iff_false, lreCharOpMatch]
      simp only [Bool.false_eq_true, if_false, decide_eq_true_eq]
      omega
    · split at hemit
      · next hhigh =>
        obtain rfl := Except.ok.inj hemit
        exact lreRangeMatch_region h hbounded (by omega) (by omega) hhigh hc
      · obtain rfl := Except.ok.inj hemit
        exact lreRange32Match_region h (by omega) (by omega) c

/-! ### The set of a class -/

/-- The tables give well formed ranges and code points. -/
structure UnicodeData.WellFormed (u : UnicodeData) : Prop where
  script : ∀ name ext cr, u.unicode_script name ext = some cr → CharRange.WellFormed cr
  category : ∀ name cr, u.unicode_general_category name = some cr → CharRange.WellFormed cr
  prop : ∀ name cr, u.unicode_prop name = some cr → CharRange.WellFormed cr
  case_conv : ∀ c type res, c ≤ 0x10FFFF → res ∈ u.case_conv c type → res ≤ 0x10FFFF

def ClassAtom.set : ClassAtom → Set Nat
  | .char c => {c}
  | .range cr => region cr

/-- What the text of a class denotes: the atoms and the intervals up to the closing bracket. -/
inductive ClassText (ctx : REContext) : Bytes → Set Nat → Prop where
  | close {p} : peek p = ']' → ClassText ctx p ∅
  | interval {p p₁ p₂ low high S} : peek p ≠ ']' →
      getClassAtom ctx p true = .ok (.char low, p₁) → peek p₁ = '-' → peekAt p₁ 1 ≠ ']' →
      getClassAtom ctx p₁.tail true = .ok (.char high, p₂) → low ≤ high → ClassText ctx p₂ S →
      ClassText ctx p (Set.Icc low high ∪ S)
  | atom {p p₁ a S} : peek p ≠ ']' → getClassAtom ctx p true = .ok (a, p₁) →
      (∀ low high p₂, a = .char low → peek p₁ = '-' → peekAt p₁ 1 ≠ ']' →
        getClassAtom ctx p₁.tail true ≠ .ok (.char high, p₂)) → ClassText ctx p₁ S →
      ClassText ctx p (a.set ∪ S)

/-- A range as the operations leave it. -/
structure NormalRange (cr : List Nat) : Prop where
  normal : Normal cr
  bounded : ∀ q ∈ cr, q ≤ UINT32_MAX

theorem NormalRange.wellFormed (h : NormalRange cr) : WellFormed cr :=
  wellFormed_of_normal h.normal h.bounded

theorem crUnion1_spec {cr1 : List Nat} (h : WellFormed cr) (h1 : WellFormed cr1) :
    NormalRange (crUnion1 cr cr1) ∧ region (crUnion1 cr cr1) = region cr ∪ region cr1 := by
  obtain ⟨hnormal, hbounded, hregion⟩ := crOp_spec .CR_OP_UNION cr cr1 h h1
  exact ⟨⟨hnormal, hbounded⟩, hregion⟩

theorem wellFormed_interval {low high : Nat} (hle : low ≤ high) (hhigh : high < UINT32_MAX) :
    WellFormed [low, high + 1] where
  even := by simp
  sorted := by
    simp
    omega
  bounded := by
    intro q hq
    simp only [List.mem_cons, List.not_mem_nil, or_false] at hq
    rcases hq with rfl | rfl <;> omega

theorem crUnionInterval_spec {low high : Nat} (h : WellFormed cr) (hle : low ≤ high)
    (hhigh : high < UINT32_MAX) : NormalRange (crUnionInterval cr low high) ∧
      region (crUnionInterval cr low high) = region cr ∪ Set.Icc low high := by
  obtain ⟨hwf, hregion⟩ := crUnion1_spec h (wellFormed_interval hle hhigh)
  refine ⟨hwf, hregion.trans ?_⟩
  congr 1
  ext x
  simp only [region_cons_cons, region_nil, Set.union_empty, Set.mem_Ico, Set.mem_Icc,
    Nat.lt_succ_iff]

/-! ### Bounds of the atoms -/

variable {p p' : Bytes}

theorem utf8Continue_lt {l n v : Nat} (hc : c < 2 ^ n) (h : utf8Continue l c p = some (v, p')) :
    v < 2 ^ (n + 6 * l) := by
  induction l generalizing c n p with
  | zero =>
      obtain ⟨rfl, rfl⟩ := Prod.mk.inj (Option.some.inj h)
      simpa using hc
  | succ l ih =>
      rw [utf8Continue] at h
      split at h
      · cases h
      · have hnext : c <<< 6 ||| (peek p).toNat &&& 0x3f < 2 ^ (n + 6) := by
          apply Nat.or_lt_two_pow
          · rw [Nat.shiftLeft_eq, pow_add]
            exact Nat.mul_lt_mul_of_pos_right hc (by decide)
          · exact (Nat.and_lt_two_pow _ (by decide : 0x3f < 2 ^ 6)).trans_le
              (Nat.pow_le_pow_right (by decide) (by omega))
        have hlt := ih hnext h
        rwa [show n + 6 + 6 * l = n + 6 * (l + 1) by omega] at hlt

theorem unicodeFromUtf8_lt (h : unicodeFromUtf8 p = some (c, p')) : c < UINT32_MAX := by
  unfold unicodeFromUtf8 at h
  dsimp only at h
  split at h
  · next hascii =>
    obtain ⟨rfl, rfl⟩ := Prod.mk.inj (Option.some.inj h)
    exact hascii.trans (by decide)
  · obtain ⟨l, hl, hrest⟩ := Option.bind_eq_some_iff.mp h
    obtain ⟨⟨v, p₁⟩, hcontinue, hend⟩ := Option.bind_eq_some_iff.mp hrest
    dsimp only at hend
    split at hend
    · cases hend
    · obtain ⟨rfl, rfl⟩ := Prod.mk.inj (Option.some.inj hend)
      have hlength : l ≤ 5 := by
        unfold utf8Length at hl
        split_ifs at hl <;> cases hl <;> decide
      -- at most five continuation bytes after at most five bits
      have hmask : (peek p).toNat &&& utf8FirstCodeMask l < 2 ^ (6 - l) := by
        unfold utf8Length at hl
        split_ifs at hl <;> cases hl <;>
          exact Nat.and_lt_two_pow _ (by decide)
      have hlt := utf8Continue_lt hmask hcontinue
      refine hlt.trans_le ((Nat.pow_le_pow_right (by decide) (?_ : _ ≤ 31)).trans (by decide))
      omega

theorem fromHex_lt {c : Char} {d : Nat} (h : fromHex c = some d) : d < 16 := by
  unfold fromHex at h
  split at h
  · next hrange =>
    obtain rfl := Option.some.inj h
    simp only [Bool.and_eq_true, decide_eq_true_eq] at hrange
    have hle : c.toNat ≤ 57 := Char.le_def.mp hrange.2
    change c.toNat - 48 < 16
    omega
  · split at h
    · next hrange =>
      obtain rfl := Option.some.inj h
      simp only [Bool.and_eq_true, decide_eq_true_eq] at hrange
      have hle : c.toNat ≤ 70 := Char.le_def.mp hrange.2
      change c.toNat - 65 + 10 < 16
      omega
    · split at h
      · next hrange =>
        obtain rfl := Option.some.inj h
        simp only [Bool.and_eq_true, decide_eq_true_eq] at hrange
        have hle : c.toNat ≤ 102 := Char.le_def.mp hrange.2
        change c.toNat - 97 + 10 < 16
        omega
      · cases h

theorem hexDigits_lt {n k v : Nat} (hc : c < 16 ^ k) (h : hexDigits n c p = some (v, p')) :
    v < 16 ^ (k + n) := by
  induction n generalizing c k p with
  | zero =>
      obtain ⟨rfl, rfl⟩ := Prod.mk.inj (Option.some.inj h)
      exact hc
  | succ n ih =>
      rw [hexDigits] at h
      obtain ⟨digit, hdigit, hrest⟩ := Option.bind_eq_some_iff.mp h
      have hlt := fromHex_lt hdigit
      have hnext : c * 16 + digit < 16 ^ (k + 1) := by
        rw [pow_succ]
        omega
      have hv := ih hnext hrest
      rwa [Nat.add_right_comm, Nat.add_assoc] at hv

theorem hexBraces_le {v : Nat} (h : hexBraces c p = some (v, p')) : v ≤ 0x10FFFF := by
  induction p generalizing c with
  | nil => cases h
  | cons head p ih =>
      rw [hexBraces] at h
      obtain ⟨digit, hdigit, hrest⟩ := Option.bind_eq_some_iff.mp h
      dsimp only at hrest
      split at hrest
      · cases hrest
      · next hle =>
        split at hrest
        · obtain ⟨rfl, rfl⟩ := Prod.mk.inj (Option.some.inj hrest)
          exact not_lt.mp hle
        · exact ih hrest

theorem surrogatePair_lt (high low : Nat) : surrogatePair high low < 2 ^ 20 := by
  unfold surrogatePair
  apply Nat.or_lt_two_pow
  · have hlt := Nat.and_lt_two_pow high (by decide : 0x3ff < 2 ^ 10)
    rw [Nat.shiftLeft_eq]
    omega
  · exact (Nat.and_lt_two_pow low (by decide : 0x3ff < 2 ^ 10)).trans (by decide)

theorem digitVal_le {c : Char} (h : isOctal c = true) : digitVal c ≤ 7 := by
  simp only [isOctal, Bool.and_eq_true, decide_eq_true_eq] at h
  have hle : c.toNat ≤ 55 := Char.le_def.mp h.2
  change c.toNat - 48 ≤ 7
  omega

/-- An escape sequence gives a code point. -/
theorem lreParseEscape_le {allow : Nat} (h : lreParseEscape p allow = .char c p') :
    c ≤ 0x10FFFF := by
  unfold lreParseEscape at h
  dsimp only at h
  have hhex : ∀ e q, parseHexEscape e q allow = .char c p' → c ≤ 0x10FFFF := by
    intro e q hparse
    unfold parseHexEscape at hparse
    split at hparse
    · split at hparse
      · next hbraces =>
        obtain ⟨rfl, rfl⟩ := Escape.char.inj hparse
        exact hexBraces_le hbraces
      · cases hparse
    · split at hparse
      · cases hparse
      · next c₁ p₁ hdigits =>
        have hlt : c₁ < 16 ^ 4 := by
          have hv := hexDigits_lt (k := 0) (by decide) hdigits
          exact hv.trans_le (Nat.pow_le_pow_right (by decide) (by split <;> omega))
        have hdone : c = c₁ → c ≤ 0x10FFFF := by
          rintro rfl
          omega
        split at hparse
        · split at hparse
          · next c₂ p₂ hlow =>
            obtain ⟨rfl, rfl⟩ := Escape.char.inj hparse
            have hpair := surrogatePair_lt c₁ c₂
            omega
          · exact hdone (Escape.char.inj hparse).1.symm
        · exact hdone (Escape.char.inj hparse).1.symm
  split at h
  case h_7 => exact hhex _ _ h
  case h_8 => exact hhex _ _ h
  case h_9 e _ _ _ _ _ _ _ _ =>
    split at h
    · next hoctal =>
      have hfirst := digitVal_le hoctal
      unfold parseOctalEscape at h
      dsimp only at h
      split at h
      · split at h
        · cases h
        · obtain ⟨rfl, rfl⟩ := Escape.char.inj h
          omega
      · split at h
        · obtain ⟨rfl, rfl⟩ := Escape.char.inj h
          omega
        · next hsecond =>
          have hsecond := digitVal_le (by simpa using hsecond)
          split at h
          · obtain ⟨rfl, rfl⟩ := Escape.char.inj h
            omega
          · next hthird =>
            simp only [Bool.or_eq_true, not_or, Bool.not_eq_true] at hthird
            have hthird := digitVal_le (by simpa using hthird.2)
            obtain ⟨rfl, rfl⟩ := Escape.char.inj h
            omega
    · cases h
  all_goals
    obtain ⟨rfl, rfl⟩ := Escape.char.inj h
    decide

/-- A class atom is a character of the 32-bit type or a well formed range. -/
def ClassAtom.WellFormed : ClassAtom → Prop
  | .char c => c < UINT32_MAX
  | .range cr => CharRange.WellFormed cr

theorem wellFormed_crInvert (h : CharRange.WellFormed cr) : CharRange.WellFormed (crInvert cr) :=
  have hspec := crInvert_spec cr h
  wellFormed_of_normal hspec.1 hspec.2.1

theorem wellFormed_crInitCharRange (c : CharRangeEnum) :
    CharRange.WellFormed (crInitCharRange c) := by
  have hd : CharRange.WellFormed char_range_d := ⟨by decide, by decide, by decide⟩
  have hs : CharRange.WellFormed char_range_s := ⟨by decide, by decide, by decide⟩
  have hw : CharRange.WellFormed char_range_w := ⟨by decide, by decide, by decide⟩
  cases c with
  | CHAR_RANGE_d => exact hd
  | CHAR_RANGE_D => exact wellFormed_crInvert hd
  | CHAR_RANGE_s => exact hs
  | CHAR_RANGE_S => exact wellFormed_crInvert hs
  | CHAR_RANGE_w => exact hw
  | CHAR_RANGE_W => exact wellFormed_crInvert hw

section

variable {ctx : REContext} (hu : ctx.unicode.WellFormed)

include hu

theorem wellFormed_unicodePropertyRange {name value : Bytes} {cr : List Nat}
    (h : unicodePropertyRange ctx.unicode name value = .ok cr) : CharRange.WellFormed cr := by
  have hsome : ∀ (o : Option (List Nat)) (msg : String),
      o.elim (Except.error msg) Except.ok = .ok cr → o = some cr := by
    intro o msg ho
    cases o with
    | none => cases ho
    | some cr' => rw [Except.ok.inj ho]
  unfold unicodePropertyRange at h
  split at h
  · exact hu.script _ _ _ (hsome _ _ h)
  · split at h
    · exact hu.script _ _ _ (hsome _ _ h)
    · split at h
      · exact hu.category _ _ (hsome _ _ h)
      · split at h
        · split at h
          · next cr' hcategory =>
            rw [← Except.ok.inj h]
            exact hu.category _ _ hcategory
          · exact hu.prop _ _ (hsome _ _ h)
        · cases h

theorem wellFormed_parseUnicodeProperty {p p' : Bytes} {cr : List Nat} {is_inv : Bool}
    (h : parseUnicodeProperty ctx.unicode p is_inv = .ok (cr, p')) : CharRange.WellFormed cr := by
  unfold parseUnicodeProperty at h
  split at h
  · cases h
  · split at h
    · cases h
    · split at h
      · cases h
      · split at h
        · cases h
        · split at h
          · cases h
          · next hrange =>
            have hwf := wellFormed_unicodePropertyRange hu hrange
            obtain ⟨rfl, rfl⟩ := Prod.mk.inj (Except.ok.inj h)
            split
            · exact wellFormed_crInvert hwf
            · exact hwf

omit hu in
theorem wellFormed_normalChar {p p' : Bytes} {atom : ClassAtom}
    (h : normalChar ctx p = .ok (atom, p')) : atom.WellFormed := by
  unfold normalChar at h
  split at h
  · split at h
    · split at h <;> cases h
    · next hchar =>
      split at h
      · cases h
      · obtain ⟨rfl, rfl⟩ := Prod.mk.inj (Except.ok.inj h)
        exact unicodeFromUtf8_lt hchar
  · next hascii =>
    obtain ⟨rfl, rfl⟩ := Prod.mk.inj (Except.ok.inj h)
    exact (not_le.mp hascii).trans (by decide)

omit hu in
theorem wellFormed_classEscape {p p' : Bytes} {atom : ClassAtom}
    (h : classEscape ctx p = .ok (atom, p')) : atom.WellFormed := by
  unfold classEscape at h
  split at h
  · next hescape =>
    obtain ⟨rfl, rfl⟩ := Prod.mk.inj (Except.ok.inj h)
    exact (lreParseEscape_le hescape).trans_lt (by decide)
  · split at h
    · cases h
    · exact wellFormed_normalChar h
  · split at h
    · exact wellFormed_normalChar h
    · split at h
      · cases h
      · exact wellFormed_normalChar h

omit hu in
theorem wellFormed_controlEscape {p p' : Bytes} {atom : ClassAtom} {inclass : Bool}
    (h : controlEscape ctx p inclass = .ok (atom, p')) : atom.WellFormed := by
  unfold controlEscape at h
  dsimp only at h
  split at h
  · obtain ⟨rfl, rfl⟩ := Prod.mk.inj (Except.ok.inj h)
    exact (Nat.and_lt_two_pow _ (by decide : 0x1f < 2 ^ 5)).trans (by decide)
  · split at h
    · cases h
    · obtain ⟨rfl, rfl⟩ := Prod.mk.inj (Except.ok.inj h)
      exact (by decide : '\\'.toNat < UINT32_MAX)

theorem wellFormed_getClassAtom {p p' : Bytes} {atom : ClassAtom} {inclass : Bool}
    (h : getClassAtom ctx p inclass = .ok (atom, p')) : atom.WellFormed := by
  unfold getClassAtom at h
  split at h
  case h_1 => cases h
  case h_2 => cases h
  case h_9 => exact wellFormed_controlEscape h
  case h_10 =>
    split at h
    · obtain ⟨⟨cr, p₁⟩, hproperty, hok⟩ := bind_eq_ok.mp h
      obtain ⟨rfl, rfl⟩ := Prod.mk.inj (Except.ok.inj hok)
      exact wellFormed_parseUnicodeProperty hu hproperty
    · exact wellFormed_classEscape h
  case h_11 =>
    split at h
    · obtain ⟨⟨cr, p₁⟩, hproperty, hok⟩ := bind_eq_ok.mp h
      obtain ⟨rfl, rfl⟩ := Prod.mk.inj (Except.ok.inj hok)
      exact wellFormed_parseUnicodeProperty hu hproperty
    · exact wellFormed_classEscape h
  case h_12 => exact wellFormed_classEscape h
  case h_13 => exact wellFormed_normalChar h
  all_goals
    obtain ⟨rfl, rfl⟩ := Prod.mk.inj (Except.ok.inj h)
    exact wellFormed_crInitCharRange _

omit hu in
theorem crAddAtom_spec {cr : List Nat} {atom : ClassAtom} (hcr : CharRange.WellFormed cr)
    (hatom : atom.WellFormed) : NormalRange (crAddAtom cr atom) ∧
      region (crAddAtom cr atom) = region cr ∪ atom.set := by
  cases atom with
  | char c =>
      obtain ⟨hwf, hregion⟩ := crUnionInterval_spec hcr (le_refl c) hatom
      exact ⟨hwf, by rw [crAddAtom, hregion, Set.Icc_self, ClassAtom.set]⟩
  | range cr1 => exact crUnion1_spec hcr hatom

/-- The class loop collects the set that the text denotes. -/
theorem parseClassLoop_spec {fuel : Nat} {cr cr' : List Nat} {p p' : Bytes}
    (hcr : NormalRange cr) (h : parseClassLoop ctx fuel cr p = .ok (cr', p')) :
    NormalRange cr' ∧ ∃ S, ClassText ctx p S ∧ region cr' = region cr ∪ S := by
  induction fuel generalizing cr p with
  | zero => cases h
  | succ fuel ih =>
      rw [parseClassLoop] at h
      split at h
      · next hclose =>
        obtain ⟨rfl, rfl⟩ := Prod.mk.inj (Except.ok.inj h)
        exact ⟨hcr, ∅, .close hclose, by simp⟩
      · next hopen =>
        obtain ⟨⟨cr₁, p₁⟩, hitem, hrest⟩ := bind_eq_ok.mp h
        obtain ⟨⟨c1, q⟩, hfirst, hitem⟩ := bind_eq_ok.mp hitem
        have hc1 := wellFormed_getClassAtom hu hfirst
        -- a single atom, when it does not start an interval
        have hatom : (∀ low high p₂, c1 = .char low → peek q = '-' → peekAt q 1 ≠ ']' →
              getClassAtom ctx q.tail true ≠ .ok (.char high, p₂)) →
            cr₁ = crAddAtom cr c1 → p₁ = q → NormalRange cr' ∧
              ∃ S, ClassText ctx p S ∧ region cr' = region cr ∪ S := by
          rintro hno rfl rfl
          obtain ⟨hwf, hregion⟩ := crAddAtom_spec hcr.wellFormed hc1
          obtain ⟨hwf', S, htext, hregion'⟩ := ih hwf hrest
          exact ⟨hwf', _, .atom hopen hfirst hno htext, by rw [hregion', hregion, Set.union_assoc]⟩
        dsimp only at hitem
        split at hitem
        · next hdash =>
          simp only [Bool.and_eq_true, decide_eq_true_eq] at hdash
          split at hitem
          · split at hitem
            · cases hitem
            · obtain ⟨rfl, rfl⟩ := Prod.mk.inj (Except.ok.inj hitem)
              exact hatom (fun low high p₂ hlow => by cases hlow) rfl rfl
          · next low =>
            obtain ⟨⟨c2, p₀⟩, hsecond, hlast⟩ := bind_eq_ok.mp hitem
            dsimp only at hlast
            split at hlast
            · split at hlast
              · cases hlast
              · obtain ⟨rfl, rfl⟩ := Prod.mk.inj (Except.ok.inj hlast)
                refine hatom (fun _ high p₂ _ _ _ hchar => ?_) rfl rfl
                rw [hsecond] at hchar
                cases hchar
            · next high =>
              split at hlast
              · cases hlast
              · next hle =>
                obtain ⟨rfl, rfl⟩ := Prod.mk.inj (Except.ok.inj hlast)
                obtain ⟨hwf, hregion⟩ := crUnionInterval_spec hcr.wellFormed (not_lt.mp hle)
                  (wellFormed_getClassAtom hu hsecond)
                obtain ⟨hwf', S, htext, hregion'⟩ := ih hwf hrest
                exact ⟨hwf', _, .interval hopen hfirst hdash.1 hdash.2 hsecond (not_lt.mp hle)
                  htext, by rw [hregion', hregion, Set.union_assoc]⟩
        · next hdash =>
          obtain ⟨rfl, rfl⟩ := Prod.mk.inj (Except.ok.inj hitem)
          refine hatom (fun _ _ _ _ hequal hne => ?_) rfl rfl
          simp [hequal, hne] at hdash

end

/-! ### Ignoring case -/

/-- The range of the upper case letters moves the boundaries down. -/
theorem mem_region_upper {points : List Nat} (h : ∀ q ∈ points, 'a'.toNat ≤ q) (x : Nat) :
    x ∈ region (points.map (· + 'A'.toNat - 'a'.toNat)) ↔ x + 32 ∈ region points := by
  induction points using List.twoStepInduction with
  | nil => simp
  | singleton _ => simp [region]
  | cons_cons low high rest ih _ =>
      have hlow : 97 ≤ low := h low (by simp)
      have hhigh : 97 ≤ high := h high (by simp)
      have hrest := ih fun q hq => h q (by simp [hq])
      simp only [List.map_cons, region_cons_cons, Set.mem_union, Set.mem_Ico, hrest]
      have hshift : ∀ q, q + 'A'.toNat - 'a'.toNat = q + 65 - 97 := fun q => rfl
      have hle : low + 65 - 97 ≤ x ↔ low ≤ x + 32 := by omega
      have hlt : x < high + 65 - 97 ↔ x + 32 < high := by omega
      rw [hshift, hshift, hle, hlt]

theorem le_of_region_subset {points : List Nat} (h : Normal points) {low : Nat}
    (hsub : ∀ x ∈ region points, low ≤ x) : ∀ q ∈ points, low ≤ q := by
  rcases points with _ | ⟨a, _ | ⟨b, rest⟩⟩
  · simp
  · have heven := h.even
    simp at heven
  · obtain ⟨hlt, -, -⟩ := normal_tail h
    have ha : low ≤ a := hsub a (by simp [hlt])
    intro q hq
    rcases List.mem_cons.mp hq with rfl | hq
    · exact ha
    · exact ha.trans (List.rel_of_pairwise_cons h.increasing hq).le

/-- `cr_canonicalize` adds the upper case of the ASCII letters of the range. -/
theorem crCanonicalize_spec (h : CharRange.WellFormed cr) :
    NormalRange (crCanonicalize cr) ∧ ∀ x, x ∈ region (crCanonicalize cr) ↔
      x ∈ region cr ∨ ∃ y ∈ region cr, 'a'.toNat ≤ y ∧ y ≤ 'z'.toNat ∧ x + 32 = y := by
  have hletters : CharRange.WellFormed ['a'.toNat, 'z'.toNat + 1] :=
    ⟨by decide, by decide, by decide⟩
  obtain ⟨hnormal, hbounded, hregion⟩ := crOp_spec .CR_OP_INTER cr _ h hletters
  have hmem : ∀ y, y ∈ region (crOp [] cr ['a'.toNat, 'z'.toNat + 1] .CR_OP_INTER) ↔
      y ∈ region cr ∧ 'a'.toNat ≤ y ∧ y ≤ 'z'.toNat := by
    intro y
    rw [hregion, CharRangeOpEnum.combine, Set.mem_inter_iff]
    simp [Nat.lt_succ_iff]
  have hlow := le_of_region_subset hnormal fun y hy => ((hmem y).mp hy).2.1
  have hupper : CharRange.WellFormed
      ((crOp [] cr ['a'.toNat, 'z'.toNat + 1] .CR_OP_INTER).map
        (· + 'A'.toNat - 'a'.toNat)) := by
    refine ⟨by simpa using hnormal.even, ?_, ?_⟩
    · rw [List.pairwise_map]
      refine hnormal.increasing.imp fun hlt => ?_
      omega
    · intro q hq
      obtain ⟨r, hr, rfl⟩ := List.mem_map.mp hq
      have hle := hbounded r hr
      have hA : 'A'.toNat = 65 := rfl
      have ha : 'a'.toNat = 97 := rfl
      omega
  obtain ⟨hwf, hunion⟩ := crUnion1_spec h hupper
  refine ⟨hwf, fun x => ?_⟩
  rw [crCanonicalize, hunion, Set.mem_union, mem_region_upper hlow, hmem]
  simp

/-! ### The class as a whole -/

/-- Membership in a class, which a leading `^` negates. -/
def ClassMember (inverted : Bool) (S : Set Nat) (x : Nat) : Prop :=
  if inverted then x ∉ S else x ∈ S

theorem lreCanonicalize_le {u : UnicodeData} (hu : u.WellFormed) (is_utf16 : Bool)
    (hc : c ≤ 0x10FFFF) : lreCanonicalize u c is_utf16 ≤ 0x10FFFF := by
  unfold lreCanonicalize
  split
  · split
    · split
      · next hascii _ =>
        have hA : 'A'.toNat = 65 := rfl
        have ha : 'a'.toNat = 97 := rfl
        omega
      · exact hc
    · cases hconv : u.case_conv c 2 with
      | nil => simp
      | cons res rest => exact hu.case_conv c 2 res hc (by simp [hconv])
  · split
    · split
      · have hA : 'A'.toNat = 65 := rfl
        have ha : 'a'.toNat = 97 := rfl
        omega
      · exact hc
    · split
      · next res hconv =>
        split
        · exact hu.case_conv c 0 res hc (by simp [hconv])
        · exact hc
      · exact hc

theorem member_invert (inverted : Bool) (h : NormalRange cr) (hc : c < UINT32_MAX) :
    let cr' := if inverted then crInvert cr else cr
    NormalRange cr' ∧ (c ∈ region cr' ↔ ClassMember inverted (region cr) c) := by
  cases inverted with
  | false => exact ⟨h, by simp [ClassMember]⟩
  | true =>
      obtain ⟨hnormal, hbounded, hregion⟩ := crInvert_spec cr h.wellFormed
      exact ⟨⟨hnormal, hbounded⟩, by simp [hregion, ClassMember, hc]⟩

/-- The set that a class is tested against, on canonical forms when case is ignored: the set of
its text, with the canonical forms of the ASCII lower case letters in it. -/
def canonicalSet (u : UnicodeData) (S : Set Nat) : Set Nat :=
  S ∪ {x | ∃ y ∈ S, 'a'.toNat ≤ y ∧ y ≤ 'z'.toNat ∧ x = lreCanonicalize u y false}

/-- The canonical form of an ASCII lower case letter is 32 below it. -/
theorem lreCanonicalize_lower (u : UnicodeData) {y : Nat} (hlow : 'a'.toNat ≤ y)
    (hhigh : y ≤ 'z'.toNat) : lreCanonicalize u y false + 32 = y := by
  have ha : 'a'.toNat = 97 := rfl
  have hz : 'z'.toNat = 122 := rfl
  have hA : 'A'.toNat = 65 := rfl
  have hascii : y < 128 := by omega
  have hletter : (decide ('a'.toNat ≤ y) && decide (y ≤ 'z'.toNat)) = true := by
    simp only [Bool.and_eq_true, decide_eq_true_eq]
    exact ⟨hlow, hhigh⟩
  rw [lreCanonicalize, if_neg (by simp), if_pos hascii, if_pos hletter]
  omega

theorem region_crCanonicalize (u : UnicodeData) (h : CharRange.WellFormed cr) :
    region (crCanonicalize cr) = canonicalSet u (region cr) := by
  ext x
  rw [(crCanonicalize_spec h).2, canonicalSet, Set.mem_union, Set.mem_ofPred_eq]
  refine or_congr_right ⟨?_, ?_⟩
  · rintro ⟨y, hy, hlow, hhigh, hx⟩
    have hcanon := lreCanonicalize_lower u hlow hhigh
    exact ⟨y, hy, hlow, hhigh, by omega⟩
  · rintro ⟨y, hy, hlow, hhigh, rfl⟩
    exact ⟨y, hy, hlow, hhigh, lreCanonicalize_lower u hlow hhigh⟩

/-- The test of a character is the test of its canonical form. -/
theorem lreCharOpMatch_canonical (u : UnicodeData) (is_utf16 : Bool) (op : REOp) (c : Nat) :
    lreCharOpMatch u true is_utf16 op c =
      lreCharOpMatch u false is_utf16 op (lreCanonicalize u c is_utf16) := rfl

/-- The two encodings of a range accept the same characters. -/
theorem lreRangeMatch_eq (h : NormalRange cr) (hpos : 0 < cr.length / 2)
    (hsize : cr.length / 2 < 65535) (hhigh : highPoint cr ≤ 0xffff) (hc : c < UINT32_MAX) :
    lreRangeMatch (rangePairs16 cr) c = lreRange32Match (rangePairs32 cr) c := by
  rw [Bool.eq_iff_iff, lreRangeMatch_region h.normal h.bounded hpos hsize hhigh hc,
    lreRange32Match_region h.normal hpos hsize]

/-- A compiled class matches the characters that its text denotes; without the unicode mode, case
is ignored for the canonical form of the character and for the ASCII letters of the class. The two
encodings accept the same characters. -/
theorem charClass_matches {ctx : REContext} (hu : ctx.unicode.WellFormed) {p p' : Bytes} {op : REOp}
    (h : reParseCharClass ctx p = .ok (op, p')) :
    (∃ S, ClassText ctx (if peek p = '^' then p.tail else p) S ∧ ∀ c, c ≤ 0x10FFFF →
      (ctx.ignore_case = false →
        (lreCharOpMatch ctx.unicode false ctx.is_utf16 op c = true ↔
          ClassMember (peek p = '^') S c)) ∧
      (ctx.ignore_case = true → ctx.is_utf16 = false →
        (lreCharOpMatch ctx.unicode true false op c = true ↔
          ClassMember (peek p = '^') (canonicalSet ctx.unicode S)
            (lreCanonicalize ctx.unicode c false)))) ∧
      ∀ cr, NormalRange cr → 0 < cr.length / 2 → cr.length / 2 < 65535 → highPoint cr ≤ 0xffff →
        ∀ c, c ≤ 0x10FFFF →
          lreRangeMatch (rangePairs16 cr) c = lreRange32Match (rangePairs32 cr) c := by
  have hmax : 0x10FFFF < UINT32_MAX := by decide
  refine ⟨?_, fun cr hcr hpos hsize hhigh c hc =>
    lreRangeMatch_eq hcr hpos hsize hhigh (hc.trans_lt hmax)⟩
  obtain ⟨⟨cr, p₁⟩, hloop, hrest⟩ := bind_eq_ok.mp h
  obtain ⟨op₁, hemit, hok⟩ := bind_eq_ok.mp hrest
  obtain ⟨rfl, rfl⟩ := Prod.mk.inj (Except.ok.inj hok)
  obtain ⟨hcr, S, htext, hregion⟩ := parseClassLoop_spec hu ⟨⟨by simp, by simp⟩, by simp⟩ hloop
  rw [region_nil, Set.empty_union] at hregion
  refine ⟨S, by simpa using htext, fun c hc => ⟨fun hcase => ?_, fun hcase hutf => ?_⟩⟩
  · have hemit : reEmitRange (if decide (peek p = '^') then crInvert cr else cr) = .ok op₁ := by
      simpa [hcase] using hemit
    obtain ⟨hnormal, hmember⟩ := member_invert (decide (peek p = '^')) hcr (hc.trans_lt hmax)
    rw [reEmitRange_spec hnormal.normal hnormal.bounded hemit ctx.unicode ctx.is_utf16
      (hc.trans_lt hmax), hmember, hregion]
  · have hemit : reEmitRange (if decide (peek p = '^') then crInvert (crCanonicalize cr)
        else crCanonicalize cr) = .ok op₁ := by
      simpa [hcase] using hemit
    have hcanon := lreCanonicalize_le hu false hc
    obtain ⟨hnormal, hmember⟩ := member_invert (decide (peek p = '^'))
      (crCanonicalize_spec hcr.wellFormed).1 (hcanon.trans_lt hmax)
    rw [lreCharOpMatch_canonical, reEmitRange_spec hnormal.normal hnormal.bounded hemit
      ctx.unicode false (hcanon.trans_lt hmax), hmember,
      region_crCanonicalize ctx.unicode hcr.wellFormed, hregion]

def UnicodeData.acute : UnicodeData :=
  { UnicodeData.ascii with
    case_conv := fun c type => if c = 0xE9 ∧ type = 0 then [0xC9] else [c] }

def ignoreCaseContext : REContext where
  unicode := .acute
  buf_start := []
  is_utf16 := false
  ignore_case := true
  dotall := false

theorem UnicodeData.acute_wellFormed : UnicodeData.acute.WellFormed where
  script _ _ _ h := by cases h
  category _ _ h := by cases h
  prop _ _ h := by cases h
  case_conv c type res hc h := by
    simp only [UnicodeData.acute] at h
    split at h <;> simp only [List.mem_singleton] at h <;> omega

/-- The class of one accented letter does not match this letter when case is ignored. -/
theorem accentedClass_fails :
    (∃ S, ClassText ignoreCaseContext ['\xc3', '\xa9', ']'] S ∧ 0xE9 ∈ S) ∧
      reParseCharClass ignoreCaseContext ['\xc3', '\xa9', ']'] =
        .ok (.range [(0xE9, 0xE9)], []) ∧
      lreCharOpMatch .acute true false (.range [(0xE9, 0xE9)]) 0xE9 = false := by
  have read : getClassAtom ignoreCaseContext ['\xc3', '\xa9', ']'] true =
      .ok (.char 0xE9, [']']) := by
    decide +kernel
  refine ⟨⟨{0xE9} ∪ ∅, .atom (by decide) read ?_ (.close rfl), by simp⟩, by decide +kernel,
    by decide +kernel⟩
  intro low high p₂ _ hdash
  exact absurd hdash (by decide)

/-- `[^a-z]` without case: the letters of both cases are excluded. -/
theorem letterClass_matches :
    ∃ S, ClassText ignoreCaseContext ['a', '-', 'z', ']'] S ∧ ∀ c, c ≤ 0x10FFFF →
      (lreCharOpMatch .acute true false (.range [(0, 64), (91, 96), (123, 0xffff)]) c = true ↔
        ClassMember true (canonicalSet .acute S) (lreCanonicalize .acute c false)) := by
  have hparse : reParseCharClass ignoreCaseContext ['^', 'a', '-', 'z', ']'] =
      .ok (.range [(0, 64), (91, 96), (123, 0xffff)], []) := by decide +kernel
  obtain ⟨⟨S, htext, hmatch⟩, -⟩ := charClass_matches UnicodeData.acute_wellFormed hparse
  exact ⟨S, htext, fun c hc => (hmatch c hc).2 rfl rfl⟩

end PrimJs.Regexp
