import PrimJs.Foundation.Boundaries

/-! Character ranges of `libunicode`: sets of code points as lists of boundaries. -/

namespace PrimJs.CharRange

open PrimJs.Boundaries

def UINT32_MAX : Nat := 2 ^ 32 - 1

inductive CharRangeOpEnum where
  | CR_OP_UNION
  | CR_OP_INTER
  | CR_OP_XOR
  deriving DecidableEq, Repr

/-- `is_in` in `cr_op`, from the parities of the two indices. -/
def CharRangeOpEnum.isIn : CharRangeOpEnum → Bool → Bool → Bool
  | .CR_OP_UNION, inA, inB => inA || inB
  | .CR_OP_INTER, inA, inB => inA && inB
  | .CR_OP_XOR, inA, inB => inA ^^ inB

/-- The inner loop of `cr_compress`: the last `j` whose interval is joined to the one at `i`. -/
def joinLast (pt : List Nat) (len : Nat) (j : Nat) : Nat :=
  if j + 3 < len ∧ pt[j + 1]? = pt[j + 2]? then joinLast pt len (j + 2) else j
  termination_by len - j

theorem le_joinLast (pt : List Nat) (len j : Nat) : j ≤ joinLast pt len j := by
  induction j using joinLast.induct pt len with
  | case1 j hjoin ih =>
      rw [joinLast, if_pos hjoin]
      omega
  | case2 j hstop => rw [joinLast, if_neg hstop]

/-- The outer loop of `cr_compress`: the intervals kept are written over the ones read. -/
def crCompressLoop (pt : List Nat) (len i k : Nat) : List Nat :=
  if i + 1 < len then
    if pt[i]? = pt[i + 1]? then
      crCompressLoop pt len (i + 2) k
    else
      let j := joinLast pt len i
      crCompressLoop ((pt.set k (pt.getD i 0)).set (k + 1) (pt.getD (j + 1) 0)) len (j + 2) (k + 2)
  else
    pt.take k
  termination_by len - i
  decreasing_by
    · omega
    · have hle := le_joinLast pt len i
      omega

def crCompress (pt : List Nat) : List Nat :=
  crCompressLoop pt pt.length 0 0

/-- Add the point `v` to `cr` if the in/out status changes. -/
def crAddIfChanged (op : CharRangeOpEnum) (a_idx b_idx : Nat) (v : Nat) (cr : List Nat) :
    List Nat :=
  if op.isIn (a_idx % 2 = 1) (b_idx % 2 = 1) ≠ decide (cr.length % 2 = 1) then cr ++ [v] else cr

/-- The loop of `cr_op`, on the points of the two ranges not yet taken and the number of those
taken. -/
def crOpLoop (op : CharRangeOpEnum) :
    (a b : List Nat) → (a_idx b_idx : Nat) → (cr : List Nat) → List Nat
  | [], [], _, _, cr => cr
  | v :: a, [], a_idx, b_idx, cr =>
      crOpLoop op a [] (a_idx + 1) b_idx (crAddIfChanged op (a_idx + 1) b_idx v cr)
  | [], v :: b, a_idx, b_idx, cr =>
      crOpLoop op [] b a_idx (b_idx + 1) (crAddIfChanged op a_idx (b_idx + 1) v cr)
  | v :: a, w :: b, a_idx, b_idx, cr =>
      if v < w then
        crOpLoop op a (w :: b) (a_idx + 1) b_idx (crAddIfChanged op (a_idx + 1) b_idx v cr)
      else if v = w then
        crOpLoop op a b (a_idx + 1) (b_idx + 1)
          (crAddIfChanged op (a_idx + 1) (b_idx + 1) v cr)
      else
        crOpLoop op (v :: a) b a_idx (b_idx + 1) (crAddIfChanged op a_idx (b_idx + 1) w cr)
  termination_by a b => a.length + b.length

def crOp (cr a b : List Nat) (op : CharRangeOpEnum) : List Nat :=
  crCompress (crOpLoop op a b 0 0 cr)

def crUnion1 (cr b : List Nat) : List Nat :=
  crOp [] cr b .CR_OP_UNION

def crUnionInterval (cr : List Nat) (c1 c2 : Nat) : List Nat :=
  crUnion1 cr [c1, c2 + 1]

def crInvert (cr : List Nat) : List Nat :=
  crCompress (0 :: cr ++ [UINT32_MAX])

/-! ### `cr_compress` -/

theorem getElem?_of_drop {pt rest : List Nat} {i v : Nat} (hdrop : pt.drop i = v :: rest) :
    pt[i]? = some v := by
  have h := @List.getElem?_drop _ pt i 0
  simpa [hdrop] using h.symm

theorem drop_succ_of_drop {pt rest : List Nat} {i v : Nat} (hdrop : pt.drop i = v :: rest) :
    pt.drop (i + 1) = rest := by
  rw [← List.drop_drop, hdrop]
  rfl

theorem joinLast_spec (pt : List Nat) (high : Nat) (rest : List Nat) (j : Nat)
    (hdrop : pt.drop (j + 1) = high :: rest) :
    pt[joinLast pt pt.length j + 1]? = some (absorb high rest).1 ∧
      pt.drop (joinLast pt pt.length j + 2) = (absorb high rest).2 := by
  have hhigh := getElem?_of_drop hdrop
  have hrest := drop_succ_of_drop hdrop
  have hlength := congrArg List.length hdrop
  rw [List.length_drop] at hlength
  induction high, rest using absorb.induct generalizing j with
  | case1 low high' rest ih =>
      have hlow := getElem?_of_drop hrest
      have hnext := drop_succ_of_drop hrest
      simp only [List.length_cons] at hlength
      rw [joinLast, if_pos ⟨by omega, hhigh.trans hlow.symm⟩, absorb, if_pos rfl]
      exact ih (j + 2) hnext (getElem?_of_drop hnext) (drop_succ_of_drop hnext)
        (by simp only [List.length_cons]; omega)
  | case2 high low high' rest hne =>
      have hlow := getElem?_of_drop hrest
      rw [joinLast, if_neg (by rw [hhigh, hlow]; simp [hne]), absorb, if_neg hne]
      exact ⟨hhigh, hrest⟩
  | case3 rest high hshort =>
      have hstop : ¬(j + 3 < pt.length) := by
        intro hlt
        rcases rest with _ | ⟨low, _ | ⟨high', rest⟩⟩
        · simp at hlength
          omega
        · simp at hlength
          omega
        · exact hshort low high' rest rfl
      rw [joinLast, if_neg (fun h => hstop h.1), absorb.eq_2 _ _ hshort]
      exact ⟨hhigh, hrest⟩

theorem take_set_set {pt : List Nat} {k : Nat} (low high : Nat) (hlt : k + 1 < pt.length) :
    ((pt.set k low).set (k + 1) high).take (k + 2) = pt.take k ++ [low, high] := by
  rw [List.take_succ_eq_append_getElem (by simp; omega),
    List.take_succ_eq_append_getElem (by simp; omega)]
  simp [List.take_set_of_le]

/-- What has been read is only written over after it has been read. -/
theorem crCompressLoop_eq (pt rest : List Nat) (i k : Nat) (hki : k ≤ i)
    (hile : i ≤ pt.length) (hdrop : pt.drop i = rest) :
    crCompressLoop pt pt.length i k = pt.take k ++ compress rest := by
  induction rest using compress.induct generalizing pt i k with
  | case1 low rest ih =>
      have hhigh := drop_succ_of_drop hdrop
      have hlength := congrArg List.length hdrop
      simp only [List.length_drop, List.length_cons] at hlength
      rw [crCompressLoop, if_pos (by omega),
        if_pos ((getElem?_of_drop hdrop).trans (getElem?_of_drop hhigh).symm), compress,
        if_pos rfl]
      exact ih pt (i + 2) k (by omega) (by omega) (drop_succ_of_drop hhigh)
  | case2 low high rest hne ih =>
      have hlow := getElem?_of_drop hdrop
      have hnext := drop_succ_of_drop hdrop
      have hhigh := getElem?_of_drop hnext
      have hlength := congrArg List.length hdrop
      simp only [List.length_drop, List.length_cons] at hlength
      have hij := le_joinLast pt pt.length i
      obtain ⟨hend, hleft⟩ := joinLast_spec pt high rest i hnext
      have hjlt : joinLast pt pt.length i + 1 < pt.length := by
        by_contra hge
        rw [List.getElem?_eq_none (by omega)] at hend
        cases hend
      rw [crCompressLoop, if_pos (by omega), if_neg (by rw [hlow, hhigh]; simpa using hne)]
      simp only [List.getD_eq_getElem?_getD, hlow, hend, Option.getD_some]
      generalize joinLast pt pt.length i = j at *
      have hstep := ih ((pt.set k low).set (k + 1) (absorb high rest).1) (j + 2) (k + 2)
        (by omega) (by simp; omega)
        (by rw [List.drop_set_of_lt (by omega), List.drop_set_of_lt (by omega), hleft])
      simp only [List.length_set] at hstep
      rw [hstep, take_set_set _ _ (by omega), compress, if_neg hne]
      simp
  | case3 rest hshort =>
      have hstop : ¬(i + 1 < pt.length) := by
        intro hlt
        have hlength := congrArg List.length hdrop
        rw [List.length_drop] at hlength
        rcases rest with _ | ⟨low, _ | ⟨high, rest⟩⟩
        · simp at hlength
          omega
        · simp at hlength
          omega
        · exact hshort low high rest rfl
      rw [crCompressLoop, if_neg hstop, compress.eq_2 _ hshort, List.append_nil]

theorem crCompress_eq (pt : List Nat) : crCompress pt = compress pt := by
  rw [crCompress, crCompressLoop_eq pt pt 0 0 (le_refl 0) (Nat.zero_le _) rfl]
  rfl

/-! ### `cr_op` -/

/-- The points written so far are in step with the points read: the range being written is
entered exactly where the operation on the two ranges holds. -/
def InStep (op : CharRangeOpEnum) (a_idx b_idx : Nat) (cr : List Nat) : Prop :=
  op.isIn (a_idx % 2 = 1) (b_idx % 2 = 1) = decide (cr.length % 2 = 1)

theorem crAddIfChanged_inStep (op : CharRangeOpEnum) (a_idx b_idx v : Nat) (cr : List Nat) :
    InStep op a_idx b_idx (crAddIfChanged op a_idx b_idx v cr) := by
  unfold InStep crAddIfChanged
  split
  · next hchanged =>
    rcases Nat.mod_two_eq_zero_or_one cr.length with h | h <;>
      simp_all [Nat.add_mod]
  · next hsame => simpa using hsame

/-- `res` continues `cr` with the points at which the operation changes over what is left of
the two ranges. -/
structure Merged (op : CharRangeOpEnum) (a b : List Nat) (a_idx b_idx : Nat)
    (cr out : List Nat) : Prop where
  mem : ∀ q ∈ out, q ∈ a ∨ q ∈ b
  sorted : out.Pairwise (· ≤ ·)
  parity : ∀ x, op.isIn ((a_idx + below x a) % 2 = 1) ((b_idx + below x b) % 2 = 1) =
    decide ((cr.length + below x out) % 2 = 1)

theorem Merged.of_step {op : CharRangeOpEnum} {a b a' b' : List Nat}
    {a_idx b_idx a_idx' b_idx' v : Nat} {cr out : List Nat}
    (hsync : InStep op a_idx b_idx cr)
    (hleast : ∀ q, q ∈ a ∨ q ∈ b → v ≤ q) (hmem : v ∈ a ∨ v ∈ b)
    (hrest : ∀ q, q ∈ a' ∨ q ∈ b' → q ∈ a ∨ q ∈ b)
    (hcount : ∀ x, v ≤ x → a_idx' + below x a' = a_idx + below x a ∧
      b_idx' + below x b' = b_idx + below x b)
    (merged : Merged op a' b' a_idx' b_idx' (crAddIfChanged op a_idx' b_idx' v cr) out) :
    ∃ added, crAddIfChanged op a_idx' b_idx' v cr = cr ++ added ∧
      Merged op a b a_idx b_idx cr (added ++ out) := by
  have hlater : ∀ q ∈ out, v ≤ q := fun q hq => hleast q (hrest q (merged.mem q hq))
  -- below `v` nothing happens, from `v` on the rest of the run accounts for everything
  have hbefore : ∀ x, x < v → ∀ points : List Nat, (∀ q ∈ points, v ≤ q) →
      below x points = 0 := fun x hx points hall =>
    below_eq_zero fun q hq => lt_of_lt_of_le hx (hall q hq)
  have hparity : ∀ added, crAddIfChanged op a_idx' b_idx' v cr = cr ++ added →
      (∀ q ∈ added, q = v) → Merged op a b a_idx b_idx cr (added ++ out) := by
    intro added hadded hall
    refine ⟨fun q hq => ?_, ?_, fun x => ?_⟩
    · rcases List.mem_append.mp hq with hq | hq
      · exact hall q hq ▸ hmem
      · exact hrest q (merged.mem q hq)
    · refine List.pairwise_append.mpr ⟨?_, merged.sorted, fun p hp q hq => ?_⟩
      · exact List.pairwise_of_forall_mem_list fun p hp q hq => by
          rw [hall p hp, hall q hq]
      · exact hall p hp ▸ hlater q hq
    · by_cases hx : v ≤ x
      · obtain ⟨hcountA, hcountB⟩ := hcount x hx
        have hparity := merged.parity x
        rw [hcountA, hcountB, hadded, List.length_append] at hparity
        rw [hparity, below_append,
          @below_eq_length _ _ x added fun q hq => hall q hq ▸ hx, Nat.add_assoc]
      · have hlt := not_le.mp hx
        rw [hbefore x hlt a fun q hq => hleast q (.inl hq),
          hbefore x hlt b fun q hq => hleast q (.inr hq),
          hbefore x hlt (added ++ out) fun q hq => ?_]
        · exact hsync
        · rcases List.mem_append.mp hq with hq | hq
          · exact (hall q hq).ge
          · exact hlater q hq
  by_cases hchanged :
      op.isIn (a_idx' % 2 = 1) (b_idx' % 2 = 1) ≠ decide (cr.length % 2 = 1)
  · have hadd : crAddIfChanged op a_idx' b_idx' v cr = cr ++ [v] := if_pos hchanged
    exact ⟨[v], hadd, hparity [v] hadd (by simp)⟩
  · have hadd : crAddIfChanged op a_idx' b_idx' v cr = cr ++ [] := by
      rw [List.append_nil]
      exact if_neg hchanged
    exact ⟨[], hadd, hparity [] hadd (by simp)⟩

theorem crOpLoop_merged (op : CharRangeOpEnum) (a b : List Nat) (a_idx b_idx : Nat)
    (cr : List Nat) (ha : a.Pairwise (· ≤ ·)) (hb : b.Pairwise (· ≤ ·))
    (hsync : InStep op a_idx b_idx cr) :
    ∃ out, crOpLoop op a b a_idx b_idx cr = cr ++ out ∧ Merged op a b a_idx b_idx cr out := by
  induction a, b, a_idx, b_idx, cr using crOpLoop.induct op with
  | case1 a_idx b_idx cr =>
      exact ⟨[], by simp [crOpLoop], by simp, by simp, fun x => by simpa [InStep] using hsync⟩
  | case2 v a a_idx b_idx cr ih =>
      obtain ⟨hleastA, ha'⟩ := List.pairwise_cons.mp ha
      obtain ⟨out, hout, merged⟩ := ih ha' hb (crAddIfChanged_inStep ..)
      obtain ⟨added, hadded, hmerged⟩ := merged.of_step (a := v :: a) (b := []) hsync
        (by grind) (by simp) (by grind) (fun x hx => by simp [hx]; omega)
      exact ⟨added ++ out, by rw [crOpLoop, hout, hadded, List.append_assoc], hmerged⟩
  | case3 v b a_idx b_idx cr ih =>
      obtain ⟨hleastB, hb'⟩ := List.pairwise_cons.mp hb
      obtain ⟨out, hout, merged⟩ := ih ha hb' (crAddIfChanged_inStep ..)
      obtain ⟨added, hadded, hmerged⟩ := merged.of_step (a := []) (b := v :: b) hsync
        (by grind) (by simp) (by grind) (fun x hx => by simp [hx]; omega)
      exact ⟨added ++ out, by rw [crOpLoop, hout, hadded, List.append_assoc], hmerged⟩
  | case4 v a w b a_idx b_idx cr hlt ih =>
      obtain ⟨hleastA, ha'⟩ := List.pairwise_cons.mp ha
      have hleastB := (List.pairwise_cons.mp hb).1
      obtain ⟨out, hout, merged⟩ := ih ha' hb (crAddIfChanged_inStep ..)
      obtain ⟨added, hadded, hmerged⟩ := merged.of_step (a := v :: a) (b := w :: b) hsync
        (by grind) (by simp) (by grind) (fun x hx => by simp [hx]; omega)
      exact ⟨added ++ out, by rw [crOpLoop, if_pos hlt, hout, hadded, List.append_assoc],
        hmerged⟩
  | case5 a v b a_idx b_idx cr hlt ih =>
      obtain ⟨hleastA, ha'⟩ := List.pairwise_cons.mp ha
      obtain ⟨hleastB, hb'⟩ := List.pairwise_cons.mp hb
      obtain ⟨out, hout, merged⟩ := ih ha' hb' (crAddIfChanged_inStep ..)
      obtain ⟨added, hadded, hmerged⟩ := merged.of_step (a := v :: a) (b := v :: b) hsync
        (by grind) (by simp) (by grind) (fun x hx => by simp [hx]; omega)
      exact ⟨added ++ out,
        by rw [crOpLoop, if_neg hlt, if_pos rfl, hout, hadded, List.append_assoc], hmerged⟩
  | case6 v a w b a_idx b_idx cr hlt hne ih =>
      have hleastA := (List.pairwise_cons.mp ha).1
      obtain ⟨hleastB, hb'⟩ := List.pairwise_cons.mp hb
      obtain ⟨out, hout, merged⟩ := ih ha hb' (crAddIfChanged_inStep ..)
      obtain ⟨added, hadded, hmerged⟩ := merged.of_step (a := v :: a) (b := w :: b) hsync
        (by grind) (by simp) (by grind) (fun x hx => by simp [hx]; omega)
      exact ⟨added ++ out,
        by rw [crOpLoop, if_neg hlt, if_neg hne, hout, hadded, List.append_assoc], hmerged⟩

/-! ### The set algebra -/

/-- A range as the operations receive it: an even number of points in increasing order, equal
points allowed, all of them values of the code's 32-bit type. -/
structure WellFormed (points : List Nat) : Prop where
  even : Even points.length
  sorted : points.Pairwise (· ≤ ·)
  bounded : ∀ q ∈ points, q ≤ UINT32_MAX

theorem WellFormed.mem_iff {points : List Nat} (h : WellFormed points) (x : Nat) :
    x ∈ region points ↔ below x points % 2 = 1 := by
  rw [mem_region_iff_odd_below x points h.sorted h.even, Nat.odd_iff]

/-- The operation on sets that `op` stands for. -/
def CharRangeOpEnum.combine : CharRangeOpEnum → Set Nat → Set Nat → Set Nat
  | .CR_OP_UNION, s, t => s ∪ t
  | .CR_OP_INTER, s, t => s ∩ t
  | .CR_OP_XOR, s, t => symmDiff s t

theorem CharRangeOpEnum.mem_combine (op : CharRangeOpEnum) (s t : Set Nat) (x : Nat)
    [Decidable (x ∈ s)] [Decidable (x ∈ t)] :
    x ∈ op.combine s t ↔ op.isIn (x ∈ s) (x ∈ t) = true := by
  cases op <;> simp [combine, isIn, Set.mem_symmDiff]
  tauto

theorem crOp_spec (op : CharRangeOpEnum) (a b : List Nat) (ha : WellFormed a)
    (hb : WellFormed b) :
    Normal (crOp [] a b op) ∧ (∀ q ∈ crOp [] a b op, q ≤ UINT32_MAX) ∧
      region (crOp [] a b op) = op.combine (region a) (region b) := by
  obtain ⟨out, hout, merged⟩ := crOpLoop_merged op a b 0 0 [] ha.sorted hb.sorted
    (by cases op <;> rfl)
  have hbounded : ∀ q ∈ out, q ≤ UINT32_MAX := fun q hq =>
    (merged.mem q hq).elim (ha.bounded q) (hb.bounded q)
  have heven : Even out.length := by
    have hparity := merged.parity UINT32_MAX
    rw [below_eq_length ha.bounded, below_eq_length hb.bounded, below_eq_length hbounded] at hparity
    have hla := Nat.even_iff.mp ha.even
    have hlb := Nat.even_iff.mp hb.even
    rw [Nat.even_iff]
    cases op <;> simpa [CharRangeOpEnum.isIn, hla, hlb] using hparity
  obtain ⟨hnormal, hsub, hregion⟩ := compress_spec out merged.sorted heven
  rw [List.nil_append] at hout
  rw [crOp, hout, crCompress_eq]
  refine ⟨hnormal, fun q hq => hbounded q (hsub q hq), ?_⟩
  rw [hregion]
  ext x
  classical
  have hparity := merged.parity x
  rw [mem_region_iff_odd_below x out merged.sorted heven, Nat.odd_iff, op.mem_combine]
  simp only [Nat.zero_add, List.length_nil] at hparity
  simp only [ha.mem_iff, hb.mem_iff, hparity, decide_eq_true_eq]

theorem WellFormed.region_subset {points : List Nat} (h : WellFormed points) :
    region points ⊆ Set.Iio UINT32_MAX := by
  intro x hx
  by_contra hge
  have hall : ∀ q ∈ points, q ≤ x := fun q hq => (h.bounded q hq).trans (not_lt.mp hge)
  rw [h.mem_iff, below_eq_length hall, Nat.even_iff.mp h.even] at hx
  cases hx

theorem crInvert_spec (cr : List Nat) (h : WellFormed cr) :
    Normal (crInvert cr) ∧ (∀ q ∈ crInvert cr, q ≤ UINT32_MAX) ∧
      region (crInvert cr) = Set.Iio UINT32_MAX \ region cr := by
  have heven : Even (0 :: cr ++ [UINT32_MAX]).length := by
    simpa [parity_simps] using h.even
  have hsorted : (0 :: cr ++ [UINT32_MAX]).Pairwise (· ≤ ·) := by
    refine List.pairwise_append.mpr ⟨List.pairwise_cons.mpr ⟨by simp, h.sorted⟩, by simp, ?_⟩
    intro p hp q hq
    rw [List.mem_singleton] at hq
    rcases List.mem_cons.mp hp with rfl | hp
    · exact Nat.zero_le _
    · exact hq ▸ h.bounded p hp
  obtain ⟨hnormal, hsub, hregion⟩ := compress_spec _ hsorted heven
  rw [crInvert, crCompress_eq]
  refine ⟨hnormal, fun q hq => ?_, ?_⟩
  · have hmem := hsub q hq
    simp only [List.cons_append, List.mem_cons, List.mem_append, List.not_mem_nil,
      or_false] at hmem
    rcases hmem with rfl | hmem | rfl
    · exact Nat.zero_le _
    · exact h.bounded q hmem
    · exact le_refl _
  · rw [hregion]
    ext x
    rw [mem_region_iff_odd_below x _ hsorted heven, Nat.odd_iff, Set.mem_sdiff, h.mem_iff,
      Set.mem_Iio, below_append]
    by_cases hx : UINT32_MAX ≤ x
    · have hall : ∀ q ∈ cr, q ≤ x := fun q hq => (h.bounded q hq).trans hx
      have hlength := Nat.even_iff.mp h.even
      simp [hx, below_eq_length hall]
      omega
    · simp [hx]
      omega

end PrimJs.CharRange

namespace PrimJs

open PrimJs.Boundaries CharRange

/-- A `CharRange` on which the operations may be called. -/
structure CharRange where
  points : List Nat
  wellFormed : WellFormed points

namespace CharRange

def set (cr : CharRange) : Set Nat := region cr.points

theorem wellFormed_of_normal {points : List Nat} (normal : Normal points)
    (hbounded : ∀ q ∈ points, q ≤ UINT32_MAX) : WellFormed points :=
  ⟨normal.even, normal.sorted, hbounded⟩

/-- `cr_op` into an empty range. -/
def op (a b : CharRange) (op : CharRangeOpEnum) : CharRange where
  points := crOp [] a.points b.points op
  wellFormed :=
    have h := crOp_spec op a.points b.points a.wellFormed b.wellFormed
    wellFormed_of_normal h.1 h.2.1

def invert (cr : CharRange) : CharRange where
  points := crInvert cr.points
  wellFormed :=
    have h := crInvert_spec cr.points cr.wellFormed
    wellFormed_of_normal h.1 h.2.1

theorem set_op (a b : CharRange) (op : CharRangeOpEnum) :
    (a.op b op).set = op.combine a.set b.set :=
  (crOp_spec op a.points b.points a.wellFormed b.wellFormed).2.2

theorem set_invert (cr : CharRange) : cr.invert.set = Set.Iio UINT32_MAX \ cr.set :=
  (crInvert_spec cr.points cr.wellFormed).2.2

theorem set_invert_invert (cr : CharRange) : cr.invert.invert.set = cr.set := by
  rw [set_invert, set_invert, sdiff_sdiff_right_self]
  exact Set.inter_eq_right.mpr cr.wellFormed.region_subset

/-- The operations are the set algebra on code points, and their results are normal. -/
theorem set_algebra (a b : CharRange) (op : CharRangeOpEnum) :
    ((a.op b op).set = op.combine a.set b.set ∧ Normal (a.op b op).points) ∧
      (a.invert.set = Set.Iio UINT32_MAX \ a.set ∧ Normal a.invert.points) ∧
      a.invert.invert.set = a.set :=
  ⟨⟨set_op a b op, (crOp_spec op a.points b.points a.wellFormed b.wellFormed).1⟩,
    ⟨set_invert a, (crInvert_spec a.points a.wellFormed).1⟩, set_invert_invert a⟩

/-- The results of the operations are canonical: the laws of sets hold of the boundary lists. -/
theorem operations_canonical (a b c : CharRange) (op : CharRangeOpEnum) :
    (a.op b op).points = (b.op a op).points ∧
      ((a.op b op).op c op).points = (a.op (b.op c op) op).points ∧
      (a.op b .CR_OP_UNION).invert.points = (a.invert.op b.invert .CR_OP_INTER).points ∧
      a.invert.invert.points = (a.op a .CR_OP_UNION).points := by
  have normal : ∀ (a b : CharRange) op, Normal (a.op b op).points := fun a b op =>
    (crOp_spec op a.points b.points a.wellFormed b.wellFormed).1
  have inverted : ∀ a : CharRange, Normal a.invert.points := fun a =>
    (crInvert_spec a.points a.wellFormed).1
  refine ⟨(normal a b op).unique (normal b a op) ?_, (normal _ c op).unique (normal a _ op) ?_,
    (inverted _).unique (normal _ _ .CR_OP_INTER) ?_, (inverted _).unique (normal a a .CR_OP_UNION) ?_⟩
  · rw [← set, ← set, set_op, set_op]
    cases op
    exacts [Set.union_comm _ _, Set.inter_comm _ _, symmDiff_comm _ _]
  · rw [← set, ← set, set_op, set_op, set_op, set_op]
    cases op
    exacts [Set.union_assoc _ _ _, Set.inter_assoc _ _ _, symmDiff_assoc _ _ _]
  · rw [← set, ← set, set_invert, set_op, set_op, set_invert, set_invert]
    exact Set.sdiff_inter_sdiff.symm
  · rw [← set, ← set, set_invert_invert, set_op]
    exact (Set.union_self _).symm

end CharRange

end PrimJs
