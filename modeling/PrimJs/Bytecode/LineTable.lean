import PrimJs.Inspector.PcLine

/-! The line table of a function: recording, encoding and lookup of line numbers. -/

namespace PrimJs.LineTable

def pc2lineDiffPcMax : Nat := (255 - pc2lineOpFirst) / pc2lineRange

structure LineNumberSlot where
  pc : BitVec 32
  lineNum : BitVec 64
  deriving DecidableEq, Repr

/-- The line numbers of a `JSFunctionDef`; `slots` are those in use of `line_number_slots`. -/
structure LineNumbers where
  allocated : Bool
  size : Nat
  slots : List LineNumberSlot
  last : Int
  lastPc : Int
  deriving DecidableEq, Repr

/-- The state before the code is resolved -/
def LineNumbers.init (allocated : Bool) (size : Nat) (lineNum : BitVec 32) : LineNumbers :=
  ⟨allocated, size, [], lineNum.toInt, 0⟩

def addPc2lineInfo (s : LineNumbers) (pc : BitVec 32) (lineNum : BitVec 64) : LineNumbers :=
  if s.allocated ∧ s.slots.length < s.size ∧ s.lastPc ≤ pc.toNat ∧ lineNum.toInt ≠ s.last then
    { s with slots := s.slots ++ [⟨pc, lineNum⟩], lastPc := pc.toNat, last := lineNum.toInt }
  else s

section Encoding

def dbufPutLeb128U64 (v : Nat) : List UInt8 := putLeb128Loop 10 (v % 2^64)

def dbufPutSleb128U64 (v1 : Int) : List UInt8 :=
  let v := (v1 % 2^64).toNat
  dbufPutLeb128U64 ((2 * v) % 2^64 ^^^ (if v / 2^63 = 1 then 2^64 - 1 else 0))

def shortEntry (diffPc : Nat) (diffLine : Int) : List UInt8 :=
  [UInt8.ofNat ((diffLine - pc2lineBase).toNat + diffPc * pc2lineRange + pc2lineOpFirst)]

def longEntry (diffPc : Nat) (diffLine : Int) : List UInt8 :=
  0 :: dbufPutLeb128U64 diffPc ++ dbufPutSleb128U64 diffLine

def fitsShort (diffPc : Nat) (diffLine : Int) : Bool :=
  pc2lineBase ≤ diffLine && diffLine < pc2lineBase + pc2lineRange && diffPc ≤ pc2lineDiffPcMax

/-- The loop of `compute_pc2line_info`. `diff_pc` is the difference of two `uint32_t`, so it is not
negative. -/
def encodeSlots (lastLineNum : Int) (lastPc : BitVec 32) : List LineNumberSlot → List UInt8
  | [] => []
  | slot :: slots =>
      let diffPc := (slot.pc - lastPc).toNat
      let diffLine := wrapInt64 (slot.lineNum.toInt - lastLineNum)
      if slot.lineNum.toInt < 0 ∨ diffLine = 0 then encodeSlots lastLineNum lastPc slots
      else
        (if fitsShort diffPc diffLine then shortEntry diffPc diffLine
          else longEntry diffPc diffLine) ++ encodeSlots slot.lineNum.toInt slot.pc slots

def computePc2lineInfo (strip : Bool) (s : LineNumbers) (lineNum : BitVec 32) : List UInt8 :=
  if ¬ strip ∧ s.allocated then encodeSlots lineNum.toInt 0#32 s.slots else []

end Encoding

section Lookup

/-- An entry of the table: the differences and the bytes after it, unless it is cut short. -/
def readEntry : List UInt8 → Option (Nat × Int × List UInt8)
  | [] => none
  | op :: p =>
      if op = 0 then
        match getLeb128U64 p with
        | none => none
        | some (val, p) =>
            match getLeb128U64 p with
            | none => none
            | some (v, p) => some (val, sleb128U64Value v, p)
      else
        let op := op.toNat - pc2lineOpFirst
        some (op / pc2lineRange, (op % pc2lineRange : Nat) + pc2lineBase, p)

/-- The loop of `find_line_num`. Each round consumes a byte. -/
def findLineLoop (ownLine : Int) (pcValue : BitVec 32) : Nat → List UInt8 → Int → Int → Int
  | 0, _, _, lineNum => lineNum
  | fuel + 1, p, pc, lineNum =>
      if p = [] then lineNum
      else
        match readEntry p with
        | none => ownLine
        | some (val, v, p) =>
            let pc := wrapInt32 (pc + val)
            -- `pc_value < pc` compares as `uint32_t`
            if pcValue.toNat < ofInt32 pc then lineNum
            else findLineLoop ownLine pcValue fuel p pc (wrapInt64 (lineNum + v))

/-- What `JS_CreateFunction` keeps of the buffer: reallocating to no bytes leaves no pointer. -/
def storedPc2lineBuf (pc2line : List UInt8) : Option (List UInt8) :=
  if pc2line = [] then none else some pc2line

def findLineNum (lineNum : BitVec 32) (pc2lineBuf : Option (List UInt8)) (pcValue : BitVec 32) :
    Int :=
  match pc2lineBuf with
  | none => -1
  | some buf => findLineLoop lineNum.toInt pcValue buf.length buf 0 lineNum.toInt

end Lookup

/-! ### Entries -/

theorem getLeb128U64_put {v : Nat} (small : v < 2^64) (rest : List UInt8) :
    getLeb128U64 (dbufPutLeb128U64 v ++ rest) = some (v, rest) := by
  have run := Leb128.get_put 64 10 0 0 v rest (by decide) (by omega) (by omega)
  have loop : ∀ (fuel i v : Nat) (buf : List UInt8),
      getLeb128U64Loop fuel i v buf = Leb128.get 64 fuel i v buf := by
    intro fuel
    induction fuel with
    | zero => intros; rfl
    | succ fuel ih =>
        intro i v buf
        cases buf with
        | nil => rfl
        | cons a rest => rw [getLeb128U64Loop, Leb128.get, ih]
  rw [getLeb128U64, dbufPutLeb128U64, Nat.mod_eq_of_lt small, putLeb128Loop_eq_put, loop, run]
  simp

/-- The value of an `int64_t` -/
def IsInt64 (v : Int) : Prop := -2^63 ≤ v ∧ v < 2^63

theorem toInt64_emod {v : Int} (fits : IsInt64 v) : toInt64 (v % 2^64).toNat = v := by
  obtain ⟨low, high⟩ := fits
  unfold toInt64
  split <;> omega

theorem wrapInt64_isInt64 (v : Int) : IsInt64 (wrapInt64 v) := by
  unfold wrapInt64 toInt64 IsInt64
  split <;> omega

theorem isInt64_toInt64 (v : BitVec 64) : IsInt64 v.toInt :=
  ⟨BitVec.le_toInt v, BitVec.toInt_lt⟩

theorem isInt64_toInt32 (v : BitVec 32) : IsInt64 v.toInt := by
  have low := BitVec.le_toInt v
  have high := BitVec.toInt_lt (x := v)
  unfold IsInt64
  omega

theorem dbufPutSleb128U64_eq (v : Int) :
    dbufPutSleb128U64 v = dbufPutLeb128U64 (Leb128.zigzag 64 (v % 2^64).toNat) := by
  rw [dbufPutSleb128U64, Leb128.zigzag]

theorem sleb128U64Value_eq (v : Nat) : sleb128U64Value v = toInt64 (Leb128.unzigzag 64 v) := by
  rw [sleb128U64Value, Leb128.unzigzag]

/-- A sign and a magnitude are read as they were written. -/
theorem getSleb128U64_put {v : Int} (fits : IsInt64 v) (rest : List UInt8) :
    ∃ z, getLeb128U64 (dbufPutSleb128U64 v ++ rest) = some (z, rest) ∧ sleb128U64Value z = v := by
  have small : (v % 2^64).toNat < 2^64 := by omega
  refine ⟨Leb128.zigzag 64 (v % 2^64).toNat, ?_, ?_⟩
  · rw [dbufPutSleb128U64_eq]
    exact getLeb128U64_put Leb128.zigzag_lt rest
  · rw [sleb128U64Value_eq, Leb128.unzigzag_zigzag (by decide) small]
    exact toInt64_emod fits

theorem readEntry_longEntry {diffPc : Nat} {diffLine : Int} (small : diffPc < 2^64)
    (fits : IsInt64 diffLine) (rest : List UInt8) :
    readEntry (longEntry diffPc diffLine ++ rest) = some (diffPc, diffLine, rest) := by
  obtain ⟨z, read, value⟩ := getSleb128U64_put fits rest
  have shape : longEntry diffPc diffLine ++ rest =
      0 :: (dbufPutLeb128U64 diffPc ++ (dbufPutSleb128U64 diffLine ++ rest)) := by
    simp [longEntry]
  rw [shape, readEntry, if_pos rfl, getLeb128U64_put small]
  dsimp only
  rw [read]
  simp [value]

theorem readEntry_shortEntry {diffPc : Nat} {diffLine : Int} (short : fitsShort diffPc diffLine)
    (rest : List UInt8) :
    readEntry (shortEntry diffPc diffLine ++ rest) = some (diffPc, diffLine, rest) := by
  simp only [fitsShort, Bool.and_eq_true, decide_eq_true_eq] at short
  obtain ⟨⟨low, high⟩, pcFits⟩ : (-1 ≤ diffLine ∧ diffLine < 4) ∧ diffPc ≤ 50 := short
  generalize value : (diffLine - pc2lineBase).toNat + diffPc * pc2lineRange + pc2lineOpFirst = op
  have exact_ : op = (diffLine + 1).toNat + diffPc * 5 + 1 := by
    rw [← value, pc2lineBase, pc2lineRange, pc2lineOpFirst, sub_neg_eq_add]
  have byte : (UInt8.ofNat op).toNat = op := by
    rw [UInt8.toNat_ofNat']
    omega
  have nonzero : UInt8.ofNat op ≠ 0 := by
    intro zero
    have read := congrArg UInt8.toNat zero
    rw [byte] at read
    exact absurd (exact_.symm.trans read) (Nat.succ_ne_zero _)
  have quotient : (op - pc2lineOpFirst) / pc2lineRange = diffPc := by
    unfold pc2lineOpFirst pc2lineRange
    omega
  have remainder : (((op - pc2lineOpFirst) % pc2lineRange : Nat) : Int) + pc2lineBase = diffLine := by
    unfold pc2lineOpFirst pc2lineRange pc2lineBase
    omega
  rw [shortEntry, value, List.singleton_append, readEntry, if_neg nonzero, byte]
  dsimp only
  rw [quotient, remainder]

theorem getLeb128U64_suffix {buf rest : List UInt8} {v : Nat}
    (read : getLeb128U64 buf = some (v, rest)) : ∃ used, used ≠ [] ∧ buf = used ++ rest := by
  have loop : ∀ (fuel i acc : Nat) (buf : List UInt8),
      getLeb128U64Loop fuel i acc buf = some (v, rest) → ∃ used, used ≠ [] ∧ buf = used ++ rest := by
    intro fuel
    induction fuel with
    | zero => intro i acc buf read; cases read
    | succ fuel ih =>
        intro i acc buf read
        cases buf with
        | nil => cases read
        | cons a tail =>
            rw [getLeb128U64Loop] at read
            split at read
            · cases read
              exact ⟨[a], by simp, rfl⟩
            · obtain ⟨used, -, rfl⟩ := ih _ _ _ read
              exact ⟨a :: used, by simp, rfl⟩
  exact loop 10 0 0 buf read

/-- An entry is made of the first bytes of what is left. -/
theorem readEntry_suffix {p rest : List UInt8} {val : Nat} {v : Int}
    (read : readEntry p = some (val, v, rest)) : ∃ used, used ≠ [] ∧ p = used ++ rest := by
  cases p with
  | nil => cases read
  | cons op p =>
      rw [readEntry] at read
      split at read
      · split at read
        · cases read
        · next first =>
          split at read
          · cases read
          · next second =>
            cases read
            obtain ⟨pcBytes, -, rfl⟩ := getLeb128U64_suffix first
            obtain ⟨lineBytes, -, rfl⟩ := getLeb128U64_suffix second
            exact ⟨op :: (pcBytes ++ lineBytes), by simp, by simp⟩
      · cases read
        exact ⟨[op], by simp, rfl⟩

/-! ### Lookup in a table of sorted slots -/

/-- The slots of the encoder: those before the function are skipped. -/
def retained (slots : List LineNumberSlot) : List LineNumberSlot :=
  slots.filter fun slot => 0 ≤ slot.lineNum.toInt

/-- The line of the last retained slot whose position is at most the query -/
def lineAt (ownLine : Int) (pcValue : BitVec 32) (slots : List LineNumberSlot) : Int :=
  match ((retained slots).filter fun slot => slot.pc.toNat ≤ pcValue.toNat).getLast? with
  | some slot => slot.lineNum.toInt
  | none => ownLine

def SortedFrom (lastPc : BitVec 32) (slots : List LineNumberSlot) : Prop :=
  (lastPc :: slots.map LineNumberSlot.pc).Pairwise fun a b => a.toNat ≤ b.toNat

variable {lastLine ownLine : Int} {lastPc pcValue : BitVec 32} {slot : LineNumberSlot}
  {slots : List LineNumberSlot}

section

variable (sorted : SortedFrom lastPc (slot :: slots))

include sorted

theorem SortedFrom.tail : SortedFrom slot.pc slots :=
  (List.pairwise_cons.mp sorted).2

theorem SortedFrom.head_le : lastPc.toNat ≤ slot.pc.toNat := by
  apply (List.pairwise_cons.mp sorted).1
  simp

theorem SortedFrom.skip : SortedFrom lastPc slots := by
  apply List.pairwise_cons.mpr
  refine ⟨fun pc later => ?_, (List.pairwise_cons.mp sorted.tail).2⟩
  exact sorted.head_le.trans ((List.pairwise_cons.mp sorted.tail).1 pc later)

end

theorem lineAt_cons_skipped (negative : slot.lineNum.toInt < 0) :
    lineAt lastLine pcValue (slot :: slots) = lineAt lastLine pcValue slots := by
  rw [lineAt, lineAt, retained, List.filter_cons_of_neg (by simpa using negative), retained]

theorem lineAt_cons_reached (kept : 0 ≤ slot.lineNum.toInt)
    (reached : slot.pc.toNat ≤ pcValue.toNat) :
    lineAt lastLine pcValue (slot :: slots) = lineAt slot.lineNum.toInt pcValue slots := by
  have head : (retained (slot :: slots)).filter (fun slot => slot.pc.toNat ≤ pcValue.toNat) =
      slot :: (retained slots).filter fun slot => slot.pc.toNat ≤ pcValue.toNat := by
    rw [retained, List.filter_cons_of_pos (by simpa using kept),
      List.filter_cons_of_pos (by simpa using reached), retained]
  rw [lineAt, head, List.getLast?_cons, lineAt]
  cases ((retained slots).filter fun slot => slot.pc.toNat ≤ pcValue.toNat).getLast? <;> rfl

theorem lineAt_beyond (sorted : SortedFrom lastPc slots) (beyond : pcValue.toNat < lastPc.toNat) :
    lineAt lastLine pcValue slots = lastLine := by
  have none_ : (retained slots).filter (fun slot => slot.pc.toNat ≤ pcValue.toNat) = [] := by
    apply List.filter_eq_nil_iff.mpr
    intro slot member
    have later := (List.pairwise_cons.mp sorted).1 slot.pc
      (List.mem_map_of_mem (List.mem_of_mem_filter member))
    rw [decide_eq_true_eq]
    omega
  rw [lineAt, none_]
  rfl

theorem lineAt_cons_before (sorted : SortedFrom lastPc (slot :: slots))
    (before : pcValue.toNat < slot.pc.toNat) :
    lineAt lastLine pcValue (slot :: slots) = lastLine := by
  have none_ : (retained (slot :: slots)).filter (fun slot => slot.pc.toNat ≤ pcValue.toNat) =
      [] := by
    apply List.filter_eq_nil_iff.mpr
    intro other member
    rw [decide_eq_true_eq]
    obtain rfl | later := List.mem_cons.mp (List.mem_of_mem_filter member)
    · omega
    · have above := (List.pairwise_cons.mp sorted.tail).1 other.pc (List.mem_map_of_mem later)
      omega
  rw [lineAt, none_]
  rfl

/-- A slot on the line before it changes no answer. -/
theorem lineAt_cons_same (sorted : SortedFrom lastPc (slot :: slots))
    (kept : 0 ≤ slot.lineNum.toInt) (same : slot.lineNum.toInt = lastLine) :
    lineAt lastLine pcValue (slot :: slots) = lineAt lastLine pcValue slots := by
  by_cases reached : slot.pc.toNat ≤ pcValue.toNat
  · rw [lineAt_cons_reached kept reached, same]
  · rw [lineAt_cons_before sorted (by omega), lineAt_beyond sorted.tail (by omega)]

theorem wrapInt64_sub_eq_zero {a b : Int} (fitsA : IsInt64 a) (fitsB : IsInt64 b)
    (zero : wrapInt64 (a - b) = 0) : a = b := by
  unfold wrapInt64 toInt64 at zero
  unfold IsInt64 at fitsA fitsB
  split at zero <;> omega

theorem wrapInt64_add_sub {a b : Int} (fits : IsInt64 a) : wrapInt64 (b + wrapInt64 (a - b)) = a := by
  have congruent : (b + wrapInt64 (a - b)) % 2^64 = a % 2^64 := by
    unfold wrapInt64 toInt64
    split <;> omega
  rw [wrapInt64, congruent]
  exact toInt64_emod fits

theorem ofInt32_wrapInt32 (v : Int) : ofInt32 (wrapInt32 v) = ofInt32 v := by
  unfold wrapInt32 toInt32 ofInt32
  split <;> omega

/-- The position after an entry is that of its slot. -/
theorem ofInt32_add_sub {pc : Int} {a b : BitVec 32} (here : ofInt32 pc = a.toNat) :
    ofInt32 (wrapInt32 (pc + ((b - a).toNat : Nat))) = b.toNat := by
  have below := b.isLt
  have below' := a.isLt
  rw [ofInt32_wrapInt32, BitVec.toNat_sub]
  unfold ofInt32 at here ⊢
  omega

theorem encodeSlots_cons_kept (lastPc : BitVec 32) (slots : List LineNumberSlot)
    (kept : 0 ≤ slot.lineNum.toInt)
    (moved : wrapInt64 (slot.lineNum.toInt - lastLine) ≠ 0) :
    ∃ entry : List UInt8, entry ≠ [] ∧
      encodeSlots lastLine lastPc (slot :: slots) =
        entry ++ encodeSlots slot.lineNum.toInt slot.pc slots ∧
      ∀ rest, readEntry (entry ++ rest) =
        some ((slot.pc - lastPc).toNat, wrapInt64 (slot.lineNum.toInt - lastLine), rest) := by
  have written : ¬(slot.lineNum.toInt < 0 ∨ wrapInt64 (slot.lineNum.toInt - lastLine) = 0) := by
    rintro (negative | zero)
    · omega
    · exact moved zero
  by_cases short : fitsShort (slot.pc - lastPc).toNat (wrapInt64 (slot.lineNum.toInt - lastLine))
  · refine ⟨shortEntry _ _, ?_, ?_, readEntry_shortEntry short⟩
    · simp [shortEntry]
    · rw [encodeSlots, if_neg written, if_pos short]
  · have small := (slot.pc - lastPc).isLt
    refine ⟨longEntry _ _, ?_, ?_, readEntry_longEntry (by omega) (wrapInt64_isInt64 _)⟩
    · simp [longEntry]
    · rw [encodeSlots, if_neg written, if_neg short]

theorem findLineLoop_encodeSlots (slots : List LineNumberSlot) (fuel : Nat) {pc : Int}
    (sorted : SortedFrom lastPc slots) (fits : IsInt64 lastLine) (here : ofInt32 pc = lastPc.toNat)
    (enough : (encodeSlots lastLine lastPc slots).length ≤ fuel) :
    findLineLoop ownLine pcValue fuel (encodeSlots lastLine lastPc slots) pc lastLine =
      lineAt lastLine pcValue slots := by
  induction slots generalizing fuel lastLine lastPc pc with
  | nil => cases fuel <;> rfl
  | cons slot slots ih =>
      by_cases negative : slot.lineNum.toInt < 0
      · have skipped : encodeSlots lastLine lastPc (slot :: slots) =
            encodeSlots lastLine lastPc slots := by
          rw [encodeSlots, if_pos (.inl negative)]
        rw [lineAt_cons_skipped negative]
        rw [skipped] at enough ⊢
        exact ih fuel sorted.skip fits here enough
      · by_cases zero : wrapInt64 (slot.lineNum.toInt - lastLine) = 0
        · have skipped : encodeSlots lastLine lastPc (slot :: slots) =
              encodeSlots lastLine lastPc slots := by
            rw [encodeSlots, if_pos (.inr zero)]
          have same := wrapInt64_sub_eq_zero (isInt64_toInt64 slot.lineNum) fits zero
          rw [lineAt_cons_same sorted (by omega) same]
          rw [skipped] at enough ⊢
          exact ih fuel sorted.skip fits here enough
        · obtain ⟨entry, nonempty, split, read⟩ :=
            encodeSlots_cons_kept lastPc slots (by omega) zero
          have bytes : 0 < entry.length := List.length_pos_of_ne_nil nonempty
          rw [split, List.length_append] at enough
          obtain ⟨fuel, rfl⟩ : ∃ f, fuel = f + 1 := ⟨fuel - 1, by omega⟩
          have there : ofInt32 (wrapInt32 (pc + ((slot.pc - lastPc).toNat : Nat))) =
              slot.pc.toNat := ofInt32_add_sub here
          rw [split, findLineLoop, if_neg (by simp [nonempty]), read]
          dsimp only
          rw [there]
          by_cases before : pcValue.toNat < slot.pc.toNat
          · rw [if_pos before, lineAt_cons_before sorted before]
          · rw [if_neg before, lineAt_cons_reached (by omega) (by omega),
              wrapInt64_add_sub (isInt64_toInt64 slot.lineNum)]
            exact ih fuel sorted.tail (isInt64_toInt64 slot.lineNum) there (by omega)

/-- The table is empty when no retained slot leaves the line it starts from. -/
theorem encodeSlots_eq_nil (lastPc : BitVec 32) (slots : List LineNumberSlot)
    (fits : IsInt64 lastLine) :
    encodeSlots lastLine lastPc slots = [] ↔
      ∀ slot ∈ retained slots, slot.lineNum.toInt = lastLine := by
  induction slots with
  | nil => simp [encodeSlots, retained]
  | cons slot slots ih =>
      by_cases negative : slot.lineNum.toInt < 0
      · rw [encodeSlots, if_pos (.inl negative), ih, retained, retained,
          List.filter_cons_of_neg (by simpa using negative)]
      · have kept : retained (slot :: slots) = slot :: retained slots := by
          rw [retained, List.filter_cons_of_pos (by simpa using negative), retained]
        by_cases zero : wrapInt64 (slot.lineNum.toInt - lastLine) = 0
        · have same := wrapInt64_sub_eq_zero (isInt64_toInt64 slot.lineNum) fits zero
          rw [encodeSlots, if_pos (.inr zero), ih, kept]
          simp [same]
        · obtain ⟨entry, nonempty, split, -⟩ :=
            encodeSlots_cons_kept lastPc slots (by omega) zero
          have moved : slot.lineNum.toInt ≠ lastLine := by
            intro same
            apply zero
            rw [same, sub_self]
            rfl
          rw [split, kept]
          simp [nonempty, moved]

/-! ### Recording -/

/-- The slots after a sequence of calls of `add_pc2line_info` -/
def recordLines (allocated : Bool) (size : Nat) (lineNum : BitVec 32)
    (calls : List (BitVec 32 × BitVec 64)) : LineNumbers :=
  calls.foldl (fun s call => addPc2lineInfo s call.1 call.2) (.init allocated size lineNum)

/-- The slots are sorted, and `line_number_last_pc` is at their end. -/
structure LineNumbers.Sorted (s : LineNumbers) : Prop where
  pairwise : s.slots.Pairwise fun a b => a.pc.toNat ≤ b.pc.toNat
  last : ∀ slot ∈ s.slots, (slot.pc.toNat : Int) ≤ s.lastPc
  unallocated : s.allocated = false → s.slots = []

theorem addPc2lineInfo_sorted {s : LineNumbers} (sorted : s.Sorted) (pc : BitVec 32)
    (lineNum : BitVec 64) : (addPc2lineInfo s pc lineNum).Sorted := by
  unfold addPc2lineInfo
  split
  · next recorded =>
    refine ⟨?_, ?_, ?_⟩
    · apply List.pairwise_append.mpr
      refine ⟨sorted.pairwise, List.pairwise_singleton _ _, fun a member b last => ?_⟩
      rw [List.mem_singleton.mp last]
      have below := sorted.last a member
      dsimp only
      omega
    · intro slot member
      obtain earlier | new := List.mem_append.mp member
      · have below := sorted.last slot earlier
        dsimp only
        omega
      · rw [List.mem_singleton.mp new]
    · intro missing
      have present : s.allocated = true := recorded.1
      exact absurd (present.symm.trans missing) (by decide)
  · exact sorted

theorem recordLines_sorted (allocated : Bool) (size : Nat) (lineNum : BitVec 32)
    (calls : List (BitVec 32 × BitVec 64)) :
    (recordLines allocated size lineNum calls).Sorted := by
  have run : ∀ (calls : List (BitVec 32 × BitVec 64)) (s : LineNumbers), s.Sorted →
      (calls.foldl (fun s call => addPc2lineInfo s call.1 call.2) s).Sorted := by
    intro calls
    induction calls with
    | nil => exact fun s sorted => sorted
    | cons call calls ih => exact fun s sorted => ih _ (addPc2lineInfo_sorted sorted call.1 call.2)
  exact run calls _ ⟨List.Pairwise.nil, fun _ member => (List.not_mem_nil member).elim, fun _ => rfl⟩

theorem computePc2lineInfo_eq {s : LineNumbers} (sorted : s.Sorted) (lineNum : BitVec 32) :
    computePc2lineInfo false s lineNum = encodeSlots lineNum.toInt 0#32 s.slots := by
  cases allocated : s.allocated with
  | true => simp [computePc2lineInfo, allocated]
  | false => simp [computePc2lineInfo, allocated, sorted.unallocated allocated, encodeSlots]

/-- A table that is there gives every position its line. -/
theorem findLineLoop_table {s : LineNumbers} (sorted : s.Sorted) (lineNum pcValue : BitVec 32) :
    let buf := computePc2lineInfo false s lineNum
    findLineLoop lineNum.toInt pcValue buf.length buf 0 lineNum.toInt =
      lineAt lineNum.toInt pcValue s.slots := by
  have from_ : SortedFrom 0#32 s.slots := by
    apply List.pairwise_cons.mpr
    refine ⟨fun pc _ => Nat.zero_le _, ?_⟩
    exact List.pairwise_map.mpr sorted.pairwise
  rw [computePc2lineInfo_eq sorted]
  exact findLineLoop_encodeSlots s.slots _ from_ (isInt64_toInt32 lineNum) rfl le_rfl

/-- Recorded lines are found again exactly when the table is not empty, unless the function's own
line is the -1 of a stripped one. -/
theorem findLineNum_recorded (allocated : Bool) (size : Nat) (lineNum : BitVec 32)
    (calls : List (BitVec 32 × BitVec 64)) (pcValue : BitVec 32) :
    (findLineNum lineNum (storedPc2lineBuf
        (computePc2lineInfo false (recordLines allocated size lineNum calls) lineNum)) pcValue =
      lineAt lineNum.toInt pcValue (recordLines allocated size lineNum calls).slots ↔
        (∃ slot ∈ retained (recordLines allocated size lineNum calls).slots,
          slot.lineNum.toInt ≠ lineNum.toInt) ∨ lineNum.toInt = -1) ∧
    (∀ (diffPc : Nat) (diffLine : Int), diffPc < 2^64 → IsInt64 diffLine →
      ∀ rest, readEntry (longEntry diffPc diffLine ++ rest) = some (diffPc, diffLine, rest) ∧
        (fitsShort diffPc diffLine →
          readEntry (shortEntry diffPc diffLine ++ rest) = some (diffPc, diffLine, rest))) ∧
    ∀ (p rest : List UInt8) (val : Nat) (v : Int), readEntry p = some (val, v, rest) →
      ∃ used, used ≠ [] ∧ p = used ++ rest := by
  refine ⟨?_, fun diffPc diffLine small fits rest => ?_, fun p rest val v => readEntry_suffix⟩
  · have sorted := recordLines_sorted allocated size lineNum calls
    have found := findLineLoop_table sorted lineNum pcValue
    have empty := encodeSlots_eq_nil 0#32 (recordLines allocated size lineNum calls).slots
      (isInt64_toInt32 lineNum)
    rw [← computePc2lineInfo_eq sorted] at empty
    generalize computePc2lineInfo false (recordLines allocated size lineNum calls) lineNum = buf
      at found empty
    by_cases none_ : buf = []
    · have own := empty.mp none_
      have noSlot : ¬∃ slot ∈ retained (recordLines allocated size lineNum calls).slots,
          slot.lineNum.toInt ≠ lineNum.toInt := by
        rintro ⟨slot, member, differs⟩
        exact differs (own slot member)
      subst none_
      rw [← found]
      simp only [noSlot, false_or]
      exact eq_comm
    · have someSlot : ∃ slot ∈ retained (recordLines allocated size lineNum calls).slots,
          slot.lineNum.toInt ≠ lineNum.toInt := by
        by_contra all
        push Not at all
        exact none_ (empty.mpr all)
      rw [storedPc2lineBuf, if_neg none_]
      exact ⟨fun _ => .inl someSlot, fun _ => found⟩
  · exact ⟨readEntry_longEntry small fits rest, fun short => readEntry_shortEntry short rest⟩

/-- A function on line 5 with all of its code on that line counts as stripped. -/
theorem emptyTable_stripped :
    findLineNum 5#32 (storedPc2lineBuf
        (computePc2lineInfo false (recordLines true 1 5#32 [(0#32, 5#64)]) 5#32)) 0#32 = -1 ∧
      lineAt (5#32).toInt 0#32 (recordLines true 1 5#32 [(0#32, 5#64)]).slots = 5 := by
  decide

end PrimJs.LineTable
