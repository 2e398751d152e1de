import PrimJs.Optimizer.Relocation

/-! `opt_nop_strip`: the code without its `nop`s, and every position that the function records moved
along by `offset_map`. -/

namespace PrimJs

namespace BcOut

/-- The entries of `offset_map` from the instruction at `p` on, the last one for the end. -/
def offsetMapFrom (P : BcOut) (p removed : Nat) : List Nat :=
  if p < P.size then
    if opSize (P.opAt p) = 0 then List.replicate (P.size - p) 0 ++ [removed]
    else if P.opAt p = opNop then removed :: P.offsetMapFrom (p + 1) (removed + 1)
    else List.replicate (opSize (P.opAt p)) removed ++
      P.offsetMapFrom (p + opSize (P.opAt p)) removed
  else [removed]
termination_by P.size - p
decreasing_by all_goals omega

/-- The bytes that the loop moves down, from the instruction at `p` on. -/
def compactFrom (P : BcOut) (p : Nat) : List UInt8 :=
  if p < P.size then
    if opSize (P.opAt p) = 0 then []
    else if P.opAt p = opNop then P.compactFrom (p + opSize (P.opAt p))
    else slice P.buf p (opSize (P.opAt p)) ++ P.compactFrom (p + opSize (P.opAt p))
  else []
termination_by P.size - p
decreasing_by all_goals omega

def offsetMap (P : BcOut) : List Nat := P.offsetMapFrom 0 0

def stripPos (P : BcOut) (p : Nat) : Nat := p - P.offsetMap.getD p 0

/-- The address of a label or the position of a jump, which may be unset. -/
def adjust? (map : List Nat) (pos : Int) : Option Int :=
  if 0 ≤ pos then map[pos.toNat]?.map fun n => pos - n else some pos

def adjust (map : List Nat) (pos : Int) : Int :=
  if 0 ≤ pos then pos - map.getD pos.toNat 0 else pos

end BcOut

/-- `opt_nop_strip`; `none` is a read past the end of `offset_map`. -/
def optNopStrip (allocated : Bool) (F : BcFunction) : Option BcFunction :=
  if F.size = 0 ∨ allocated = false then some F
  else
    let map := F.offsetMap
    if map.getD F.size 0 = 0 then some F
    else do
      let labels ← F.labelSlots.mapM fun l => (BcOut.adjust? map l.addr).map ({ l with addr := · })
      let jumps ← F.jumpSlots.mapM fun j => (BcOut.adjust? map j.pos).map ({ j with pos := · })
      let lines ← F.lineNumberSlots.mapM fun s => map[s.pc]?.map fun n => { s with pc := s.pc - n }
      let callers ← F.callerSlots.mapM fun s => map[s.pc]?.map fun n => { s with pc := s.pc - n }
      let moved : BcOut := ⟨F.compactFrom 0, jumps, labels⟩
      some ⟨moved.rewriteOffsets, lines, callers⟩

namespace BcOut

variable {P : BcOut} {p k : Nat}

/-- What the two loops have done when they come to the instruction at `p`. -/
structure StrippedTo (P : BcOut) (p e : Nat) : Prop where
  bytes : ∃ front, P.compactFrom 0 = front ++ P.compactFrom p ∧ front.length + e = p
  entries : P.offsetMap.drop p = P.offsetMapFrom p e

theorem Accurate.strippedTo_next (accurate : P.Accurate) (start : P.Start p) (inside : p < P.size)
    {e : Nat} (here : P.StrippedTo p e) :
    P.StrippedTo (p + opSize (P.opAt p)) (if P.opAt p = opNop then e + 1 else e) := by
  have positive := accurate.size_pos start inside
  obtain ⟨⟨front, bytes, length⟩, entries⟩ := here
  rw [compactFrom.eq_1 P p, if_pos inside, if_neg (by omega)] at bytes
  rw [offsetMapFrom.eq_1 P p, if_pos inside, if_neg (by omega)] at entries
  split at bytes
  · next nop =>
    have one : opSize (P.opAt p) = 1 := by
      rw [nop]
      rfl
    rw [if_pos nop] at entries ⊢
    refine ⟨⟨front, bytes, by omega⟩, ?_⟩
    rw [← List.drop_drop, entries, one, List.drop_one, List.tail_cons]
  · next other =>
    rw [if_neg other] at entries ⊢
    have fits := accurate.next_le_size start inside
    refine ⟨⟨_, by rw [bytes, List.append_assoc], ?_⟩, ?_⟩
    · rw [List.length_append, slice_length fits]
      omega
    · rw [← List.drop_drop, entries, List.drop_left' List.length_replicate]

theorem Accurate.strippedTo (accurate : P.Accurate) (start : P.Start p) (inside : p ≤ P.size) :
    ∃ e, P.StrippedTo p e := by
  refine accurate.along (R := fun a b => (∃ e, P.StrippedTo a e) → ∃ e, P.StrippedTo b e)
    (fun _ here => here) (fun _ _ _ first second here => second (first here)) ?_ (.done 0) start
    (Nat.zero_le p) inside ⟨0, ⟨[], rfl, rfl⟩, rfl⟩
  rintro a startA insideA ⟨e, here⟩
  exact ⟨_, accurate.strippedTo_next startA insideA here⟩

section

variable (accurate : P.Accurate) (start : P.Start p)

include accurate start

theorem Accurate.entry_at (inside : p ≤ P.size) {e : Nat} (here : P.StrippedTo p e)
    (covered : k = 0 ∨ P.opAt p ≠ opNop ∧ p < P.size ∧ k < opSize (P.opAt p)) :
    P.offsetMap[p + k]? = some e := by
  have entry : (P.offsetMapFrom p e)[k]? = some e := by
    rw [offsetMapFrom.eq_1]
    split
    · next within =>
      have positive := accurate.size_pos start within
      rw [if_neg (by omega)]
      split
      · next nop =>
        obtain rfl | ⟨other, -⟩ := covered
        · rfl
        · exact absurd nop other
      · rw [List.getElem?_append_left (by rw [List.length_replicate]; omega), List.getElem?_replicate,
          if_pos (by omega)]
    · obtain rfl | ⟨-, within, -⟩ := covered
      · rfl
      · omega
  rwa [← here.entries, List.getElem?_drop] at entry

theorem Accurate.strip_start (inside : p ≤ P.size) {e : Nat} (here : P.StrippedTo p e) :
    P.offsetMap.getD p 0 = e ∧ P.stripPos p + e = p := by
  have found : P.offsetMap[p]? = some e := accurate.entry_at (k := 0) start inside here (.inl rfl)
  have entry : P.offsetMap.getD p 0 = e := by
    rw [List.getD_eq_getElem?_getD, found, Option.getD_some]
  obtain ⟨⟨front, -, length⟩, -⟩ := here
  exact ⟨entry, by rw [stripPos, entry]; omega⟩

theorem Accurate.stripPos_next (inside : p < P.size) :
    P.stripPos (p + opSize (P.opAt p)) =
      P.stripPos p + if P.opAt p = opNop then 0 else opSize (P.opAt p) := by
  obtain ⟨e, here⟩ := accurate.strippedTo start inside.le
  have old := (accurate.strip_start start inside.le here).2
  have new := (accurate.strip_start (accurate.next start inside) (accurate.next_le_size start inside)
    (accurate.strippedTo_next start inside here)).2
  split at new
  · next nop =>
    have one : opSize (P.opAt p) = 1 := by
      rw [nop]
      rfl
    rw [if_pos nop]
    omega
  · next other =>
    rw [if_neg other]
    omega

end

section

variable (accurate : P.Accurate)

include accurate

theorem Accurate.entry_some (inside : p ≤ P.size) :
    P.offsetMap[p]? = some (P.offsetMap.getD p 0) := by
  obtain ⟨e, here⟩ := accurate.strippedTo accurate.decodes (le_refl _)
  have last := accurate.entry_at (k := 0) accurate.decodes (le_refl _) here (.inl rfl)
  have bound := (List.getElem?_eq_some_iff.mp last).1
  rw [List.getD_eq_getElem?_getD, List.getElem?_eq_getElem (by omega), Option.getD_some]

variable {Q : BcOut} (bytes : Q.buf = P.compactFrom 0)

include bytes

/-- Every instruction but the `nop`s stands in the compacted code, in the same order. -/
theorem Accurate.strips : Relocates (· ≠ opNop) Eq P.stripPos P Q where
  first := Nat.zero_sub _
  last := by
    obtain ⟨e, here⟩ := accurate.strippedTo accurate.decodes (le_refl _)
    have last := (accurate.strip_start accurate.decodes (le_refl _) here).2
    obtain ⟨⟨front, split, length⟩, -⟩ := here
    rw [compactFrom.eq_1 P P.size, if_neg (lt_irrefl _), List.append_nil] at split
    have short : Q.size = front.length := by rw [size, bytes, split]
    omega
  dropped p start inside drop := by
    rw [accurate.stripPos_next start inside, if_pos (not_not.mp drop), Nat.add_zero]
  rendered p start inside keep := by
    obtain ⟨e, here⟩ := accurate.strippedTo start inside.le
    have old := (accurate.strip_start start inside.le here).2
    have new := accurate.stripPos_next start inside
    rw [if_neg keep] at new
    obtain ⟨⟨front, split, length⟩, -⟩ := here
    have positive := accurate.size_pos start inside
    have fits := accurate.next_le_size start inside
    refine Rendered.of_bytes (fun _ => rfl) accurate start inside (fun k inPart => ?_) (by omega)
    rw [compactFrom.eq_1 P p, if_pos inside, if_neg (by omega), if_neg keep] at split
    rw [bytes, split, show P.stripPos p = front.length by omega,
      List.getElem?_append_right (Nat.le_add_right _ _), Nat.add_sub_cancel_left,
      List.getElem?_append_left (by rwa [slice_length fits]), slice, List.getElem?_take_of_lt inPart,
      List.getElem?_drop]

theorem Accurate.slotsMoved
    (labels : Q.labelSlots = P.labelSlots.map fun l => { l with addr := adjust P.offsetMap l.addr })
    (jumps : Q.jumpSlots = P.jumpSlots.map fun j => { j with pos := adjust P.offsetMap j.pos }) :
    SlotsMoved P.stripPos P Q where
  labels := by
    rw [labels, List.forall₂_map_right_iff, List.forall₂_same]
    refine fun l _ => ⟨rfl, fun unset => if_neg (by omega), ?_⟩
    intro p addr start inside
    obtain ⟨e, here⟩ := accurate.strippedTo start inside
    have moved := accurate.strip_start start inside here
    dsimp only
    rw [adjust, if_pos (by omega), show l.addr.toNat = p by omega, moved.1]
    omega
  jumps := by
    rw [jumps, List.forall₂_map_right_iff, List.forall₂_same]
    refine fun j _ => ⟨rfl, Iff.rfl, fun p live slot => ?_⟩
    have relocates := accurate.strips bytes
    have jump := slot.jump
    have place := slot.operand
    rw [← slot.op] at jump place
    have keep : P.opAt p ≠ opNop := by
      intro nop
      rw [nop] at jump
      exact absurd jump (by decide)
    have operand := (accurate.operand_inside slot.start slot.inside jump).2
    have width : 0 < labelWidth (P.opAt p) := by
      obtain one | two | four := labelWidth_cases (P.opAt p) <;> omega
    obtain ⟨e, here⟩ := accurate.strippedTo slot.start slot.inside.le
    have old := (accurate.strip_start slot.start slot.inside.le here).2
    have moved := accurate.entry_at slot.start slot.inside.le here
      (.inr ⟨keep, slot.inside, show labelOffset (P.opAt p) < _ by omega⟩)
    refine slot.carried (relocates.rendered p slot.start slot.inside keep)
      (relocates.start accurate slot.start slot.inside.le)
      (relocates.lt_size accurate slot.start slot.inside keep) rfl rfl ?_
    dsimp only
    rw [adjust, if_pos (by omega), show j.pos.toNat = p + labelOffset (P.opAt p) by omega,
      List.getD_eq_getElem?_getD, moved, Option.getD_some]
    omega

end

/-- Every position that the pass looks up is one of the code, or its end. -/
structure PositionsInside (F : BcFunction) : Prop where
  labels : ∀ l ∈ F.labelSlots, l.addr ≤ F.size
  jumps : ∀ j ∈ F.jumpSlots, j.pos ≤ F.size
  lines : ∀ s ∈ F.lineNumberSlots, s.pc ≤ F.size
  callers : ∀ s ∈ F.callerSlots, s.pc ≤ F.size

/-- `G` is `F` without `nop`s, and `f` says where everything went. -/
structure Stripped (f : Nat → Nat) (F G : BcFunction) : Prop where
  relocates : Relocates (· ≠ opNop) Eq f F.toBcOut G.toBcOut
  slots : SlotsMoved f F.toBcOut G.toBcOut
  accurate : G.Accurate
  noNops : ∀ q, G.Start q → q < G.size → G.opAt q ≠ opNop
  lines : G.lineNumberSlots = F.lineNumberSlots.map fun s => { s with pc := f s.pc }
  callers : G.callerSlots = F.callerSlots.map fun s => ⟨f s.pc⟩
  offsets : F.OffsetsFit → F.OffsetsLand → G.OffsetsLand

theorem Accurate.adjust_eq (accurate : P.Accurate) {pos : Int} (inside : pos ≤ P.size) :
    adjust? P.offsetMap pos = some (adjust P.offsetMap pos) := by
  unfold adjust? adjust
  split
  · rw [accurate.entry_some (by omega)]
    rfl
  · rfl

theorem mapM_eq_map {α β : Type} {l : List α} {g : α → Option β} {h : α → β}
    (each : ∀ a ∈ l, g a = some (h a)) : l.mapM g = some (l.map h) := by
  rw [← List.mapM'_eq_mapM]
  induction l with
  | nil => rfl
  | cons a l ih =>
      rw [List.mapM'_cons, each a List.mem_cons_self,
        ih fun b member => each b (List.mem_cons_of_mem _ member)]
      rfl

end BcOut

open BcOut

variable {F : BcFunction}

/-- Without an entry at the end there is no `nop`. -/
theorem noNops_of_removed (accurate : F.Accurate) (none_ : F.offsetMap.getD F.size 0 = 0) {p : Nat}
    (start : F.Start p) (inside : p < F.size) : F.opAt p ≠ opNop := by
  intro nop
  have relocates := accurate.strips (Q := ⟨F.compactFrom 0, [], []⟩) rfl
  have positive := accurate.size_pos start inside
  have near := relocates.contract accurate (fun _ _ same => same ▸ le_refl _)
    (accurate.next start inside) accurate.decodes (accurate.next_le_size start inside) (le_refl _)
  have stays := relocates.dropped p start inside (not_not.mpr nop)
  obtain ⟨e, here⟩ := accurate.strippedTo accurate.decodes (le_refl _)
  have last := accurate.strip_start accurate.decodes (le_refl _) here
  have back : F.stripPos p ≤ p := Nat.sub_le _ _
  omega

theorem stripped_refl (accurate : F.Accurate)
    (noNops : ∀ p, F.Start p → p < F.size → F.opAt p ≠ opNop) : Stripped id F F where
  relocates := ⟨rfl, rfl, fun p start inside drop => absurd (noNops p start inside) drop,
    fun _ start inside _ => ⟨accurate.known start inside, rfl, rfl, rfl⟩⟩
  slots := .refl _
  accurate := accurate
  noNops := noNops
  lines := (List.map_id _).symm
  callers := (List.map_id _).symm
  offsets _ land := land

/-- The pass reads inside its map, and what it leaves is the same code without `nop`s. -/
theorem optNopStrip_strips (accurate : F.Accurate) (inside : PositionsInside F) :
    ∃ G f, optNopStrip true F = some G ∧ Stripped f F G := by
  by_cases none_ : F.offsetMap.getD F.size 0 = 0
  · have kept : optNopStrip true F = some F := by
      unfold optNopStrip
      split
      · rfl
      · exact if_pos none_
    exact ⟨F, id, kept, stripped_refl accurate fun _ => noNops_of_removed accurate none_⟩
  have empty : F.size ≠ 0 := fun empty => none_ (by simp [offsetMap, offsetMapFrom, empty])
  let moved : BcOut := {
    buf := F.compactFrom 0
    jumpSlots := F.jumpSlots.map fun j => { j with pos := adjust F.offsetMap j.pos }
    labelSlots := F.labelSlots.map fun l => { l with addr := adjust F.offsetMap l.addr } }
  have jumpsKept : ∀ op, hasLabelOperand op = true → op ≠ opNop := by
    rintro _ jump rfl
    exact absurd jump (by decide)
  have relocates := accurate.strips (Q := moved) rfl
  have slots := accurate.slotsMoved (Q := moved) rfl rfl rfl
  have accurate' := accurate.relocate jumpsKept relocates slots
  have relocates' := relocates.rewriteOffsets accurate accurate'
  refine ⟨⟨moved.rewriteOffsets, F.lineNumberSlots.map fun s => { s with pc := F.stripPos s.pc },
    F.callerSlots.map fun s => ⟨F.stripPos s.pc⟩⟩, F.stripPos, ?_, relocates',
    slots.rewriteOffsets accurate', accurate'.rewriteOffsets, ?_, rfl, rfl, fun fits _ => ?_⟩
  · rw [optNopStrip, if_neg (by simp [empty])]
    dsimp only
    rw [if_neg none_, mapM_eq_map fun l member => by rw [accurate.adjust_eq (inside.labels l member)]; rfl,
      mapM_eq_map fun j member => by rw [accurate.adjust_eq (inside.jumps j member)]; rfl,
      mapM_eq_map fun s member => by rw [accurate.entry_some (inside.lines s member)]; rfl,
      mapM_eq_map fun s member => by rw [accurate.entry_some (inside.callers s member)]; rfl]
    rfl
  · intro q there below
    obtain ⟨p, start, within, keep, rfl⟩ :=
      relocates'.onto accurate there below
    exact (relocates'.rendered p start within keep).op ▸ keep
  · refine accurate'.offsetsLand fun j' member live => ?_
    obtain ⟨j, old, slotMoved⟩ := slots.exists_old member
    have alive := slotMoved.live.mp live
    obtain ⟨p, slot⟩ := accurate.slots j old alive
    obtain ⟨t, addr, target, bound⟩ := accurate.targets j old alive
    have slot' := slotMoved.slot p alive slot
    have keep := jumpsKept _ (slot.op ▸ slot.jump)
    have op := (relocates.rendered p slot.start slot.inside keep).op
    rw [slot.op, slot'.op] at op
    exact relocates.fits accurate (fun _ _ same => same ▸ le_refl _) slots keep slot slot' op.symm
      slotMoved.label addr target bound (fits j old alive)

/-- `push_0; nop; goto L; nop; nop; L: return_undef`, with a line recorded at the last two. -/
def paddedGoto : BcFunction where
  buf := [178, 176, 233, 3, 176, 176, 41]
  jumpSlots := [⟨opGoto8, 1, 3, 0⟩]
  labelSlots := [⟨1, 6⟩]
  lineNumberSlots := [⟨5, 1⟩, ⟨6, 2⟩]
  callerSlots := []

theorem optNopStrip_strips_paddedGoto :
    ∃ G f, optNopStrip true paddedGoto = some G ∧ Stripped f paddedGoto G :=
  optNopStrip_strips (accurate_of_check (by decide +kernel))
    ⟨by decide, by decide, by decide, by decide⟩

end PrimJs
