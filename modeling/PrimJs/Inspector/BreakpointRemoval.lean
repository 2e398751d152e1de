import PrimJs.Inspector.BreakpointInvariant

/-! Removing the breakpoints with an id: the kept ones move down over the removed ones. -/

namespace PrimJs

namespace LEPUSDebuggerInfo

variable {info info' : LEPUSDebuggerInfo}

def keptBy (text : String) (bps : List LEPUSBreakpoint) : List LEPUSBreakpoint :=
  bps.filter fun bp => bp.breakpointId.text ≠ text

def removedBy (text : String) (bps : List LEPUSBreakpoint) : List LEPUSBreakpoint :=
  bps.filter fun bp => bp.breakpointId.text = text

/-- `info'` is `info` after the loop has gone through the slots `todo` from `curIndex` on. -/
structure Deleted (info info' : LEPUSDebuggerInfo) (text : String) (curIndex : Nat)
    (todo : List LEPUSBreakpoint) : Prop where
  slots : info'.bps.take (curIndex + (keptBy text todo).length) =
    info.bps.take curIndex ++ keptBy text todo
  num : info'.breakpointsNum = info.breakpointsNum - (removedBy text todo).length
  map : info'.breakBytecodeMap = info.breakBytecodeMap.filter fun entry =>
    ∀ bp ∈ removedBy text todo, entry.2.ptr ≠ bp.breakpointId.ptr
  functions : ∀ f : Nat, info'.bytecodeList[f]? = (info.bytecodeList[f]?).map fun b =>
    { b with bpNum := b.bpNum - boundTo (removedBy text todo) f }
  next : info'.nextBreakpointId = info.nextBreakpointId
  active : info'.breakpointsIsActive = info.breakpointsIsActive

section Slots

variable {text : String} {bp : LEPUSBreakpoint} {todo : List LEPUSBreakpoint} {curIndex : Nat}

/-- A removed breakpoint leaves its slot to the ones behind it. -/
theorem Deleted.remove (matches_ : bp.breakpointId.text = text)
    (rest : Deleted (info.deleteBreakpoint bp) info' text curIndex todo) :
    Deleted info info' text curIndex (bp :: todo) := by
  have removed : removedBy text (bp :: todo) = bp :: removedBy text todo := by
    simp [removedBy, matches_]
  have kept : keptBy text (bp :: todo) = keptBy text todo := by
    simp [keptBy, matches_]
  refine ⟨?_, ?_, ?_, fun f => ?_, rest.next, rest.active⟩
  · rw [kept]
    exact rest.slots
  · rw [removed, rest.num, List.length_cons]
    change info.breakpointsNum - 1 - _ = _
    omega
  · rw [removed, rest.map]
    change ((info.breakBytecodeMap.filter _).filter _) = _
    rw [List.filter_filter]
    refine List.filter_congr fun entry _ => ?_
    simp [Bool.and_comm]
  · rw [removed, rest.functions]
    dsimp only [deleteBreakpoint]
    cases bound : bp.b with
    | none => simp [boundTo, bound]
    | some function =>
        rw [getElem?_addBpNum, Option.map_map]
        refine congrArg (fun g => (info.bytecodeList[f]?).map g) (funext fun b => ?_)
        by_cases here : function = f
        · simp [boundTo, bound, here]
          omega
        · simp [boundTo, bound, here]

theorem Deleted.keep (other : bp.breakpointId.text ≠ text) (inside : curIndex < info.bps.length)
    (rest : Deleted (info.writeBreakpoint curIndex bp) info' text (curIndex + 1) todo) :
    Deleted info info' text curIndex (bp :: todo) := by
  have removed : removedBy text (bp :: todo) = removedBy text todo := by
    simp [removedBy, other]
  have kept : keptBy text (bp :: todo) = bp :: keptBy text todo := by
    simp [keptBy, other]
  refine ⟨?_, ?_, ?_, fun f => ?_, rest.next, rest.active⟩
  · have slots := rest.slots
    change _ = (info.bps.take curIndex ++ bp :: _).take (curIndex + 1) ++ _ at slots
    rw [List.take_append, List.length_take, Nat.min_eq_left (Nat.le_of_lt inside),
      Nat.add_sub_cancel_left, List.take_take, Nat.min_eq_right (Nat.le_succ _)] at slots
    rw [kept, List.length_cons, ← Nat.add_assoc, Nat.add_right_comm, slots]
    simp
  · rw [removed]
    exact rest.num
  · rw [removed]
    exact rest.map
  · rw [removed]
    exact rest.functions f

end Slots

theorem deleteLoop_spec (text : String) {left i curIndex : Nat} (behind : curIndex ≤ i)
    (written : i + left ≤ info.bps.length) :
    Deleted info (deleteLoop text left i curIndex info) text curIndex
      ((info.bps.drop i).take left) := by
  induction left generalizing i curIndex info with
  | zero =>
      refine ⟨?_, rfl, ?_, fun f => ?_, rfl, rfl⟩
      · simp [deleteLoop, keptBy]
      · simp [deleteLoop, removedBy]
      · simp [deleteLoop, removedBy, boundTo]
  | succ left ih =>
      have inside : i < info.bps.length := by omega
      have todo : (info.bps.drop i).take (left + 1) =
          info.bps[i] :: (info.bps.drop (i + 1)).take left := by
        rw [List.drop_eq_getElem_cons inside, List.take_succ_cons]
      rw [todo, deleteLoop, List.getElem?_eq_getElem inside]
      dsimp only
      by_cases removed : info.bps[i].breakpointId.text = text
      · rw [if_pos removed]
        have rest : Deleted (info.deleteBreakpoint info.bps[i]) _ text curIndex
            ((info.bps.drop (i + 1)).take left) :=
          ih (Nat.le_succ_of_le behind) (by change _ ≤ info.bps.length; omega)
        exact rest.remove removed
      · rw [if_neg removed]
        have below : curIndex < info.bps.length := by omega
        have later : (info.writeBreakpoint curIndex info.bps[i]).bps.drop (i + 1) =
            info.bps.drop (i + 1) := by
          change (info.bps.take curIndex ++ info.bps[i] :: info.bps.drop (curIndex + 1)).drop
            (i + 1) = _
          rw [List.drop_append, List.length_take, Nat.min_eq_left (Nat.le_of_lt below)]
          have past : i + 1 - curIndex = (i - curIndex) + 1 := by omega
          rw [past, List.drop_succ_cons, List.drop_drop, List.drop_eq_nil_of_le (by simp; omega)]
          have sum : curIndex + 1 + (i - curIndex) = i + 1 := by omega
          rw [sum, List.nil_append]
        have sameLength : (info.writeBreakpoint curIndex info.bps[i]).bps.length =
            info.bps.length := by
          change (info.bps.take curIndex ++ info.bps[i] :: info.bps.drop (curIndex + 1)).length = _
          simp
          omega
        have room : i + 1 + left ≤ (info.writeBreakpoint curIndex info.bps[i]).bps.length := by
          omega
        have rest := ih (Nat.succ_le_succ behind) room
        rw [later] at rest
        exact rest.keep removed below

theorem length_kept_add_removed (text : String) (bps : List LEPUSBreakpoint) :
    (keptBy text bps).length + (removedBy text bps).length = bps.length := by
  induction bps with
  | nil => rfl
  | cons bp rest ih =>
      by_cases matches_ : bp.breakpointId.text = text
      · simp [keptBy, removedBy, matches_] at ih ⊢
        omega
      · simp [keptBy, removedBy, matches_] at ih ⊢
        omega

theorem boundTo_kept_add_removed (text : String) (bps : List LEPUSBreakpoint) (f : Nat) :
    boundTo bps f = boundTo (keptBy text bps) f + boundTo (removedBy text bps) f := by
  induction bps with
  | nil => rfl
  | cons bp rest ih =>
      by_cases matches_ : bp.breakpointId.text = text
      · simp [boundTo, keptBy, removedBy, matches_, List.countP_cons] at ih ⊢
        omega
      · simp [boundTo, keptBy, removedBy, matches_, List.countP_cons] at ih ⊢
        omega

section Remove

variable (text : String)

theorem Linked.deleted (linked : Linked info) :
    Deleted info (info.deleteBreakpointById text) text 0 info.liveBreakpoints := by
  have whole := @deleteLoop_spec info text info.breakpointsNum 0 0 (Nat.le_refl 0)
    (by rw [Nat.zero_add]; exact linked.written)
  rw [List.drop_zero] at whole
  exact whole

theorem Linked.liveBreakpoints_delete (linked : Linked info) :
    (info.deleteBreakpointById text).liveBreakpoints = keptBy text info.liveBreakpoints := by
  have deleted := linked.deleted text
  have live : info.liveBreakpoints.length = info.breakpointsNum := by
    rw [liveBreakpoints, List.length_take, Nat.min_eq_left linked.written]
  have parts := length_kept_add_removed text info.liveBreakpoints
  have num : (info.deleteBreakpointById text).breakpointsNum =
      0 + (keptBy text info.liveBreakpoints).length := by
    rw [deleted.num]
    omega
  rw [liveBreakpoints, num, deleted.slots]
  rfl

/-- The breakpoint the map has at a location goes away while another one there stays. -/
def Orphans (info : LEPUSDebuggerInfo) (text : String) : Prop :=
  ∃ bp ∈ keptBy text info.liveBreakpoints, ∃ pc ∈ bp.pc,
    ∃ id ∈ info.breakBytecodeMap.lookup pc, id.text = text

instance (info : LEPUSDebuggerInfo) (text : String) : Decidable (info.Orphans text) := by
  unfold Orphans
  infer_instance

section

variable {bps : List LEPUSBreakpoint} {bp : LEPUSBreakpoint}

theorem mem_keptBy : bp ∈ keptBy text bps ↔ bp ∈ bps ∧ bp.breakpointId.text ≠ text := by
  simp [keptBy]

theorem mem_removedBy : bp ∈ removedBy text bps ↔ bp ∈ bps ∧ bp.breakpointId.text = text := by
  simp [removedBy]

end

/-- The map keeps the entries of the breakpoints that stay. -/
theorem mem_map_delete (linked : Linked info) {pc : BytecodePc} {id : BreakpointId} :
    (pc, id) ∈ (info.deleteBreakpointById text).breakBytecodeMap ↔
      (pc, id) ∈ info.breakBytecodeMap ∧ id.text ≠ text := by
  rw [(linked.deleted text).map, List.mem_filter]
  refine and_congr_right fun entry => ?_
  obtain ⟨owner, member, rfl, -⟩ := linked.owned pc id entry
  rw [decide_eq_true_eq]
  constructor
  · intro apart matches_
    exact apart owner ((mem_removedBy text).mpr ⟨member, matches_⟩) rfl
  · intro other bp removed samePtr
    obtain ⟨inLive, matches_⟩ := (mem_removedBy text).mp removed
    have same : owner = bp := List.inj_on_of_nodup_map linked.ptrs member inLive samePtr
    exact other (same ▸ matches_)

theorem functions_delete (linked : Linked info) :
    (info.deleteBreakpointById text).bytecodeList.map DebuggerBytecode.uncounted =
      info.bytecodeList.map DebuggerBytecode.uncounted := by
  refine List.ext_getElem? fun f => ?_
  rw [List.getElem?_map, List.getElem?_map, (linked.deleted text).functions, Option.map_map]
  rfl

theorem Linked.delete (linked : Linked info) (separate : ¬ info.Orphans text) :
    Linked (info.deleteBreakpointById text) := by
  have deleted := linked.deleted text
  have live := linked.liveBreakpoints_delete text
  have members : ∀ bp ∈ (info.deleteBreakpointById text).liveBreakpoints,
      bp ∈ info.liveBreakpoints ∧ bp.breakpointId.text ≠ text := by
    intro bp member
    rw [live] at member
    exact (mem_keptBy text).mp member
  constructor
  · have taken := congrArg List.length deleted.slots
    have parts := length_kept_add_removed text info.liveBreakpoints
    have whole : info.liveBreakpoints.length = info.breakpointsNum := by
      rw [liveBreakpoints, List.length_take, Nat.min_eq_left linked.written]
    rw [deleted.num]
    simp only [List.length_take, Nat.zero_add, List.take_zero, List.nil_append] at taken
    omega
  · rw [live]
    exact linked.ptrs.sublist (List.Sublist.map _ List.filter_sublist)
  · intro bp member
    rw [deleted.next]
    exact linked.fresh bp (members bp member).1
  · intro bp member
    exact linked.bound bp (members bp member).1
  · intro bp member pc resolved
    rw [breakpointPc_congr rfl rfl rfl (functions_delete text linked)]
    exact linked.located bp (members bp member).1 pc resolved
  · rw [deleted.map]
    exact KeyedList.nodup_filter linked.keys _
  · intro pc id entry
    obtain ⟨before, other⟩ := (mem_map_delete text linked).mp entry
    obtain ⟨bp, member, rfl, resolved⟩ := linked.owned pc id before
    refine ⟨bp, ?_, rfl, resolved⟩
    rw [live]
    exact (mem_keptBy text).mpr ⟨member, other⟩
  · intro bp member pc resolved
    obtain ⟨inLive, other⟩ := members bp member
    obtain ⟨id, entry⟩ := linked.mapped bp inLive pc resolved
    refine ⟨id, (mem_map_delete text linked).mpr ⟨entry, fun matches_ => separate ?_⟩⟩
    exact ⟨bp, (mem_keptBy text).mpr ⟨inLive, other⟩, pc, resolved, id,
      KeyedList.lookup_of_mem linked.keys entry, matches_⟩
  · intro f b' found
    rw [deleted.functions] at found
    obtain ⟨b, before, rfl⟩ := Option.map_eq_some_iff.mp found
    have counted := linked.counted f b before
    have parts := boundTo_kept_add_removed text info.liveBreakpoints f
    rw [live]
    change b.bpNum - _ = _
    omega

/-- Removing the breakpoint the map knows takes the location of the others away. -/
theorem Linked.orphans_unmapped (linked : Linked info) (orphans : info.Orphans text) :
    ∃ bp ∈ (info.deleteBreakpointById text).liveBreakpoints, ∃ pc, bp.pc = some pc ∧
      (info.deleteBreakpointById text).breakBytecodeMap.lookup pc = none := by
  obtain ⟨bp, kept, pc, resolved, id, found, matches_⟩ := orphans
  refine ⟨bp, by rw [linked.liveBreakpoints_delete text]; exact kept, pc, resolved, ?_⟩
  cases again : (info.deleteBreakpointById text).breakBytecodeMap.lookup pc with
  | none => rfl
  | some id' =>
      obtain ⟨entry, other⟩ := (mem_map_delete text linked).mp (KeyedList.mem_of_lookup again)
      have before := KeyedList.lookup_of_mem linked.keys entry
      obtain rfl := Option.some.inj (before.symm.trans found)
      exact absurd matches_ other

end Remove

end LEPUSDebuggerInfo

end PrimJs
