import PrimJs.Foundation.KeyedList
import PrimJs.Inspector.Breakpoint

/-! The links between the breakpoint list, the map and the counters, and what setting a
breakpoint and loading a script do to them. -/

namespace PrimJs

def DebuggerBytecode.uncounted (b : DebuggerBytecode) : DebuggerBytecode := { b with bpNum := 0 }

namespace LEPUSDebuggerInfo

/-- The breakpoints bound to function `f`. -/
def boundTo (bps : List LEPUSBreakpoint) (f : Nat) : Nat := bps.countP fun bp => bp.b = some f

structure Linked (info : LEPUSDebuggerInfo) : Prop where
  written : info.breakpointsNum ≤ info.bps.length
  ptrs : (info.liveBreakpoints.map fun bp => bp.breakpointId.ptr).Nodup
  fresh : ∀ bp ∈ info.liveBreakpoints, bp.breakpointId.ptr < info.nextBreakpointId
  bound : ∀ bp ∈ info.liveBreakpoints, bp.b = bp.pc.map BytecodePc.function
  located : ∀ bp ∈ info.liveBreakpoints, ∀ pc, bp.pc = some pc → info.breakpointPc bp = some pc
  keys : (info.breakBytecodeMap.map Prod.fst).Nodup
  owned : ∀ pc id, (pc, id) ∈ info.breakBytecodeMap →
    ∃ bp ∈ info.liveBreakpoints, bp.breakpointId = id ∧ bp.pc = some pc
  mapped : ∀ bp ∈ info.liveBreakpoints, ∀ pc, bp.pc = some pc →
    ∃ id, (pc, id) ∈ info.breakBytecodeMap
  counted : ∀ (f : Nat) (b : DebuggerBytecode), info.bytecodeList[f]? = some b →
    b.bpNum = boundTo info.liveBreakpoints f

section Locations

variable {bp bp' : LEPUSBreakpoint} {functions functions' : List DebuggerBytecode} {n : Nat}

/-- A location depends on the lines of the functions only, not on their counters. -/
theorem findIn_congr (scriptId : bp'.scriptId = bp.scriptId) (line : bp'.line = bp.line)
    (column : bp'.column = bp.column)
    (same : functions'.map DebuggerBytecode.uncounted = functions.map DebuggerBytecode.uncounted) :
    findIn bp' functions' n = findIn bp functions n := by
  induction functions generalizing functions' n with
  | nil =>
      rw [List.map_eq_nil_iff.mp same]
      rfl
  | cons b rest ih =>
      obtain ⟨b', rest', rfl, sameHead, sameRest⟩ := List.map_eq_cons_iff.mp same
      have sameIn : b'.notInCurrentFunc bp'.scriptId bp'.line =
          b.notInCurrentFunc bp.scriptId bp.line := by
        have sameHere := congrArg (·.notInCurrentFunc bp.scriptId bp.line) sameHead
        rw [scriptId, line]
        exact sameHere
      have sameOffset : b'.breakOffset bp' = b.breakOffset bp := by
        have sameLines : b'.uncounted.lines = b.uncounted.lines :=
          congrArg DebuggerBytecode.lines sameHead
        change b'.lines = b.lines at sameLines
        simp only [DebuggerBytecode.breakOffset, sameLines, line, column]
      rw [findIn, findIn, sameIn, sameOffset, ih sameRest]

theorem findIn_append {pc : BytecodePc} (found : findIn bp functions n = some pc)
    (more : List DebuggerBytecode) : findIn bp (functions ++ more) n = some pc := by
  induction functions generalizing n with
  | nil => cases found
  | cons b rest ih =>
      rw [findIn] at found
      rw [List.cons_append, findIn]
      split at found
      · exact found
      · exact ih found

theorem findIn_lt {pc : BytecodePc} (found : findIn bp functions n = some pc) :
    n ≤ pc.function ∧ pc.function < n + functions.length := by
  induction functions generalizing n with
  | nil => cases found
  | cons b rest ih =>
      rw [findIn] at found
      rw [List.length_cons]
      split at found
      next offset here =>
        obtain rfl := Option.some.inj found
        exact ⟨Nat.le_refl n, Nat.lt_add_of_pos_right (Nat.succ_pos _)⟩
      next =>
        have later := ih found
        omega

theorem map_uncounted_addBpNum (delta : Int) (f : Nat) (functions : List DebuggerBytecode) :
    (addBpNum delta f functions).map DebuggerBytecode.uncounted =
      functions.map DebuggerBytecode.uncounted := by
  refine List.ext_getElem? fun i => ?_
  rw [addBpNum, List.getElem?_map, List.getElem?_map, List.getElem?_modify]
  cases functions[i]? with
  | none => rfl
  | some b =>
      by_cases here : f = i
      · simp [here, DebuggerBytecode.uncounted]
      · simp [here]

theorem getElem?_addBpNum (delta : Int) (f i : Nat) (functions : List DebuggerBytecode) :
    (addBpNum delta f functions)[i]? =
      (functions[i]?).map fun b => { b with bpNum := b.bpNum + if f = i then delta else 0 } := by
  rw [addBpNum, List.getElem?_modify]
  cases functions[i]? with
  | none => rfl
  | some b =>
      by_cases here : f = i <;> simp [here]

end Locations

variable {info info' : LEPUSDebuggerInfo}

variable {i : Nat} {bp : LEPUSBreakpoint}

/-- States with the same functions, up to the counters, give a breakpoint the same location. -/
theorem breakpointPc_congr {bp' : LEPUSBreakpoint} (scriptId : bp'.scriptId = bp.scriptId)
    (line : bp'.line = bp.line) (column : bp'.column = bp.column)
    (same : info'.bytecodeList.map DebuggerBytecode.uncounted =
      info.bytecodeList.map DebuggerBytecode.uncounted) :
    info'.breakpointPc bp' = info.breakpointPc bp := by
  rw [breakpointPc, breakpointPc, scriptId, findIn_congr scriptId line column same]

theorem breakpointPc_lt {pc : BytecodePc} (found : info.breakpointPc bp = some pc) :
    pc.function < info.bytecodeList.length := by
  rw [breakpointPc] at found
  split at found
  · cases found
  · simpa using (findIn_lt found).2

theorem liveBreakpoints_write (inside : i < info.breakpointsNum)
    (written : info.breakpointsNum ≤ info.bps.length) (bp : LEPUSBreakpoint) :
    (info.writeBreakpoint i bp).liveBreakpoints = info.liveBreakpoints.set i bp := by
  change (info.bps.take i ++ bp :: info.bps.drop (i + 1)).take info.breakpointsNum = _
  have placed := List.set_eq_take_append_cons_drop (l := info.bps) (i := i) (a := bp)
  rw [if_pos (by omega)] at placed
  rw [← placed, List.take_set]
  rfl

theorem mem_set_of_ne {α : Type} {xs : List α} {x y : α} (bound : i < xs.length) (member : x ∈ xs)
    (other : x ≠ xs[i]) : x ∈ xs.set i y := by
  obtain ⟨j, inside, rfl⟩ := List.getElem_of_mem member
  have differ : i ≠ j := fun same => other (by simp [same])
  refine List.mem_iff_getElem.mpr ⟨j, by simpa using inside, ?_⟩
  simp [differ]

section Slot

variable {live : List LEPUSBreakpoint} {i : Nat} {old new : LEPUSBreakpoint}
  (slot : live[i]? = some old)
include slot

theorem ids_set (sameId : new.breakpointId = old.breakpointId) :
    (live.set i new).map LEPUSBreakpoint.breakpointId =
      live.map LEPUSBreakpoint.breakpointId := by
  obtain ⟨bound, rfl⟩ := List.getElem?_eq_some_iff.mp slot
  rw [List.map_set, sameId]
  refine List.ext_getElem (by simp) fun j _ _ => ?_
  by_cases here : i = j
  · simp [here]
  · simp [here]

theorem ptrs_set (sameId : new.breakpointId = old.breakpointId) :
    ((live.set i new).map fun bp => bp.breakpointId.ptr) =
      live.map fun bp => bp.breakpointId.ptr := by
  have same := congrArg (List.map BreakpointId.ptr) (ids_set slot sameId)
  rw [List.map_map, List.map_map] at same
  exact same

/-- Filling an unresolved slot keeps the resolved breakpoints. -/
theorem mem_set_of_resolved (unresolved : old.pc = none) {bp : LEPUSBreakpoint}
    (member : bp ∈ live) {pc : BytecodePc} (resolved : bp.pc = some pc) :
    bp ∈ live.set i new := by
  obtain ⟨bound, rfl⟩ := List.getElem?_eq_some_iff.mp slot
  refine mem_set_of_ne bound member fun same => ?_
  rw [same, unresolved] at resolved
  cases resolved

theorem boundTo_set (unbound : old.b = none) (f : Nat) :
    boundTo (live.set i new) f = boundTo live f + if new.b = some f then 1 else 0 := by
  obtain ⟨bound, rfl⟩ := List.getElem?_eq_some_iff.mp slot
  rw [boundTo, boundTo, List.countP_set bound]
  simp [unbound]

end Slot

/-- `info'` is `info` with `new` in slot `i`, counted and entered into the map. -/
structure Placed (info info' : LEPUSDebuggerInfo) (i : Nat) (new : LEPUSBreakpoint) : Prop where
  written : info'.breakpointsNum ≤ info'.bps.length
  live : info'.liveBreakpoints = info.liveBreakpoints.set i new
  next : info'.nextBreakpointId = info.nextBreakpointId
  bound : new.b = new.pc.map BytecodePc.function
  located : ∀ pc, new.pc = some pc → info'.breakpointPc new = some pc
  functions : info'.bytecodeList.map DebuggerBytecode.uncounted =
    info.bytecodeList.map DebuggerBytecode.uncounted
  counts : ∀ (f : Nat) (b' : DebuggerBytecode), info'.bytecodeList[f]? = some b' →
    ∃ b, info.bytecodeList[f]? = some b ∧ b'.bpNum = b.bpNum + if new.b = some f then 1 else 0
  keys : (info'.breakBytecodeMap.map Prod.fst).Nodup
  kept : ∀ entry ∈ info.breakBytecodeMap, entry ∈ info'.breakBytecodeMap
  entries : ∀ pc id, (pc, id) ∈ info'.breakBytecodeMap →
    (pc, id) ∈ info.breakBytecodeMap ∨ id = new.breakpointId ∧ new.pc = some pc
  mapped : ∀ pc, new.pc = some pc → ∃ id, (pc, id) ∈ info'.breakBytecodeMap

/-- Filling the slot of an unresolved breakpoint keeps the links. -/
theorem Linked.placed (linked : Linked info) {old new : LEPUSBreakpoint}
    (slot : info.liveBreakpoints[i]? = some old) (unresolved : old.pc = none)
    (sameId : new.breakpointId = old.breakpointId) (placed : Placed info info' i new) :
    Linked info' := by
  have oldMember : old ∈ info.liveBreakpoints := List.mem_of_getElem? slot
  have unbound : old.b = none := by
    rw [linked.bound old oldMember, unresolved]
    rfl
  have members : ∀ bp ∈ info'.liveBreakpoints, bp ∈ info.liveBreakpoints ∨ bp = new := by
    intro bp member
    rw [placed.live] at member
    exact List.mem_or_eq_of_mem_set member
  have newMember : new ∈ info'.liveBreakpoints := by
    rw [placed.live]
    exact List.mem_set (List.getElem?_eq_some_iff.mp slot).1 new
  constructor
  · exact placed.written
  · rw [placed.live, ptrs_set slot sameId]
    exact linked.ptrs
  · intro bp member
    rw [placed.next]
    rcases members bp member with before | rfl
    · exact linked.fresh bp before
    · rw [sameId]
      exact linked.fresh old oldMember
  · intro bp member
    rcases members bp member with before | rfl
    · exact linked.bound bp before
    · exact placed.bound
  · intro bp member pc resolved
    rcases members bp member with before | rfl
    · rw [breakpointPc_congr rfl rfl rfl placed.functions]
      exact linked.located bp before pc resolved
    · exact placed.located pc resolved
  · exact placed.keys
  · intro pc id entry
    rcases placed.entries pc id entry with before | ⟨rfl, resolved⟩
    · obtain ⟨bp, member, sameEntry, resolved⟩ := linked.owned pc id before
      refine ⟨bp, ?_, sameEntry, resolved⟩
      rw [placed.live]
      exact mem_set_of_resolved slot unresolved member resolved
    · exact ⟨new, newMember, rfl, resolved⟩
  · intro bp member pc resolved
    rcases members bp member with before | rfl
    · obtain ⟨id, entry⟩ := linked.mapped bp before pc resolved
      exact ⟨id, placed.kept _ entry⟩
    · exact placed.mapped pc resolved
  · intro f b' found
    obtain ⟨b, before, sum⟩ := placed.counts f b' found
    rw [sum, linked.counted f b before, placed.live, boundTo_set slot unbound]
    split <;> simp

theorem written_write (inside : i < info.breakpointsNum)
    (written : info.breakpointsNum ≤ info.bps.length) (bp : LEPUSBreakpoint) :
    info.breakpointsNum ≤ (info.writeBreakpoint i bp).bps.length := by
  change info.breakpointsNum ≤ (info.bps.take i ++ bp :: info.bps.drop (i + 1)).length
  rw [List.length_append, List.length_cons, List.length_take, List.length_drop]
  omega

theorem mem_tryEmplace (info : LEPUSDebuggerInfo) (pc : BytecodePc) (id : BreakpointId) :
    (∀ entry ∈ info.breakBytecodeMap, entry ∈ (info.tryEmplace pc id).breakBytecodeMap) ∧
      (∀ entry ∈ (info.tryEmplace pc id).breakBytecodeMap,
        entry ∈ info.breakBytecodeMap ∨ entry = (pc, id)) ∧
      ∃ id', (pc, id') ∈ (info.tryEmplace pc id).breakBytecodeMap := by
  rw [tryEmplace]
  cases found : info.breakBytecodeMap.lookup pc with
  | some id' => exact ⟨fun _ member => member, fun _ member => Or.inl member,
      id', KeyedList.mem_of_lookup found⟩
  | none =>
      refine ⟨fun _ member => List.mem_append_left _ member, fun entry member => ?_, id, ?_⟩
      · exact (List.mem_append.mp member).imp_right List.mem_singleton.mp
      · exact List.mem_append_right _ List.mem_cons_self

theorem keys_tryEmplace (keys : (info.breakBytecodeMap.map Prod.fst).Nodup) (pc : BytecodePc)
    (id : BreakpointId) : ((info.tryEmplace pc id).breakBytecodeMap.map Prod.fst).Nodup := by
  rw [tryEmplace]
  cases missing : info.breakBytecodeMap.lookup pc with
  | some _ => exact keys
  | none => exact KeyedList.nodup_append_entry keys missing

def boundAt (bp : LEPUSBreakpoint) (pc : Option BytecodePc) : LEPUSBreakpoint :=
  { bp with b := (pc.map BytecodePc.function).or bp.b, pc := pc.or bp.pc }

theorem placed_bind (written : info.breakpointsNum ≤ info.bps.length)
    (keys : (info.breakBytecodeMap.map Prod.fst).Nodup) (inside : i < info.breakpointsNum)
    (noPc : bp.pc = none) (noFunction : bp.b = none) :
    Placed info (info.bindBreakpoint i bp) i (boundAt bp (info.breakpointPc bp)) := by
  rw [bindBreakpoint]
  cases found : info.breakpointPc bp with
  | none =>
      have same : boundAt bp none = bp := rfl
      rw [same]
      exact {
        written := written_write inside written bp
        live := liveBreakpoints_write inside written bp
        next := rfl
        bound := by rw [noPc, noFunction]; rfl
        located := fun pc resolved => by rw [noPc] at resolved; cases resolved
        functions := rfl
        counts := fun f b' here => ⟨b', here, by simp [noFunction]⟩
        keys
        kept := fun _ member => member
        entries := fun _ _ member => Or.inl member
        mapped := fun pc resolved => by rw [noPc] at resolved; cases resolved }
  | some pc =>
      obtain ⟨kept, entries, mapped⟩ := mem_tryEmplace info pc bp.breakpointId
      exact {
        written := written_write inside written _
        live := liveBreakpoints_write inside written _
        next := rfl
        bound := rfl
        located := fun pc' resolved => by
          obtain rfl := Option.some.inj resolved
          refine Eq.trans ?_ found
          exact breakpointPc_congr rfl rfl rfl (map_uncounted_addBpNum 1 pc.function _)
        functions := map_uncounted_addBpNum 1 pc.function _
        counts := fun f b' here => by
          change (addBpNum 1 pc.function info.bytecodeList)[f]? = some b' at here
          rw [getElem?_addBpNum] at here
          obtain ⟨b, before, rfl⟩ := Option.map_eq_some_iff.mp here
          refine ⟨b, before, ?_⟩
          simp [boundAt]
        keys := keys_tryEmplace keys pc _
        kept
        entries := fun pc' id member => by
          rcases entries _ member with before | same
          · exact Or.inl before
          · obtain ⟨rfl, rfl⟩ := Prod.mk.inj same
            exact Or.inr ⟨rfl, rfl⟩
        mapped := fun pc' resolved => by
          obtain rfl := Option.some.inj resolved
          exact mapped }

theorem liveBreakpoints_lt (slot : info.liveBreakpoints[i]? = some bp) :
    i < info.breakpointsNum := by
  have bound := (List.getElem?_eq_some_iff.mp slot).1
  rw [liveBreakpoints, List.length_take] at bound
  omega

def liveIds (info : LEPUSDebuggerInfo) : List BreakpointId :=
  info.liveBreakpoints.map LEPUSBreakpoint.breakpointId

theorem liveIds_bind (written : info.breakpointsNum ≤ info.bps.length) {old : LEPUSBreakpoint}
    (slot : info.liveBreakpoints[i]? = some old) (sameId : bp.breakpointId = old.breakpointId) :
    (info.bindBreakpoint i bp).liveIds = info.liveIds := by
  have inside := liveBreakpoints_lt slot
  rw [bindBreakpoint, liveIds, liveIds]
  split
  · refine Eq.trans (congrArg (List.map _) (liveBreakpoints_write inside written _)) ?_
    exact ids_set slot sameId
  · rw [liveBreakpoints_write inside written, ids_set slot sameId]

/-- Looking an unresolved breakpoint up again keeps the links. -/
theorem Linked.bind (linked : Linked info) {old : LEPUSBreakpoint}
    (slot : info.liveBreakpoints[i]? = some old) (unresolved : old.pc = none)
    (sameId : bp.breakpointId = old.breakpointId) (noPc : bp.pc = none) (noFunction : bp.b = none) :
    Linked (info.bindBreakpoint i bp) :=
  linked.placed slot unresolved (by exact sameId)
    (placed_bind linked.written linked.keys (liveBreakpoints_lt slot) noPc noFunction)

/-- Moving a breakpoint changes its location and its script only. -/
theorem adjustBreakpoint_kept (info : LEPUSDebuggerInfo) (url : String) (hash : Option String) (bp : LEPUSBreakpoint) :
    (info.adjustBreakpoint url hash bp).breakpointId = bp.breakpointId ∧
      (info.adjustBreakpoint url hash bp).pc = bp.pc ∧
      (info.adjustBreakpoint url hash bp).b = bp.b := by
  rw [adjustBreakpoint]
  split
  · exact ⟨rfl, rfl, rfl⟩
  · dsimp only
    split <;> exact ⟨rfl, rfl, rfl⟩

theorem live_getElem? (inside : i < info.breakpointsNum) :
    info.liveBreakpoints[i]? = info.bps[i]? := by
  rw [liveBreakpoints, List.getElem?_take, if_pos inside]

section Load

variable (script : LEPUSScriptSource)

theorem adjustSlot_num (i : Nat) :
    (info.adjustSlot script i).breakpointsNum = info.breakpointsNum := by
  have bindNum : ∀ bp, (info.bindBreakpoint i bp).breakpointsNum = info.breakpointsNum := by
    intro bp
    rw [bindBreakpoint]
    split <;> rfl
  rw [adjustSlot]
  split
  · rfl
  · split
    · exact bindNum _
    · rfl

theorem Linked.adjustSlot (linked : Linked info) {i : Nat} (inside : i < info.breakpointsNum) :
    Linked (info.adjustSlot script i) ∧ (info.adjustSlot script i).liveIds = info.liveIds := by
  rw [LEPUSDebuggerInfo.adjustSlot]
  split
  next => exact ⟨linked, rfl⟩
  next bp found =>
    split
    next matched =>
      have unresolved : bp.pc = none := Option.isNone_iff_eq_none.mp matched.1
      have slot : info.liveBreakpoints[i]? = some bp := by
        rw [live_getElem? inside]
        exact found
      have unbound : bp.b = none := by
        rw [linked.bound bp (List.mem_of_getElem? slot), unresolved]
        rfl
      obtain ⟨sameId, samePc, sameB⟩ := adjustBreakpoint_kept info bp.scriptUrl none
        { bp with scriptId := script.id }
      exact ⟨linked.bind slot unresolved sameId (samePc.trans unresolved) (sameB.trans unbound),
        liveIds_bind linked.written slot sameId⟩
    next => exact ⟨linked, rfl⟩

theorem Linked.adjustBreakpoints (linked : Linked info) :
    Linked (info.adjustBreakpoints script) ∧
      (info.adjustBreakpoints script).liveIds = info.liveIds := by
  have rounds : ∀ (slots : List Nat) (info : LEPUSDebuggerInfo), Linked info →
      (∀ i ∈ slots, i < info.breakpointsNum) →
      Linked (slots.foldl (fun info i => info.adjustSlot script i) info) ∧
        (slots.foldl (fun info i => info.adjustSlot script i) info).liveIds = info.liveIds := by
    intro slots
    induction slots with
    | nil => exact fun _ linked _ => ⟨linked, rfl⟩
    | cons i rest ih =>
        intro info linked inside
        obtain ⟨adjusted, sameIds⟩ := linked.adjustSlot script (inside i List.mem_cons_self)
        have later : ∀ j ∈ rest, j < (info.adjustSlot script i).breakpointsNum := by
          intro j member
          rw [adjustSlot_num]
          exact inside j (List.mem_cons_of_mem i member)
        obtain ⟨linked', ids⟩ := ih _ adjusted later
        exact ⟨linked', ids.trans sameIds⟩
  exact rounds _ info linked fun i member => List.mem_range.mp member

/-- New functions come after the old ones and no breakpoint is bound to them. -/
theorem Linked.withFunctions (linked : Linked info) (loaded : List DebuggerBytecode)
    (uncounted : ∀ b ∈ loaded, b.bpNum = 0) (scripts : List LEPUSScriptSource) (scriptId : Nat) :
    Linked { info with
      scriptList := scripts
      bytecodeList := info.bytecodeList ++ loaded
      nextScriptId := scriptId } where
  written := linked.written
  ptrs := linked.ptrs
  fresh := linked.fresh
  bound := linked.bound
  located := by
    intro bp member pc resolved
    have found := linked.located bp member pc resolved
    rw [breakpointPc] at found ⊢
    split at found
    · cases found
    · next known =>
        rw [if_neg known]
        exact findIn_append found loaded
  keys := linked.keys
  owned := linked.owned
  mapped := linked.mapped
  counted := by
    intro f b found
    change (info.bytecodeList ++ loaded)[f]? = some b at found
    change b.bpNum = boundTo info.liveBreakpoints f
    by_cases old : f < info.bytecodeList.length
    · rw [List.getElem?_append_left old] at found
      exact linked.counted f b found
    · rw [List.getElem?_append_right (by omega)] at found
      have nothing : boundTo info.liveBreakpoints f = 0 := by
        rw [boundTo, List.countP_eq_zero]
        intro bp member isBound
        have toF : bp.pc.map BytecodePc.function = some f := by
          rw [← linked.bound bp member]
          exact of_decide_eq_true isBound
        obtain ⟨pc, resolved, rfl⟩ := Option.map_eq_some_iff.mp toF
        exact old (breakpointPc_lt (linked.located bp member pc resolved))
      rw [nothing, uncounted b (List.mem_of_getElem? found)]
      rfl

theorem Linked.loadScript (linked : Linked info) (url hash : Option String)
    (functions : List LoadedFunction) : Linked (info.loadScript url hash functions) ∧
      (info.loadScript url hash functions).liveIds = info.liveIds := by
  refine (linked.withFunctions _ (fun b member => ?_) _ _).adjustBreakpoints _
  obtain ⟨f, -, rfl⟩ := List.mem_map.mp member
  rfl

end Load

section Set

theorem newBreakpoint_spec (info : LEPUSDebuggerInfo) (params : SetBreakpointParams) :
     (info.newBreakpoint params).breakpointId.ptr = info.nextBreakpointId ∧
    (info.newBreakpoint params).pc = none ∧ (info.newBreakpoint params).b = none := by
  rw [newBreakpoint]
  obtain ⟨sameId, samePc, sameB⟩ := adjustBreakpoint_kept info _ _ _
  exact ⟨congrArg BreakpointId.ptr sameId, samePc, sameB⟩

variable (params : SetBreakpointParams)

def withNew (info : LEPUSDebuggerInfo) (bp : LEPUSBreakpoint) : LEPUSDebuggerInfo :=
  { info.writeBreakpoint info.breakpointsNum bp with
    breakpointsNum := info.breakpointsNum + 1
    nextBreakpointId := info.nextBreakpointId + 1 }

theorem liveBreakpoints_withNew (written : info.breakpointsNum ≤ info.bps.length)
    (bp : LEPUSBreakpoint) : (info.withNew bp).liveBreakpoints = info.liveBreakpoints ++ [bp] := by
  change (info.bps.take info.breakpointsNum ++ bp ::
    info.bps.drop (info.breakpointsNum + 1)).take (info.breakpointsNum + 1) = _
  rw [List.take_append, List.length_take, Nat.min_eq_left written, Nat.add_sub_cancel_left,
    List.take_take, Nat.min_eq_right (Nat.le_succ _)]
  rfl

theorem Linked.withNew (linked : Linked info) {bp : LEPUSBreakpoint}
    (ptr : bp.breakpointId.ptr = info.nextBreakpointId) (noPc : bp.pc = none)
    (noFunction : bp.b = none) : Linked (info.withNew bp) := by
  have live := liveBreakpoints_withNew linked.written bp
  have members : ∀ x ∈ (info.withNew bp).liveBreakpoints, x ∈ info.liveBreakpoints ∨ x = bp := by
    intro x member
    rw [live] at member
    exact (List.mem_append.mp member).imp_right List.mem_singleton.mp
  constructor
  · change info.breakpointsNum + 1 ≤ (info.bps.take info.breakpointsNum ++ bp ::
      info.bps.drop (info.breakpointsNum + 1)).length
    rw [List.length_append, List.length_take, List.length_cons, Nat.min_eq_left linked.written]
    omega
  · rw [live, List.map_append, List.nodup_append]
    refine ⟨linked.ptrs, List.nodup_singleton _, fun ptr' member last lastMember same => ?_⟩
    obtain ⟨x, inLive, rfl⟩ := List.mem_map.mp member
    rw [List.map_singleton, List.mem_singleton] at lastMember
    have below := linked.fresh x inLive
    omega
  · intro x member
    change x.breakpointId.ptr < info.nextBreakpointId + 1
    rcases members x member with before | rfl
    · exact Nat.lt_succ_of_lt (linked.fresh x before)
    · omega
  · intro x member
    rcases members x member with before | rfl
    · exact linked.bound x before
    · rw [noPc, noFunction]
      rfl
  · intro x member pc resolved
    rcases members x member with before | rfl
    · exact linked.located x before pc resolved
    · rw [noPc] at resolved
      cases resolved
  · exact linked.keys
  · intro pc id entry
    obtain ⟨x, member, sameEntry, resolved⟩ := linked.owned pc id entry
    refine ⟨x, ?_, sameEntry, resolved⟩
    rw [live]
    exact List.mem_append_left _ member
  · intro x member pc resolved
    rcases members x member with before | rfl
    · exact linked.mapped x before pc resolved
    · rw [noPc] at resolved
      cases resolved
  · intro f b found
    rw [linked.counted f b found, live, boundTo, boundTo, List.countP_append]
    simp [noFunction]

theorem setBreakpointByURL_new (linked : Linked info)
    (notEqual : info.equalIndex params = none) :
    info.setBreakpointByURL params =
      (info.withNew (info.newBreakpoint params)).bindBreakpoint info.breakpointsNum
        (info.newBreakpoint params) := by
  have slot : (info.withNew (info.newBreakpoint params)).bps[info.breakpointsNum]? =
      some (info.newBreakpoint params) := by
    change (info.bps.take info.breakpointsNum ++ info.newBreakpoint params :: _)[_]? = _
    rw [List.getElem?_append_right (by simp), List.length_take,
      Nat.min_eq_left linked.written, Nat.sub_self]
    rfl
  have unresolved := (newBreakpoint_spec info params).2.1
  rw [setBreakpointByURL, addBreakpoint, notEqual]
  dsimp only
  rw [withNew] at slot
  rw [slot]
  have same : { info.newBreakpoint params with pc := none } = info.newBreakpoint params := by
    rw [← unresolved]
  exact congrArg ((info.withNew _).bindBreakpoint info.breakpointsNum) same

theorem equalIndex_some {i : Nat} (equal : info.equalIndex params = some i) :
    ∃ bp, info.liveBreakpoints[i]? = some bp := by
  obtain ⟨inside, -⟩ := List.findIdx?_eq_some_iff_getElem.mp equal
  exact ⟨_, List.getElem?_eq_getElem inside⟩

theorem setBreakpointByURL_equal {i : Nat} (equal : info.equalIndex params = some i)
    {bp : LEPUSBreakpoint} (slot : info.liveBreakpoints[i]? = some bp) :
    info.setBreakpointByURL params = info.bindBreakpoint i { bp with pc := none } := by
  have stored : info.bps[i]? = some bp := by
    rw [← live_getElem? (liveBreakpoints_lt slot)]
    exact slot
  rw [setBreakpointByURL, addBreakpoint, equal]
  simp only [stored]

def Repeats (info : LEPUSDebuggerInfo) (params : SetBreakpointParams) : Prop :=
  ((info.equalIndex params).bind (info.liveBreakpoints[·]?)).any (fun bp => bp.pc.isSome) = true

instance (info : LEPUSDebuggerInfo) (params : SetBreakpointParams) :
    Decidable (info.Repeats params) :=
  inferInstanceAs (Decidable (_ = true))

theorem repeats_iff : info.Repeats params ↔ ∃ i bp, info.equalIndex params = some i ∧
    info.liveBreakpoints[i]? = some bp ∧ bp.pc ≠ none := by
  simp only [Repeats, Option.any_eq_true, Option.bind_eq_some_iff, Option.isSome_iff_ne_none]
  constructor
  · rintro ⟨bp, ⟨i, equal, slot⟩, resolved⟩
    exact ⟨i, bp, equal, slot, resolved⟩
  · rintro ⟨i, bp, equal, slot, resolved⟩
    exact ⟨bp, ⟨i, equal, slot⟩, resolved⟩

theorem Linked.set (linked : Linked info) (once : ¬ info.Repeats params) :
    Linked (info.setBreakpointByURL params) := by
  cases equal : info.equalIndex params with
  | none =>
      rw [setBreakpointByURL_new params linked equal]
      obtain ⟨ptr, noPc, noFunction⟩ := newBreakpoint_spec info params
      have added := linked.withNew ptr noPc noFunction
      have slot : (info.withNew (info.newBreakpoint params)).liveBreakpoints[info.breakpointsNum]? =
          some (info.newBreakpoint params) := by
        have live : info.liveBreakpoints.length = info.breakpointsNum := by
          rw [liveBreakpoints, List.length_take, Nat.min_eq_left linked.written]
        rw [liveBreakpoints_withNew linked.written, ← live, List.getElem?_concat_length]
      exact added.bind slot noPc rfl noPc noFunction
  | some i =>
      obtain ⟨bp, slot⟩ := equalIndex_some params equal
      have unresolved : bp.pc = none := by
        by_contra resolved
        exact once ((repeats_iff params).mpr ⟨i, bp, equal, slot, resolved⟩)
      have unbound : bp.b = none := by
        rw [linked.bound bp (List.mem_of_getElem? slot), unresolved]
        rfl
      rw [setBreakpointByURL_equal params equal slot]
      exact linked.bind slot unresolved rfl rfl unbound

/-- A second request for a resolved breakpoint counts it twice. -/
theorem Linked.repeats_miscounts (linked : Linked info) (repeats : info.Repeats params) :
    ∃ (f : Nat) (b : DebuggerBytecode),
      (info.setBreakpointByURL params).bytecodeList[f]? = some b ∧
      b.bpNum ≠ boundTo (info.setBreakpointByURL params).liveBreakpoints f := by
  obtain ⟨i, bp, equal, slot, resolved⟩ := (repeats_iff params).mp repeats
  have member := List.mem_of_getElem? slot
  obtain ⟨pc, here⟩ := Option.ne_none_iff_exists'.mp resolved
  have located := linked.located bp member pc here
  have bound := linked.bound bp member
  rw [here] at bound
  have again : info.breakpointPc { bp with pc := none } = some pc := by
    refine Eq.trans ?_ located
    exact breakpointPc_congr rfl rfl rfl rfl
  have unchanged : { bp with b := some pc.function, pc := some pc } = bp := by
    rw [← here]
    exact congrArg (fun b => { bp with b }) bound.symm
  obtain ⟨b, found⟩ : ∃ b, info.bytecodeList[pc.function]? = some b :=
    ⟨_, List.getElem?_eq_getElem (breakpointPc_lt located)⟩
  have sameLive : (info.setBreakpointByURL params).liveBreakpoints = info.liveBreakpoints := by
    rw [setBreakpointByURL_equal params equal slot, bindBreakpoint, again]
    refine (liveBreakpoints_write (liveBreakpoints_lt slot) linked.written _).trans ?_
    change info.liveBreakpoints.set i { bp with b := some pc.function, pc := some pc } = _
    obtain ⟨inside, same⟩ := List.getElem?_eq_some_iff.mp slot
    rw [unchanged, ← same, List.set_getElem_self]
  have counted : (info.setBreakpointByURL params).bytecodeList[pc.function]? =
      some { b with bpNum := b.bpNum + 1 } := by
    rw [setBreakpointByURL_equal params equal slot, bindBreakpoint, again]
    change (addBpNum 1 pc.function info.bytecodeList)[pc.function]? = _
    rw [getElem?_addBpNum, found]
    simp
  refine ⟨pc.function, _, counted, ?_⟩
  have before := linked.counted pc.function b found
  rw [sameLive]
  change b.bpNum + 1 ≠ _
  omega

end Set

end LEPUSDebuggerInfo

end PrimJs
