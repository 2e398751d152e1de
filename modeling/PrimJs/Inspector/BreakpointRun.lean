import PrimJs.Foundation.OperationRun
import PrimJs.Inspector.BreakpointRemoval

/-! Runs of debugger requests and script loads, with the breakpoints that were set and not
removed since. -/

namespace PrimJs

open OperationRun

inductive BreakpointOp where
  | set (params : LEPUSDebuggerInfo.SetBreakpointParams)
  | remove (breakpointId : String)
  | load (url hash : Option String) (functions : List LEPUSDebuggerInfo.LoadedFunction)
  deriving DecidableEq, Repr

namespace LEPUSDebuggerInfo

variable {info : LEPUSDebuggerInfo}

def apply (info : LEPUSDebuggerInfo) : BreakpointOp → LEPUSDebuggerInfo
  | .set params => info.setBreakpointByURL params
  | .remove breakpointId => info.deleteBreakpointById breakpointId
  | .load url hash functions => info.loadScript url hash functions

def history (info : LEPUSDebuggerInfo) (ids : List BreakpointId) : BreakpointOp → List BreakpointId
  | .set params =>
      match info.equalIndex params with
      | some _ => ids
      | none => ids ++ [(info.newBreakpoint params).breakpointId]
  | .remove breakpointId => ids.filter fun id => id.text ≠ breakpointId
  | .load _ _ _ => ids

abbrev Tracked := LEPUSDebuggerInfo × List BreakpointId

def step (t : Tracked) (op : BreakpointOp) : Option (Unit × Tracked) :=
  some ((), t.1.apply op, history t.1 t.2 op)

/-- The list, the map and the counters agree on the breakpoints that were set and not removed,
and an instruction stops exactly where one of them is. -/
structure Consistent (t : Tracked) : Prop where
  listed : t.1.liveIds = t.2
  number : t.1.breakpointsNum = t.2.length
  mapped : ∀ bp ∈ t.1.liveBreakpoints, ∀ pc, bp.pc = some pc →
    ∃ id ∈ t.2, t.1.breakBytecodeMap.lookup pc = some id
  owned : ∀ pc id, t.1.breakBytecodeMap.lookup pc = some id → id ∈ t.2
  counted : ∀ (f : Nat) (b : DebuggerBytecode), t.1.bytecodeList[f]? = some b →
    b.bpNum = boundTo t.1.liveBreakpoints f
  stops : t.1.breakpointsIsActive = true → ∀ pc,
    (t.1.hitBreakpoint (fun _ => true) pc).isSome ↔ ∃ bp ∈ t.1.liveBreakpoints, bp.pc = some pc

/-- A request does not set a resolved breakpoint again and a removal leaves no breakpoint at a
location the map knows for the removed one. -/
def Separate (t : Tracked) : BreakpointOp → Prop
  | .set params => ¬ t.1.Repeats params
  | .remove breakpointId => ¬ t.1.Orphans breakpointId
  | .load _ _ _ => True

instance (t : Tracked) (op : BreakpointOp) : Decidable (Separate t op) := by
  unfold Separate
  split <;> infer_instance

theorem mem_liveIds {id : BreakpointId} :
    id ∈ info.liveIds ↔ ∃ bp ∈ info.liveBreakpoints, bp.breakpointId = id :=
  List.mem_map

/-- Linked tables stop exactly at the locations of the breakpoints. -/
theorem Linked.stops (linked : Linked info) (active : info.breakpointsIsActive = true)
    (pc : BytecodePc) : (info.hitBreakpoint (fun _ => true) pc).isSome ↔
      ∃ bp ∈ info.liveBreakpoints, bp.pc = some pc := by
  constructor
  · intro hit
    obtain ⟨bp, found⟩ := Option.isSome_iff_exists.mp hit
    obtain ⟨b, -, afterFunction⟩ := Option.bind_eq_some_iff.mp found
    obtain ⟨id, entry, -⟩ := Option.bind_eq_some_iff.mp afterFunction
    obtain ⟨owner, member, -, resolved⟩ := linked.owned pc id (KeyedList.mem_of_lookup entry)
    exact ⟨owner, member, resolved⟩
  · rintro ⟨bp, member, resolved⟩
    obtain ⟨id, entry⟩ := linked.mapped bp member pc resolved
    obtain ⟨owner, ownerMember, rfl, -⟩ := linked.owned pc id entry
    obtain ⟨b, function⟩ : ∃ b, info.bytecodeList[pc.function]? = some b :=
      ⟨_, List.getElem?_eq_getElem (breakpointPc_lt (linked.located bp member pc resolved))⟩
    have bound : bp.b = some pc.function := by
      rw [linked.bound bp member, resolved]
      rfl
    have counts : b.bpNum ≠ 0 := by
      have positive : 0 < boundTo info.liveBreakpoints pc.function :=
        List.countP_pos_iff.mpr ⟨bp, member, decide_eq_true bound⟩
      rw [linked.counted pc.function b function]
      omega
    have there : (info.liveBreakpoints.find? fun bp =>
        bp.breakpointId.ptr = owner.breakpointId.ptr && true).isSome := by
      rw [List.find?_isSome]
      exact ⟨owner, ownerMember, by simp⟩
    simp [hitBreakpoint, function, KeyedList.lookup_of_mem linked.keys entry, counts, active]
    simpa using there

/-- The links, and the list of what was set and not removed. -/
structure TrackedLinked (t : Tracked) : Prop where
  linked : Linked t.1
  listed : t.1.liveIds = t.2

theorem TrackedLinked.consistent {t : Tracked} (tracked : TrackedLinked t) : Consistent t := by
  obtain ⟨linked, listed⟩ := tracked
  refine ⟨listed, ?_, ?_, ?_, linked.counted, linked.stops⟩
  · rw [← listed, liveIds, List.length_map, liveBreakpoints, List.length_take,
      Nat.min_eq_left linked.written]
  · intro bp member pc resolved
    obtain ⟨id, entry⟩ := linked.mapped bp member pc resolved
    obtain ⟨owner, ownerMember, sameId, -⟩ := linked.owned pc id entry
    refine ⟨id, ?_, KeyedList.lookup_of_mem linked.keys entry⟩
    rw [← listed]
    exact mem_liveIds.mpr ⟨owner, ownerMember, sameId⟩
  · intro pc id found
    obtain ⟨owner, ownerMember, sameId, -⟩ := linked.owned pc id (KeyedList.mem_of_lookup found)
    rw [← listed]
    exact mem_liveIds.mpr ⟨owner, ownerMember, sameId⟩

theorem Linked.liveIds_set (linked : Linked info) (params : SetBreakpointParams) :
    (info.setBreakpointByURL params).liveIds = history info info.liveIds (.set params) := by
  rw [history]
  cases equal : info.equalIndex params with
  | none =>
      have live := liveBreakpoints_withNew linked.written (info.newBreakpoint params)
      obtain ⟨ptr, noPc, noFunction⟩ := newBreakpoint_spec info params
      have whole : info.liveBreakpoints.length = info.breakpointsNum := by
        rw [liveBreakpoints, List.length_take, Nat.min_eq_left linked.written]
      have slot : (info.withNew (info.newBreakpoint params)).liveBreakpoints[info.breakpointsNum]? =
          some (info.newBreakpoint params) := by
        rw [live, ← whole, List.getElem?_concat_length]
      rw [setBreakpointByURL_new params linked equal, liveIds_bind
        (linked.withNew ptr noPc noFunction).written slot rfl, liveIds, live, List.map_append]
      rfl
  | some i =>
      obtain ⟨bp, slot⟩ := equalIndex_some params equal
      rw [setBreakpointByURL_equal params equal slot]
      exact liveIds_bind linked.written slot rfl

theorem Linked.liveIds_delete (linked : Linked info) (text : String) :
    (info.deleteBreakpointById text).liveIds = info.liveIds.filter fun id => id.text ≠ text := by
  rw [liveIds, linked.liveBreakpoints_delete text, liveIds, List.filter_map]
  rfl

theorem tracked_step (t : Tracked) (op : BreakpointOp) (tracked : TrackedLinked t)
    (separate : Separate t op) :
    ∃ result t', step t op = some (result, t') ∧ TrackedLinked t' := by
  refine ⟨(), _, rfl, ?_⟩
  obtain ⟨linked, listed⟩ := tracked
  cases op with
  | set params =>
      refine ⟨linked.set params separate, ?_⟩
      have ids := linked.liveIds_set params
      rw [listed] at ids
      exact ids
  | remove text =>
      refine ⟨linked.delete text separate, ?_⟩
      have ids := linked.liveIds_delete text
      rw [listed] at ids
      exact ids
  | load url hash functions =>
      obtain ⟨linked', ids⟩ := linked.loadScript url hash functions
      exact ⟨linked', ids.trans listed⟩

/-- An operation that leaves the tables consistent was separate. -/
theorem separate_of_consistent (t : Tracked) (op : BreakpointOp) (result : Unit) (t' : Tracked)
    (tracked : TrackedLinked t) (run : step t op = some (result, t')) (consistent : Consistent t') :
    Separate t op := by
  obtain ⟨-, rfl⟩ := Prod.mk.inj (Option.some.inj run)
  cases op with
  | set params =>
      intro repeats
      obtain ⟨f, b, found, miscounted⟩ := tracked.linked.repeats_miscounts params repeats
      exact miscounted (consistent.counted f b found)
  | remove text =>
      intro orphans
      obtain ⟨bp, member, pc, resolved, unmapped⟩ := tracked.linked.orphans_unmapped text orphans
      obtain ⟨id, -, found⟩ := consistent.mapped bp member pc resolved
      change (t.1.deleteBreakpointById text).breakBytecodeMap.lookup pc = some id at found
      rw [unmapped] at found
      cases found
  | load url hash functions => trivial

/-- The debugger before any script is loaded and any breakpoint is set. -/
def start (active : Bool) : Tracked :=
  ({ scriptList := []
     bytecodeList := []
     bps := []
     breakpointsNum := 0
     nextBreakpointId := 0
     breakBytecodeMap := []
     breakpointsIsActive := active
     nextScriptId := 0 }, [])

theorem tracked_start (active : Bool) : TrackedLinked (start active) := by
  refine ⟨⟨Nat.le_refl 0, List.nodup_nil, ?_, ?_, ?_, List.nodup_nil, ?_, ?_, ?_⟩, rfl⟩
  · exact fun bp member => absurd member List.not_mem_nil
  · exact fun bp member => absurd member List.not_mem_nil
  · exact fun bp member => absurd member List.not_mem_nil
  · exact fun pc id member => absurd member List.not_mem_nil
  · exact fun bp member => absurd member List.not_mem_nil
  · intro f b found
    cases found

/-- The breakpoint tables stay consistent in exactly the runs whose steps are separate. -/
theorem run_consistent_iff (active : Bool) (ops : List BreakpointOp) :
    Runs step Consistent (fun _ _ _ _ => True) (start active) ops ↔
      Along step Separate (start active) ops :=
  runs_iff_along (fun _ tracked => tracked.consistent) tracked_step separate_of_consistent ops _
    (tracked_start active)

/-- A script with one function whose code has locations on lines 0 and 1. -/
def loadTwoLines : BreakpointOp := .load (some "a.js") none [⟨true, 1, 0, [0, 1, 130, 64]⟩]

def setAt (line : Int) (column : Option Int) : BreakpointOp :=
  .set ⟨line, column, none, none, some "a.js", none⟩

/-- Two breakpoints move to one location; the map knows it for the first, which is removed. -/
theorem removal_orphans_breakpoint :
    ¬ ∀ (active : Bool) (ops : List BreakpointOp),
      Runs step Consistent (fun _ _ _ _ => True) (start active) ops := by
  intro claim
  have separate := (runs_iff_along (fun _ tracked => tracked.consistent) tracked_step
    separate_of_consistent _ _ (tracked_start true)).mp
    (claim true [loadTwoLines, setAt 1 none, setAt 0 (some 1), .remove "1:1:-1:a.js"])
  have shared : ¬ Along step Separate (start true)
      [loadTwoLines, setAt 1 none, setAt 0 (some 1), .remove "1:1:-1:a.js"] := by
    decide +kernel
  exact shared separate

end LEPUSDebuggerInfo

end PrimJs
