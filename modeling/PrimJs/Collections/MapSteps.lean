import PrimJs.Collections.MapTable

/-! What each operation keeps while the collection is alive. -/

namespace PrimJs.JSMap

open JSMapState Config

variable {κ ν : Type} {keys : MapKeys κ} {s s' : JSMapState κ ν} {r : RecordId}

/-- The references that iterators and operations in progress hold to a record -/
def heldBy (iterators : List (Option JSMapIterator)) (frames : List Frame) (r : RecordId) : Nat :=
  (iterators.filterMap fun it => it.bind JSMapIterator.curRecord).count r
    + (frames.flatMap Frame.held).count r

def FrameOk (s : JSMapState κ ν) : Frame → Prop
  | .forEachResult (some el) => s.isLive el = true
  | .clear mr staged => ∀ r ∈ mr :: staged, r < s.next ∧ s.isEntry r = false
  | .keyDeath mr toFree => mr = none ∧ toFree = []
  | .finalizer _ _ => False
  | _ => True

structure LiveInv (keys : MapKeys κ) (c : Config κ ν) : Prop where
  live : c.live = true
  store : StoreInv keys (heldBy c.iterators c.frames) c.store
  frames : ∀ frame ∈ c.frames, FrameOk c.store frame

section Held

variable {iterators : List (Option JSMapIterator)} {frames : List Frame}

theorem heldBy_cons (frame : Frame) (r : RecordId) :
    heldBy iterators (frame :: frames) r = heldBy iterators frames r + frame.held.count r := by
  rw [heldBy, heldBy, List.flatMap_cons, List.count_append]
  omega

theorem heldBy_plain {frame : Frame} (plain : frame.held = []) :
    heldBy iterators (frame :: frames) = heldBy iterators frames := by
  funext r
  rw [heldBy_cons, plain, List.count_nil, Nat.add_zero]

def iteratorHolds (it : Option JSMapIterator) (r : RecordId) : Nat :=
  if (it.bind JSMapIterator.curRecord) = some r then 1 else 0

theorem count_iterators_cons (it : Option JSMapIterator) (r : RecordId) :
    ((it :: iterators).filterMap fun it => it.bind JSMapIterator.curRecord).count r
      = (iterators.filterMap fun it => it.bind JSMapIterator.curRecord).count r
        + iteratorHolds it r := by
  rw [iteratorHolds]
  cases cur : it.bind JSMapIterator.curRecord with
  | none => simp [cur]
  | some x =>
      rw [List.filterMap_cons]
      simp only [cur, List.count_cons, Option.some.injEq, beq_iff_eq]

theorem heldBy_set {i : Nat} {it : Option JSMapIterator} (there : iterators[i]? = some it)
    (it' : Option JSMapIterator) (r : RecordId) :
    heldBy (iterators.set i it') frames r + iteratorHolds it r
      = heldBy iterators frames r + iteratorHolds it' r := by
  have counts : ((iterators.set i it').filterMap fun it => it.bind JSMapIterator.curRecord).count r
      + iteratorHolds it r
      = (iterators.filterMap fun it => it.bind JSMapIterator.curRecord).count r
        + iteratorHolds it' r := by
    induction iterators generalizing i with
    | nil => simp at there
    | cons first rest ih =>
        cases i with
        | zero =>
            have first_ : first = it := by simpa using there
            rw [List.set_cons_zero, count_iterators_cons, count_iterators_cons, first_]
            omega
        | succ i =>
            have later := ih (i := i) (by simpa using there)
            rw [List.set_cons_succ, count_iterators_cons, count_iterators_cons]
            omega
  rw [heldBy, heldBy]
  omega

theorem heldBy_append_new (kind : JSIteratorKind) :
    heldBy (iterators ++ [some ⟨true, kind, none⟩]) frames = heldBy iterators frames := by
  funext r
  simp [heldBy]

end Held

section Next

variable {c c' : Config κ ν} {lost : RecordId → Prop}

theorem FrameOk.evolve {frame : Frame} (ok : FrameOk s frame) (evolves : Evolves lost s s')
    (kept : ∀ el, frame = .forEachResult (some el) → ¬ lost el) : FrameOk s' frame := by
  cases frame with
  | forEachResult el =>
      cases el with
      | none => trivial
      | some el => exact evolves.live el ok (kept el rfl)
  | clear mr staged =>
      intro r member
      obtain ⟨old, none_⟩ := ok r member
      exact ⟨Nat.lt_of_lt_of_le old evolves.next, evolves.entries r old none_⟩
  | keyDeath mr toFree => exact ok
  | finalizer mr el => exact ok
  | release => trivial
  | forEachCall mr => trivial
  | iteratorObject => trivial

/-- The invariant after a step, from what the step does to the store and which frames remain. -/
theorem LiveInv.next (inv : LiveInv keys c) (live : c'.live = true)
    (store : StoreInv keys (heldBy c'.iterators c'.frames) c'.store)
    (evolves : Evolves lost c.store c'.store)
    (frames : ∀ frame ∈ c'.frames, frame ∈ c.frames ∨ FrameOk c'.store frame)
    (kept : ∀ el, lost el → .forEachResult (some el) ∉ c.frames) : LiveInv keys c' where
  live := live
  store := store
  frames frame member := by
    rcases frames frame member with old | ok
    · apply (inv.frames frame old).evolve evolves
      intro el same gone
      exact kept el gone (same ▸ old)
    · exact ok

theorem LiveInv.records_live (inv : LiveInv keys c) : ∀ n ∈ c.store.records, c.store.isLive n = true :=
  fun n member => (inv.store.listed n).mp member

theorem StoreInv.live_of_held {held : RecordId → Nat} (inv : StoreInv keys held s)
    (holds : held r ≠ 0) : s.isLive r = true := by
  by_contra gone
  exact holds (inv.dead r (Option.not_isSome_iff_eq_none.mp gone))

end Next

section Traversal

theorem suffixFrom_spec {held : RecordId → Nat} (inv : StoreInv keys held s) {el : Option RecordId}
    (live : ∀ x ∈ el, s.isLive x = true) :
    ∃ rest, s.suffixFrom el = some rest ∧ ∀ n ∈ rest, s.isLive n = true := by
  cases el with
  | none => exact ⟨[], rfl, by simp⟩
  | some el =>
      have here := live el rfl
      refine ⟨s.records.dropWhile (· ≠ el), ?_, fun n member => ?_⟩
      · rw [suffixFrom, if_pos ⟨here, (inv.listed el).mpr here⟩]
      · exact (inv.listed n).mp ((List.dropWhile_sublist _).subset member)

theorem firstNonEmpty_spec {rest : List RecordId} (live : ∀ n ∈ rest, s.isLive n = true) :
    ∃ found, s.firstNonEmpty rest = some found ∧ ∀ r ∈ found, ∃ mr, s.heap r = some mr := by
  induction rest with
  | nil => exact ⟨none, rfl, by simp⟩
  | cons x rest ih =>
      obtain ⟨mr, here⟩ := isLive_iff.mp (live x List.mem_cons_self)
      obtain ⟨found, run, later⟩ := ih fun n member => live n (List.mem_cons_of_mem _ member)
      by_cases isEmpty : mr.empty = true
      · exact ⟨found, by simp [firstNonEmpty, here, isEmpty, run], later⟩
      · refine ⟨some x, by simp [firstNonEmpty, here, isEmpty], fun r same => ⟨mr, ?_⟩⟩
        have isX : x = r := by simpa using same
        rw [← isX]
        exact here

/-- From a live position the next record that is not empty is found. -/
theorem StoreInv.find_from {held : RecordId → Nat} (inv : StoreInv keys held s)
    {el : Option RecordId} (live : ∀ x ∈ el, s.isLive x = true) :
    ∃ rest found, s.suffixFrom el = some rest ∧ s.firstNonEmpty rest = some found
      ∧ ∀ r ∈ found, ∃ mr, s.heap r = some mr := by
  obtain ⟨rest, suffix, restLive⟩ := suffixFrom_spec inv live
  obtain ⟨found, run, there⟩ := firstNonEmpty_spec restLive
  exact ⟨rest, found, suffix, run, there⟩

theorem nextOf_ne {list : List RecordId} (distinct : list.Nodup) {n : RecordId}
    (following : n ∈ nextOf list r) : n ≠ r := by
  intro same
  rw [nextOf] at following
  cases rest : list.dropWhile (· ≠ r) with
  | nil =>
      rw [rest] at following
      simp at following
  | cons first tail =>
      have isR : first = r := by
        have stops := List.head?_dropWhile_not (· ≠ r) list
        rw [rest] at stops
        simpa using stops
      have tailDistinct : (first :: tail).Nodup := rest ▸ distinct.sublist (List.dropWhile_sublist _)
      have member : n ∈ tail := by
        rw [rest] at following
        exact List.mem_of_mem_head? following
      rw [isR, ← same] at tailDistinct
      exact (List.nodup_cons.mp tailDistinct).1 member

end Traversal

def Stays (keys : MapKeys κ) (outcome : Option (Stepped κ ν)) : Prop :=
  ∃ reply c', outcome = some (reply, c') ∧ LiveInv keys c'

section ForEach

variable {c : Config κ ν}

theorem LiveInv.same (inv : LiveInv keys c) (reply : Reply κ ν) : Stays keys (some (reply, c)) :=
  ⟨reply, c, rfl, inv⟩

theorem forEachFrom_stays (inv : LiveInv keys c) {el : Option RecordId}
    (live : ∀ x ∈ el, c.store.isLive x = true) : Stays keys (c.forEachFrom el) := by
  obtain ⟨rest, found, suffix, run, there⟩ := inv.store.find_from live
  rw [Config.forEachFrom]
  simp only [suffix, run, Option.bind_eq_bind, Option.bind_some]
  cases found with
  | none => exact inv.same .done
  | some r =>
      obtain ⟨mr, here⟩ := there r rfl
      have others : ∀ x, x ≠ r →
          heldBy c.iterators (.forEachCall r :: c.frames) x = heldBy c.iterators c.frames x := by
        intro x differs
        simp [heldBy_cons, Frame.held, Ne.symm differs]
      have more : heldBy c.iterators (.forEachCall r :: c.frames) r
          = heldBy c.iterators c.frames r + 1 := by
        simp [heldBy_cons, Frame.held]
      obtain ⟨incremented, store⟩ := inv.store.increment here others more
      simp only [incremented, Option.bind_some]
      refine ⟨_, _, rfl, inv.next inv.live store (Evolves.setRecord here
        { mr with refCount := mr.refCount + 1 } id) ?_ (fun _ gone => gone.elim)⟩
      intro frame member
      rcases List.mem_cons.mp member with isNew | old
      · right
        rw [isNew]
        trivial
      · exact .inl old

/-- The record is not one that a suspended `forEach` goes on with, if this is its last
reference. -/
def MayDrop (c : Config κ ν) (r : RecordId) : Prop :=
  ∀ mr ∈ c.store.heap r, mr.refCount = 1 → .forEachResult (some r) ∉ c.frames

theorem forEachReturned_stays {mr : RecordId} {frames : List Frame}
    (inv : LiveInv keys { c with frames := .forEachCall mr :: frames })
    (mayDrop : MayDrop { c with frames := .forEachCall mr :: frames } mr) (threw : Bool) :
    Stays keys (Config.forEachReturned { c with frames := frames } mr threw) := by
  have holds : heldBy c.iterators (.forEachCall mr :: frames) mr
      = heldBy c.iterators frames mr + 1 := by
    simp [heldBy_cons, Frame.held]
  have live : c.store.isLive mr = true := by
    apply inv.store.live_of_held
    rw [holds]
    exact Nat.succ_ne_zero _
  obtain ⟨record, here⟩ := isLive_iff.mp live
  have others : ∀ x, x ≠ mr →
      heldBy c.iterators frames x = heldBy c.iterators (.forEachCall mr :: frames) x := by
    intro x differs
    simp [heldBy_cons, Frame.held, Ne.symm differs]
  obtain ⟨run, store⟩ := inv.store.mapDecrefRecord here others holds.symm
  have evolves : Evolves _ c.store _ := Evolves.afterDecrement here
  have kept : ∀ el, (el = mr ∧ record.refCount = 1)
      → .forEachResult (some el) ∉ Frame.forEachCall mr :: frames := by
    rintro el ⟨rfl, last⟩
    exact mayDrop record here last
  rw [Config.forEachReturned]
  simp only at run
  simp only [run, Option.bind_eq_bind, Option.bind_some]
  cases threw with
  | true =>
      exact ⟨_, _, rfl, inv.next inv.live store evolves
        (fun frame member => .inl (List.mem_cons_of_mem _ member)) kept⟩
  | false =>
      refine ⟨_, _, rfl, inv.next inv.live ?_ evolves (fun frame member => ?_) kept⟩
      · rw [heldBy_plain rfl]
        exact store
      · rcases List.mem_cons.mp member with isNew | old
        · right
          rw [isNew]
          cases position : nextOf c.store.records mr with
          | none => trivial
          | some el =>
              have there : c.store.isLive el = true :=
                (inv.store.listed el).mp (mem_of_nextOf position)
              exact evolves.live el there fun gone =>
                nextOf_ne inv.store.distinct position gone.1
        · exact .inl (List.mem_cons_of_mem _ old)

end ForEach

section Clear

variable {c : Config κ ν}

/-- The staged records are empty and held twice: once for themselves and once for `clear`. -/
theorem clearStaged_stays {staged : List RecordId} (live : c.live = true)
    (store : StoreInv keys (fun x => heldBy c.iterators c.frames x + 2 * staged.count x) c.store)
    (frames : ∀ frame ∈ c.frames, FrameOk c.store frame)
    (empties : ∀ x ∈ staged, x < c.store.next ∧ c.store.isEntry x = false) :
    Stays keys (c.clearStaged staged) := by
  cases staged with
  | nil => exact ⟨.done, c, rfl, live, by simpa using store, frames⟩
  | cons r staged =>
      have holds : heldBy c.iterators c.frames r + 2 * (r :: staged).count r
          = heldBy c.iterators (.clear r staged :: c.frames) r + 1 := by
        rw [heldBy_cons, Frame.held, List.count_cons_self, List.count_cons_self, List.count_append]
        omega
      have others : ∀ x, x ≠ r → heldBy c.iterators (.clear r staged :: c.frames) x
          = heldBy c.iterators c.frames x + 2 * (r :: staged).count x := by
        intro x differs
        rw [heldBy_cons, Frame.held, List.count_cons_of_ne (Ne.symm differs),
          List.count_cons_of_ne (Ne.symm differs), List.count_append]
        omega
      have here : c.store.isLive r = true := by
        apply store.live_of_held
        rw [holds]
        exact Nat.succ_ne_zero _
      obtain ⟨mr, there⟩ := isLive_iff.mp here
      have isEmpty : mr.empty = true := by
        have none_ := (empties r List.mem_cons_self).2
        rw [isEntry_of_heap there] at none_
        simpa using none_
      obtain ⟨s', run, inv, evolves⟩ := store.mapReleaseRecord there isEmpty others holds.symm
      have shared : mr.refCount ≠ 1 := by
        obtain ⟨count, -⟩ := store.counted r mr there
        rw [holds, heldBy_cons, Frame.held, List.count_cons_self, JSMapRecord.own,
          if_pos isEmpty] at count
        omega
      have kept : Evolves (fun _ => False) c.store s' :=
        evolves.mono fun x gone => shared gone.2
      rw [Config.clearStaged]
      simp only [run, Option.bind_eq_bind, Option.bind_some]
      refine ⟨_, _, rfl, live, inv, fun frame member => ?_⟩
      rcases List.mem_cons.mp member with isNew | old
      · rw [isNew]
        intro x isStaged
        obtain ⟨old, none_⟩ := empties x isStaged
        exact ⟨Nat.lt_of_lt_of_le old kept.next, kept.entries x old none_⟩
      · exact (frames frame old).evolve kept fun _ _ gone => gone

theorem startClear_stays [DecidableEq κ] (inv : LiveInv keys c) : Stays keys (c.startClear keys) := by
  rw [Config.startClear]
  by_cases isWeak : c.store.isWeak = true
  · rw [if_pos isWeak]
    exact inv.same .refused
  · obtain ⟨staged, s', run, store, evolves, empties⟩ := inv.store.stageRecords inv.records_live
    rw [if_neg isWeak]
    simp only [run, Option.bind_eq_bind, Option.bind_some]
    exact clearStaged_stays inv.live store
      (fun frame member => (inv.frames frame member).evolve evolves fun _ _ gone => gone) empties

theorem clearReleased_stays {mr : RecordId} {staged : List RecordId} {frames : List Frame}
    (inv : LiveInv keys { c with frames := .clear mr staged :: frames })
    (mayDrop : MayDrop { c with frames := .clear mr staged :: frames } mr) :
    Stays keys (Config.clearReleased { c with frames := frames } mr staged) := by
  have holds : heldBy c.iterators (.clear mr staged :: frames) mr
      = heldBy c.iterators frames mr + 2 * staged.count mr + 1 := by
    rw [heldBy_cons, Frame.held, List.count_cons_self, List.count_append]
    omega
  have others : ∀ x, x ≠ mr → heldBy c.iterators frames x + 2 * staged.count x
      = heldBy c.iterators (.clear mr staged :: frames) x := by
    intro x differs
    rw [heldBy_cons, Frame.held, List.count_cons_of_ne (Ne.symm differs), List.count_append]
    omega
  have live : c.store.isLive mr = true := by
    apply inv.store.live_of_held
    rw [holds]
    exact Nat.succ_ne_zero _
  obtain ⟨record, here⟩ := isLive_iff.mp live
  obtain ⟨run, store⟩ := inv.store.mapDecrefRecord here others holds.symm
  have evolves : Evolves _ c.store _ := Evolves.afterDecrement here
  have empties := inv.frames (.clear mr staged) List.mem_cons_self
  rw [Config.clearReleased]
  simp only at run
  simp only [run, Option.bind_eq_bind, Option.bind_some]
  have isLive : c.live = true := inv.live
  apply clearStaged_stays (c := { c with
    store := afterDecrement c.store mr record, frames := frames }) isLive store
  · intro frame member
    apply (inv.frames frame (List.mem_cons_of_mem _ member)).evolve evolves
    rintro el same ⟨rfl, last⟩
    exact mayDrop record here last (List.mem_cons_of_mem _ (same ▸ member))
  · intro x isStaged
    obtain ⟨old, none_⟩ := empties x (List.mem_cons_of_mem _ isStaged)
    exact ⟨Nat.lt_of_lt_of_le old evolves.next, evolves.entries x old none_⟩

end Clear

section Iterators

variable {c : Config κ ν} {i : Nat} {it : JSMapIterator}

theorem heldBy_attached {iterators : List (Option JSMapIterator)} {frames : List Frame}
    {it : Option JSMapIterator} (there : iterators[i]? = some it) (it' : Option JSMapIterator)
    (sameRecord : it'.bind JSMapIterator.curRecord = it.bind JSMapIterator.curRecord) :
    heldBy (iterators.set i it') frames = heldBy iterators frames := by
  funext r
  have counts : heldBy (iterators.set i it') frames r + iteratorHolds it r
      = heldBy iterators frames r + iteratorHolds it' r := heldBy_set there it' r
  have same : iteratorHolds it' r = iteratorHolds it r := by
    rw [iteratorHolds, iteratorHolds, sameRecord]
  omega

def leaves (c : Config κ ν) (it : JSMapIterator) (r : RecordId) : Prop :=
  it.curRecord = some r ∧ ∃ mr, c.store.heap r = some mr ∧ mr.refCount = 1

theorem LiveInv.leave {r : RecordId} (inv : LiveInv keys c) (there : c.iterators[i]? = some (some it))
    (current : it.curRecord = some r) (it' : Option JSMapIterator)
    (without : it'.bind JSMapIterator.curRecord = none) :
    ∃ store, c.store.mapDecrefRecord r = some store
      ∧ StoreInv keys (heldBy (c.iterators.set i it') c.frames) store
      ∧ Evolves (leaves c it) c.store store := by
  have holds (x : RecordId) : heldBy (c.iterators.set i it') c.frames x
      + iteratorHolds (some it) x = heldBy c.iterators c.frames x + iteratorHolds it' x :=
    heldBy_set there it' x
  have none_ (x : RecordId) : iteratorHolds it' x = 0 := by
    rw [iteratorHolds, without]
    rfl
  have one (x : RecordId) : iteratorHolds (some it) x = if r = x then 1 else 0 := by
    simp [iteratorHolds, current]
  simp only [none_, one, Nat.add_zero] at holds
  have less : heldBy (c.iterators.set i it') c.frames r + 1 = heldBy c.iterators c.frames r := by
    simpa using holds r
  have others : ∀ x, x ≠ r → heldBy (c.iterators.set i it') c.frames x
      = heldBy c.iterators c.frames x := by
    intro x differs
    simpa [Ne.symm differs] using holds x
  have live : c.store.isLive r = true := by
    apply inv.store.live_of_held
    rw [← less]
    exact Nat.succ_ne_zero _
  obtain ⟨mr, here⟩ := isLive_iff.mp live
  obtain ⟨run, store⟩ := inv.store.mapDecrefRecord here others less
  refine ⟨_, run, store, (Evolves.afterDecrement here).mono fun x gone => ?_⟩
  rw [gone.1]
  exact ⟨current, mr, here, gone.2⟩

theorem advance_spec (inv : LiveInv keys c) (there : c.iterators[i]? = some (some it)) :
    ∃ el store, advance c.store it.curRecord = some (el, store)
      ∧ StoreInv keys (heldBy (c.iterators.set i (some { it with curRecord := none })) c.frames)
        store
      ∧ Evolves (leaves c it) c.store store ∧ ∀ x ∈ el, store.isLive x = true := by
  cases current : it.curRecord with
  | none =>
      refine ⟨c.store.records.head?, c.store, rfl, ?_, ?_, fun x first => ?_⟩
      · rw [heldBy_attached there _ (by simp [current])]
        exact inv.store
      · exact (Evolves.refl _).mono fun _ gone => gone.elim
      · exact inv.records_live x (List.mem_of_mem_head? first)
  | some r =>
      obtain ⟨store, run, inv', evolves⟩ :=
        inv.leave there current (some { it with curRecord := none }) rfl
      refine ⟨nextOf c.store.records r, store, ?_, inv', evolves, fun x following => ?_⟩
      · rw [advance]
        simp only [run, Option.bind_eq_bind, Option.bind_some]
      · apply evolves.live x (inv.records_live x (mem_of_nextOf following))
        rintro ⟨same, -⟩
        have isX : r = x := by simpa [current] using same
        exact nextOf_ne inv.store.distinct following isX.symm

/-- The iterator does not free the record that a suspended `forEach` goes on with. -/
def MayLeave (c : Config κ ν) (it : JSMapIterator) : Prop := ∀ r ∈ it.curRecord, MayDrop c r

theorem MayLeave.kept (mayLeave : MayLeave c it) :
    ∀ el, leaves c it el → .forEachResult (some el) ∉ c.frames := by
  rintro el ⟨current, mr, here, last⟩
  exact mayLeave el current mr here last

theorem iteratorAdvance_stays (inv : LiveInv keys c) (there : c.iterators[i]? = some (some it))
    (mayLeave : MayLeave c it) : Stays keys (c.iteratorAdvance i it) := by
  obtain ⟨el, store, run, inv', evolves, live⟩ := advance_spec inv there
  obtain ⟨rest, found, suffix, find, foundLive⟩ := inv'.find_from live
  rw [Config.iteratorAdvance]
  simp only [run, suffix, find, Option.bind_eq_bind, Option.bind_some]
  have inside : i < c.iterators.length := (List.getElem?_eq_some_iff.mp there).1
  have again : (c.iterators.set i (some { it with curRecord := none }))[i]?
      = some (some { it with curRecord := none }) := by
    simp [inside]
  cases found with
  | none =>
      refine ⟨_, _, rfl, inv.next inv.live ?_ evolves (fun frame member => ?_) mayLeave.kept⟩
      · rw [heldBy_plain rfl]
        have same : heldBy _ c.frames = heldBy _ c.frames :=
          heldBy_attached again (some { it with attached := false, curRecord := none }) rfl
        rw [List.set_set] at same
        rw [same]
        exact inv'
      · rcases List.mem_cons.mp member with isNew | old
        · right
          rw [isNew]
          trivial
        · exact .inl old
  | some r =>
      obtain ⟨mr, here⟩ := foundLive r rfl
      have counts (x : RecordId) :
          heldBy (c.iterators.set i (some { it with curRecord := some r })) c.frames x
            = heldBy (c.iterators.set i (some { it with curRecord := none })) c.frames x
              + if r = x then 1 else 0 := by
        have holds : heldBy _ c.frames x + _ = heldBy _ c.frames x + _ :=
          heldBy_set again (some { it with curRecord := some r }) x
        rw [List.set_set] at holds
        simpa [iteratorHolds] using holds
      have others : ∀ x, x ≠ r →
          heldBy (c.iterators.set i (some { it with curRecord := some r })) c.frames x
            = heldBy (c.iterators.set i (some { it with curRecord := none })) c.frames x := by
        intro x differs
        rw [counts, if_neg (Ne.symm differs), Nat.add_zero]
      have more : heldBy (c.iterators.set i (some { it with curRecord := some r })) c.frames r
          = heldBy (c.iterators.set i (some { it with curRecord := none })) c.frames r + 1 := by
        rw [counts, if_pos rfl]
      obtain ⟨incremented, inv''⟩ := inv'.increment here others more
      have evolves' := evolves.trans (Evolves.setRecord here
        { mr with refCount := mr.refCount + 1 } id)
      simp only [here, incremented, Option.bind_some]
      exact ⟨_, _, rfl, inv.next inv.live inv''
        (evolves'.mono fun x gone => gone.elim id False.elim)
        (fun frame member => .inl member) mayLeave.kept⟩

theorem iteratorNext_stays (inv : LiveInv keys c)
    (mayLeave : ∀ it ∈ c.iterators[i]?.join, it.attached = true → MayLeave c it) :
    Stays keys (c.iteratorNext i) := by
  rw [Config.iteratorNext]
  cases there : c.iterators[i]?.join with
  | none => exact inv.same .refused
  | some it =>
      by_cases attached : it.attached = true
      · simp only [attached, if_true]
        exact iteratorAdvance_stays inv (Option.join_eq_some_iff.mp there)
          (mayLeave it there attached)
      · simp only [attached]
        exact inv.same .done

theorem iteratorFinalizer_stays (inv : LiveInv keys c)
    (mayLeave : ∀ it ∈ c.iterators[i]?.join, MayLeave c it) :
    Stays keys (c.iteratorFinalizer i) := by
  rw [Config.iteratorFinalizer]
  cases there : c.iterators[i]?.join with
  | none => exact inv.same .refused
  | some it =>
      have found : c.iterators[i]? = some (some it) := Option.join_eq_some_iff.mp there
      have remaining : ∃ store, c.leaveRecord it = some store
          ∧ StoreInv keys (heldBy (c.iterators.set i none) c.frames) store
          ∧ Evolves (leaves c it) c.store store := by
        rw [Config.leaveRecord]
        cases current : it.curRecord with
        | none =>
            refine ⟨c.store, rfl, ?_, (Evolves.refl _).mono fun _ gone => gone.elim⟩
            rw [heldBy_attached found none (by simp [current])]
            exact inv.store
        | some r =>
            simp only [inv.live, if_true]
            exact inv.leave found current none rfl
      obtain ⟨store, run, inv', evolves⟩ := remaining
      simp only [run, Option.bind_eq_bind, Option.bind_some]
      refine ⟨_, _, rfl, inv.next inv.live ?_ evolves (fun frame member => ?_)
        (mayLeave it there).kept⟩
      · rw [heldBy_plain rfl]
        exact inv'
      · rcases List.mem_cons.mp member with isNew | old
        · right
          rw [isNew]
          trivial
        · exact .inl old

end Iterators

section Access

variable [DecidableEq κ] {c : Config κ ν}

omit [DecidableEq κ] in
/-- An operation ends with a frame that holds nothing. -/
theorem LiveInv.released (inv : LiveInv keys c) {s' : JSMapState κ ν} {lost : RecordId → Prop}
    (store : StoreInv keys (heldBy c.iterators c.frames) s') (evolves : Evolves lost c.store s')
    (kept : ∀ el, lost el → .forEachResult (some el) ∉ c.frames) :
    LiveInv keys { c with store := s', frames := .release :: c.frames } := by
  refine inv.next inv.live ?_ evolves ?_ kept
  · rw [heldBy_plain rfl]
    exact store
  · intro frame member
    rcases List.mem_cons.mp member with isNew | old
    · right
      rw [isNew]
      trivial
    · exact .inl old

theorem set_stays (inv : LiveInv keys c) (key : κ) (value : ν)
    (recordAllocated weakRefAllocated : Bool) (slack : Option Nat) :
    Stays keys (c.set keys key value recordAllocated weakRefAllocated slack) := by
  rw [Config.set]
  by_cases notObject : c.store.isWeak = true ∧ keys.isObject key = false
  · rw [if_pos notObject]
    exact inv.same .exception
  obtain ⟨found, run, named⟩ := inv.store.mapFindRecord key
  rw [if_neg notObject]
  simp only [run, Option.bind_eq_bind, Option.bind_some]
  cases found with
  | some r =>
      obtain ⟨mr, here, -, -⟩ := named r rfl
      obtain ⟨count, positive⟩ := inv.store.counted r mr here
      let mr' : JSMapRecord κ ν :=
        { mr with value := if c.store.isSet = true then none else some value }
      have store : StoreInv keys (heldBy c.iterators c.frames) (c.store.setRecord r mr') :=
        inv.store.setRecord here mr' rfl (fun _ => rfl) (fun _ _ => rfl) count positive
      simp only [here, Option.bind_some]
      exact ⟨_, _, rfl, inv.released store (Evolves.setRecord here mr' id)
        fun _ gone => gone.elim⟩
  | none =>
      simp only [Config.setNew]
      by_cases recordFails : recordAllocated = false
      · rw [if_pos recordFails]
        exact inv.same .exception
      rw [if_neg recordFails]
      by_cases weakRefFails : c.store.isWeak = true ∧ weakRefAllocated = false
      · rw [if_pos weakRefFails]
        exact inv.same .exception
      obtain ⟨s', added, store, evolves⟩ := inv.store.mapAddRecord key
        (if c.store.isSet = true then none else some value) slack
      rw [if_neg weakRefFails]
      simp only [added]
      exact ⟨_, _, rfl, inv.next inv.live store evolves (fun frame member => .inl member)
        fun _ gone => gone.elim⟩

theorem get_stays (inv : LiveInv keys c) (key : κ) : Stays keys (c.get keys key) := by
  obtain ⟨found, run, named⟩ := inv.store.mapFindRecord key
  rw [Config.get]
  simp only [run, Option.bind_eq_bind, Option.bind_some]
  cases found with
  | none => exact inv.same (.value none)
  | some r =>
      obtain ⟨mr, here, -, -⟩ := named r rfl
      simp only [here, Option.bind_some]
      exact inv.same (.value mr.value)

theorem has_stays (inv : LiveInv keys c) (key : κ) : Stays keys (c.has keys key) := by
  obtain ⟨found, run, -⟩ := inv.store.mapFindRecord key
  rw [Config.has]
  simp only [run, Option.bind_eq_bind, Option.bind_some]
  exact inv.same (.flag found.isSome)

theorem delete_stays (inv : LiveInv keys c) {key : κ}
    (mayDrop : ∀ r ∈ (c.store.mapFindRecord keys key).join, MayDrop c r) :
    Stays keys (c.delete keys key) := by
  obtain ⟨found, run, named⟩ := inv.store.mapFindRecord key
  rw [run] at mayDrop
  rw [Config.delete]
  simp only [run, Option.bind_eq_bind, Option.bind_some]
  cases found with
  | none => exact inv.same (.flag false)
  | some r =>
      let more (x : RecordId) : Nat := heldBy c.iterators c.frames x + if x = r then 1 else 0
      have others : ∀ x, x ≠ r → more x = heldBy c.iterators c.frames x := by
        intro x differs
        simp [more, differs]
      have one : more r = heldBy c.iterators c.frames r + 1 := by
        simp [more]
      obtain ⟨detached, mr, detach, inv', evolves, here, there⟩ :=
        inv.store.mapDetachRecord (named r rfl) others one
      obtain ⟨released, release, inv'', evolves'⟩ := inv'.mapReleaseRecord there rfl
        (fun x differs => (others x differs).symm) one.symm
      simp only [detach, release, Option.bind_some]
      refine ⟨_, _, rfl, inv.released inv'' (evolves.trans evolves') ?_⟩
      rintro el (gone | ⟨rfl, last⟩)
      · exact gone.elim
      · exact mayDrop el rfl mr here last

end Access

section Creation

variable {c : Config κ ν}

theorem startForEach_stays (inv : LiveInv keys c) : Stays keys c.startForEach := by
  rw [Config.startForEach]
  by_cases isWeak : c.store.isWeak = true
  · rw [if_pos isWeak]
    exact inv.same .refused
  · rw [if_neg isWeak]
    exact forEachFrom_stays inv fun x first => inv.records_live x (List.mem_of_mem_head? first)

theorem createIterator_stays (inv : LiveInv keys c) (kind : JSIteratorKind) :
    Stays keys (c.createIterator kind) := by
  rw [Config.createIterator]
  by_cases isWeak : c.store.isWeak = true
  · rw [if_pos isWeak]
    exact inv.same .refused
  · rw [if_neg isWeak]
    refine ⟨_, _, rfl, inv.next inv.live ?_ (Evolves.refl _) (fun frame member => .inl member)
      fun _ gone => gone.elim⟩
    rw [heldBy_append_new]
    exact inv.store

end Creation

section KeyDeath

variable [DecidableEq κ] {c : Config κ ν}

theorem resetWeakRef_eq {key : κ} (none_ : c.store.firstWeakRef key = []) :
    c.resetWeakRef keys key
      = some (.done, { c with frames := .keyDeath none [] :: c.frames }) := by
  have unchanged : Function.update c.store.firstWeakRef key [] = c.store.firstWeakRef := by
    rw [← none_, Function.update_eq_self]
  rw [Config.resetWeakRef, none_]
  simp only [unlinkDead, unchanged, Option.bind_eq_bind, Option.bind_some]

theorem keyDeath_stays (inv : LiveInv keys c) {key : κ}
    (none_ : c.store.firstWeakRef key = []) : Stays keys (c.resetWeakRef keys key) := by
  rw [resetWeakRef_eq none_]
  refine ⟨_, _, rfl, inv.next inv.live ?_ (Evolves.refl _) (fun frame member => ?_)
    fun _ gone => gone.elim⟩
  · rw [heldBy_plain rfl]
    exact inv.store
  · rcases List.mem_cons.mp member with isNew | old
    · right
      rw [isNew]
      exact ⟨rfl, rfl⟩
    · exact .inl old

end KeyDeath

section Resume

variable [DecidableEq κ] {c : Config κ ν}

omit [DecidableEq κ] in
/-- A frame that holds nothing ends without a change. -/
theorem LiveInv.popped {live : Bool} {iterators : List (Option JSMapIterator)}
    {frames : List Frame} {frame : Frame}
    (inv : LiveInv keys ⟨s, live, iterators, frame :: frames⟩) (plain : frame.held = []) :
    LiveInv keys ⟨s, live, iterators, frames⟩ where
  live := inv.live
  store := by
    have store := inv.store
    rw [heldBy_plain plain] at store
    exact store
  frames other member := inv.frames other (List.mem_cons_of_mem _ member)

/-- The record whose reference the innermost operation gives up when it goes on -/
def Frame.drops : Frame → Option RecordId
  | .clear mr _ => some mr
  | .forEachCall mr => some mr
  | _ => none

theorem resume_stays (inv : LiveInv keys c)
    (mayDrop : ∀ r ∈ c.frames.head?.bind Frame.drops, MayDrop c r) (threw : Bool) :
    Stays keys (c.resume threw) := by
  obtain ⟨store, live, iterators, frames⟩ := c
  cases frames with
  | nil => exact inv.same .refused
  | cons frame frames =>
      let c : Config κ ν := ⟨store, live, iterators, frames⟩
      cases frame with
      | release =>
          have rest : LiveInv keys c := inv.popped rfl
          exact rest.same .done
      | iteratorObject =>
          have rest : LiveInv keys c := inv.popped rfl
          exact rest.same .done
      | clear mr staged => exact clearReleased_stays (c := c) inv (mayDrop mr rfl)
      | forEachCall mr => exact forEachReturned_stays (c := c) inv (mayDrop mr rfl) threw
      | forEachResult el =>
          have rest : LiveInv keys c := inv.popped rfl
          apply forEachFrom_stays rest
          intro x same
          have position : el = some x := same
          rw [position] at inv
          exact inv.frames _ List.mem_cons_self
      | keyDeath mr toFree =>
          obtain ⟨noRecord, noRest⟩ := inv.frames _ List.mem_cons_self
          have rest : LiveInv keys c := inv.popped rfl
          simp only [Config.resume, Config.keyDeathReleased, noRecord, noRest, Config.freeDead]
          exact rest.same .done
      | finalizer mr el => exact (inv.frames _ List.mem_cons_self).elim

end Resume

end PrimJs.JSMap
