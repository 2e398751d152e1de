import PrimJs.Collections.MapSteps

/-! The finalizer of a collection, and what reaches the collection while it runs. -/

namespace PrimJs.JSMap

open JSMapState Config

variable {κ ν : Type} {keys : MapKeys κ} {s s' : JSMapState κ ν} {r : RecordId}
  {rest : List RecordId}

section Finalizer

/-- The records the finalizer has not come to are as it expects them. -/
structure Unfinished (s : JSMapState κ ν) (rest : List RecordId) : Prop where
  linked : ∃ done, s.records = done ++ rest
  distinct : s.records.Nodup
  live : ∀ r ∈ rest, s.isLive r = true
  keyed : ∀ r ∈ rest, ∀ mr, s.heap r = some mr → mr.empty = false →
    ∃ key, mr.key = some key ∧ (s.isWeak = true → r ∈ s.firstWeakRef key)

/-- The finalizer releases the key and the value of `mr` and goes on at `el`. -/
def Remaining (s : JSMapState κ ν) (mr : RecordId) (el : Option RecordId) : Prop :=
  ∃ rest, el = rest.head? ∧ s.isLive mr = true ∧ mr ∉ rest ∧ Unfinished s rest

theorem StoreInv.unfinished {held : RecordId → Nat} (inv : StoreInv keys held s) :
    Unfinished s s.records where
  linked := ⟨[], rfl⟩
  distinct := inv.distinct
  live r member := (inv.listed r).mp member
  keyed r _ mr here full := by
    obtain ⟨key, named⟩ := inv.keyed r mr here full
    exact ⟨key, named, fun isWeak => (inv.weak key r).mpr ⟨isWeak, mr, here, full, named⟩⟩

theorem Unfinished.tail (unfinished : Unfinished s (r :: rest)) : Unfinished s rest where
  linked := by
    obtain ⟨done, records⟩ := unfinished.linked
    exact ⟨done ++ [r], by rw [records, List.append_assoc, List.singleton_append]⟩
  distinct := unfinished.distinct
  live x member := unfinished.live x (List.mem_cons_of_mem _ member)
  keyed x member := unfinished.keyed x (List.mem_cons_of_mem _ member)

theorem Unfinished.head_absent (unfinished : Unfinished s (r :: rest)) : r ∉ rest := by
  obtain ⟨done, records⟩ := unfinished.linked
  have distinct := unfinished.distinct
  rw [records] at distinct
  exact (List.nodup_cons.mp distinct.of_append_right).1

theorem Unfinished.free (unfinished : Unfinished s rest) (absent : r ∉ rest) :
    Unfinished (s.freeRecord r) rest where
  linked := unfinished.linked
  distinct := unfinished.distinct
  live x member := by
    have differs : x ≠ r := fun same => absent (same ▸ member)
    simpa [isLive, differs] using unfinished.live x member
  keyed x member mr there := by
    have differs : x ≠ r := fun same => absent (same ▸ member)
    exact unfinished.keyed x member mr (by simpa [differs] using there)

theorem Unfinished.suffixFrom (unfinished : Unfinished s rest) :
    s.suffixFrom rest.head? = some rest := by
  cases rest with
  | nil => rfl
  | cons el tail =>
      obtain ⟨done, records⟩ := unfinished.linked
      have distinct := unfinished.distinct
      rw [records] at distinct
      have skipped : ∀ x ∈ done, decide (x ≠ el) = true := by
        intro x before
        apply decide_eq_true
        intro same
        have apart := (List.nodup_append.mp distinct).2.2 x before el List.mem_cons_self
        exact apart same
      have here : el ∈ s.records := by
        rw [records]
        exact List.mem_append_right _ List.mem_cons_self
      have found : s.records.dropWhile (fun x => decide (x ≠ el)) = el :: tail := by
        rw [records, List.dropWhile_append_of_pos skipped, List.dropWhile_cons_of_neg]
        simp
      rw [List.head?_cons, JSMapState.suffixFrom,
        if_pos ⟨unfinished.live el List.mem_cons_self, here⟩, found]

theorem Unfinished.dropWeakRef [DecidableEq κ] (unfinished : Unfinished s (r :: rest)) {key : κ}
    (dropped : s.dropWeakRef key r = some s') : Unfinished s' rest ∧ s'.heap = s.heap := by
  have absent := unfinished.head_absent
  rw [JSMapState.dropWeakRef] at dropped
  by_cases isWeak : s.isWeak = true
  · rw [if_pos isWeak, deleteWeakRef] at dropped
    by_cases there : r ∈ s.firstWeakRef key
    · rw [if_pos there, Option.some.injEq] at dropped
      rw [← dropped]
      refine ⟨⟨unfinished.tail.linked, unfinished.distinct, unfinished.tail.live, ?_⟩, rfl⟩
      intro x member mr here full
      obtain ⟨key', named, weak⟩ := unfinished.tail.keyed x member mr here full
      refine ⟨key', named, fun _ => ?_⟩
      have differs : x ≠ r := fun same => absent (same ▸ member)
      by_cases same : key' = key
      · rw [same] at weak ⊢
        simpa using (List.mem_erase_of_ne differs).mpr (weak isWeak)
      · simpa [same] using weak isWeak
    · rw [if_neg there] at dropped
      cases dropped
  · rw [if_neg isWeak, Option.some.injEq] at dropped
    rw [← dropped]
    exact ⟨unfinished.tail, rfl⟩

variable [DecidableEq κ] {c : Config κ ν}

/-- The entry is among the weak references of its key. -/
theorem Unfinished.dropEntry (unfinished : Unfinished s (r :: rest)) {mr : JSMapRecord κ ν}
    (here : s.heap r = some mr) (full : mr.empty = false) :
    ∃ s', dropEntry s mr r = some s' ∧ Unfinished s' rest ∧ s'.heap = s.heap := by
  obtain ⟨key, named, weak⟩ := unfinished.keyed r List.mem_cons_self mr here full
  have dropped : ∃ s', s.dropWeakRef key r = some s' := by
    rw [JSMapState.dropWeakRef]
    by_cases isWeak : s.isWeak = true
    · rw [if_pos isWeak, deleteWeakRef, if_pos (weak isWeak)]
      exact ⟨_, rfl⟩
    · rw [if_neg isWeak]
      exact ⟨_, rfl⟩
  obtain ⟨s', run⟩ := dropped
  refine ⟨s', ?_, unfinished.dropWeakRef run⟩
  simp only [Config.dropEntry, named, run]

theorem finalizeFrom_spec (unfinished : Unfinished c.store rest) :
    ∃ c', c.finalizeFrom rest = some (.done, c') ∧ c'.live = c.live
      ∧ (c'.frames = c.frames
        ∨ ∃ mr el, c'.frames = .finalizer mr el :: c.frames ∧ Remaining c'.store mr el) := by
  induction rest generalizing c with
  | nil => exact ⟨c, rfl, rfl, .inl rfl⟩
  | cons r rest ih =>
      obtain ⟨mr, here⟩ := isLive_iff.mp (unfinished.live r List.mem_cons_self)
      have absent := unfinished.head_absent
      rw [Config.finalizeFrom]
      simp only [here, Option.bind_eq_bind, Option.bind_some]
      by_cases isEmpty : mr.empty = true
      · rw [if_pos isEmpty]
        have freed : Unfinished (c.store.freeRecord r) rest := unfinished.tail.free absent
        exact ih (c := { c with store := c.store.freeRecord r }) freed
      · obtain ⟨s', run, unfinished', heap⟩ :=
          unfinished.dropEntry here (Bool.eq_false_iff.mpr isEmpty)
        rw [if_neg isEmpty]
        simp only [run, Option.bind_some]
        refine ⟨_, rfl, rfl, .inr ⟨r, rest.head?, rfl, rest, rfl, ?_, absent, unfinished'⟩⟩
        rw [isLive, heap]
        exact unfinished.live r List.mem_cons_self

end Finalizer

section Dying

/-- While the collection is finalized nothing else that holds it is in progress. -/
def Frame.quiet : Frame → Prop
  | .iteratorObject | .finalizer _ _ => True
  | .keyDeath mr toFree => mr = none ∧ toFree = []
  | .release | .clear _ _ | .forEachCall _ | .forEachResult _ => False

def Frame.position : Frame → Option (RecordId × Option RecordId)
  | .finalizer mr el => some (mr, el)
  | _ => none

/-- The finalizer runs once. -/
structure DyingInv (c : Config κ ν) : Prop where
  dying : c.live = false
  quiet : ∀ frame ∈ c.frames, frame.quiet
  position : c.frames.filterMap Frame.position = []
    ∨ ∃ mr el, c.frames.filterMap Frame.position = [(mr, el)] ∧ Remaining c.store mr el

variable {c : Config κ ν}

def StaysDying (outcome : Option (Stepped κ ν)) : Prop :=
  ∃ reply c', outcome = some (reply, c') ∧ DyingInv c'

theorem DyingInv.same (inv : DyingInv c) (reply : Reply κ ν) : StaysDying (some (reply, c)) :=
  ⟨reply, c, rfl, inv⟩

theorem DyingInv.pushed (inv : DyingInv c) {frame : Frame} (quiet : frame.quiet)
    (elsewhere : frame.position = none) (iterators : List (Option JSMapIterator)) :
    DyingInv { c with iterators := iterators, frames := frame :: c.frames } where
  dying := inv.dying
  quiet other member := by
    rcases List.mem_cons.mp member with isNew | old
    · rw [isNew]
      exact quiet
    · exact inv.quiet other old
  position := by
    rw [List.filterMap_cons, elsewhere]
    exact inv.position

theorem DyingInv.popped {live : Bool} {iterators : List (Option JSMapIterator)}
    {frames : List Frame} {frame : Frame} (inv : DyingInv ⟨s, live, iterators, frame :: frames⟩)
    (elsewhere : frame.position = none) : DyingInv ⟨s, live, iterators, frames⟩ where
  dying := inv.dying
  quiet other member := inv.quiet other (List.mem_cons_of_mem _ member)
  position := by
    have position := inv.position
    rw [List.filterMap_cons, elsewhere] at position
    exact position

variable [DecidableEq κ]

theorem finalizeFrom_stays (dying : c.live = false) (quiet : ∀ frame ∈ c.frames, frame.quiet)
    (first : c.frames.filterMap Frame.position = []) (unfinished : Unfinished c.store rest) :
    StaysDying (c.finalizeFrom rest) := by
  obtain ⟨c', run, live, frames⟩ := finalizeFrom_spec unfinished
  refine ⟨.done, c', run, live.trans dying, fun frame member => ?_, ?_⟩
  · rcases frames with same | ⟨mr, el, more, -⟩
    · exact quiet frame (same ▸ member)
    · rw [more] at member
      rcases List.mem_cons.mp member with isNew | old
      · rw [isNew]
        trivial
      · exact quiet frame old
  · rcases frames with same | ⟨mr, el, more, remaining⟩
    · left
      rw [same, first]
    · right
      refine ⟨mr, el, ?_, remaining⟩
      rw [more, List.filterMap_cons]
      simp [Frame.position, first]

theorem startFinalizer_stays (inv : LiveInv keys c) (free : c.frames.any Frame.holdsCollection = false) :
    StaysDying c.startFinalizer := by
  have unheld : ∀ frame ∈ c.frames, frame.holdsCollection = false := by
    simpa using free
  have quiet : ∀ frame ∈ c.frames, frame.quiet := by
    intro frame member
    have notHeld := unheld frame member
    have ok := inv.frames frame member
    cases frame with
    | release => cases notHeld
    | clear mr staged => cases notHeld
    | forEachCall mr => cases notHeld
    | forEachResult el => cases notHeld
    | iteratorObject => trivial
    | keyDeath mr toFree => exact ok
    | finalizer mr el => trivial
  have first : c.frames.filterMap Frame.position = [] := by
    rw [List.filterMap_eq_nil_iff]
    intro frame member
    have ok := inv.frames frame member
    cases frame with
    | finalizer mr el => exact ok.elim
    | release => rfl
    | clear mr staged => rfl
    | forEachCall mr => rfl
    | forEachResult el => rfl
    | iteratorObject => rfl
    | keyDeath mr toFree => rfl
  rw [Config.startFinalizer, if_neg (by simp [free])]
  exact finalizeFrom_stays (c := { c with live := false }) rfl quiet first inv.store.unfinished

theorem resume_staysDying (inv : DyingInv c) (threw : Bool) : StaysDying (c.resume threw) := by
  obtain ⟨store, live, iterators, frames⟩ := c
  cases frames with
  | nil => exact inv.same .refused
  | cons frame frames =>
      have quiet := inv.quiet frame List.mem_cons_self
      cases frame with
      | release => exact quiet.elim
      | clear mr staged => exact quiet.elim
      | forEachCall mr => exact quiet.elim
      | forEachResult el => exact quiet.elim
      | iteratorObject =>
          have rest : DyingInv ⟨store, live, iterators, frames⟩ := inv.popped rfl
          exact rest.same .done
      | keyDeath mr toFree =>
          obtain ⟨noRecord, noRest⟩ := quiet
          have rest : DyingInv ⟨store, live, iterators, frames⟩ := inv.popped rfl
          simp only [Config.resume, Config.keyDeathReleased, noRecord, noRest, Config.freeDead]
          exact rest.same .done
      | finalizer mr el =>
          have position := inv.position
          simp only [List.filterMap_cons, Frame.position] at position
          rcases position with never | ⟨mr', el', only, remaining⟩
          · cases never
          obtain ⟨same, first⟩ := List.cons.inj only
          obtain ⟨sameRecord, sameNext⟩ := Prod.mk.inj same
          rw [← sameRecord, ← sameNext] at remaining
          obtain ⟨rest, next, here, absent, unfinished⟩ := remaining
          obtain ⟨record, there⟩ := isLive_iff.mp here
          simp only [Config.resume, Config.finalizerReleased, next, unfinished.suffixFrom, there,
            Option.bind_eq_bind, Option.bind_some]
          exact finalizeFrom_stays inv.dying
            (fun other member => inv.quiet other (List.mem_cons_of_mem _ member)) first
            (unfinished.free absent)

end Dying

end PrimJs.JSMap
