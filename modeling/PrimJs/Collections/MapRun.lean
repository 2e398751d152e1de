import PrimJs.Foundation.OperationRun
import PrimJs.Collections.MapFinalizer

/-! What holds of a collection in every run. -/

namespace PrimJs.JSMap

open JSMapState Config OperationRun

variable {κ ν : Type} {keys : MapKeys κ}

section Run

variable {c : Config κ ν}

/-- While the collection is live, its count, its hash table and the references of its records say
what it holds. -/
structure Consistent (keys : MapKeys κ) (c : Config κ ν) : Prop where
  size : c.live = true → c.store.recordCount = c.store.records.countP c.store.isEntry
  hashed : c.live = true → ∀ h r, r ∈ c.store.hashTable h ↔
    ∃ key, c.store.Entry r key ∧ keys.hash key c.store.hashBits = h
  once : c.live = true → ∀ h, (c.store.hashTable h).Nodup
  table : c.live = true → ∀ key, keys.hash key c.store.hashBits < c.store.hashSize
  distinct : c.live = true → c.store.records.Nodup
  listed : c.live = true → ∀ r, r ∈ c.store.records ↔ c.store.isLive r = true
  refs : c.live = true → ∀ r mr, c.store.heap r = some mr →
    mr.refCount = mr.own + heldBy c.iterators c.frames r ∧ 0 < mr.refCount
  freed : c.live = true → ∀ r, c.store.heap r = none → heldBy c.iterators c.frames r = 0

theorem LiveInv.consistent (inv : LiveInv keys c) : Consistent keys c where
  size _ := inv.store.size
  hashed _ := inv.store.hashed
  once _ := inv.store.buckets
  table _ key := Nat.lt_of_lt_of_le (keys.hash_lt key _) inv.store.table
  distinct _ := inv.store.distinct
  listed _ := inv.store.listed
  refs _ := inv.store.counted
  freed _ := inv.store.dead

theorem DyingInv.consistent (inv : DyingInv c) : Consistent keys c := by
  have dying : c.live ≠ true := by
    rw [inv.dying]
    decide
  constructor <;> exact fun live => absurd live dying

def ConfigInv (keys : MapKeys κ) (c : Config κ ν) : Prop := LiveInv keys c ∨ DyingInv c

theorem Stays.configInv {outcome : Option (Stepped κ ν)} (stays : Stays keys outcome) :
    ∃ reply c', outcome = some (reply, c') ∧ ConfigInv keys c' := by
  obtain ⟨reply, c', run, inv⟩ := stays
  exact ⟨reply, c', run, .inl inv⟩

theorem StaysDying.configInv {outcome : Option (Stepped κ ν)} (stays : StaysDying outcome) :
    ∃ reply c', outcome = some (reply, c') ∧ ConfigInv keys c' := by
  obtain ⟨reply, c', run, inv⟩ := stays
  exact ⟨reply, c', run, .inr inv⟩

theorem ConfigInv.consistent (inv : ConfigInv keys c) : Consistent keys c := by
  rcases inv with live | dying
  · exact live.consistent
  · exact dying.consistent

theorem liveInv_initial (isWeak isSet : Bool) :
    LiveInv keys (Config.initial isWeak isSet : Config κ ν) where
  live := rfl
  store := by
    have noEntry (r : RecordId) (key : κ) :
        ¬ (JSMapState.initial isWeak isSet : JSMapState κ ν).Entry r key := by
      rintro ⟨mr, there, -, -⟩
      cases there
    constructor
    case distinct => exact List.nodup_nil
    case listed => exact fun r => ⟨fun member => absurd member List.not_mem_nil, fun live => by cases live⟩
    case fresh => exact fun r live => by cases live
    case counted => exact fun r mr there => by cases there
    case dead => exact fun r _ => rfl
    case keyed => exact fun r mr there => by cases there
    case buckets => exact fun h => List.nodup_nil
    case hashed =>
      intro h r
      constructor
      · exact fun member => absurd member List.not_mem_nil
      · exact fun ⟨key, entry, _⟩ => absurd entry (noEntry r key)
    case size => rfl
    case table => exact Nat.le_refl 2
    case weakDistinct => exact fun key => List.nodup_nil
    case weak =>
      intro key r
      constructor
      · exact fun member => absurd member List.not_mem_nil
      · exact fun entry => absurd entry.2 (noEntry r key)
  frames frame member := absurd member List.not_mem_nil

variable [DecidableEq κ]

def dropped (keys : MapKeys κ) (c : Config κ ν) : MapEvent κ ν → Option RecordId
  | .delete key => (c.store.mapFindRecord keys key).join
  | .iteratorNext i => (c.iterators[i]?.join.filter JSMapIterator.attached).bind
      JSMapIterator.curRecord
  | .iteratorFinalizer i => c.iterators[i]?.join.bind JSMapIterator.curRecord
  | .resume _ => c.frames.head?.bind Frame.drops
  | _ => none

def MapEvent.dying : MapEvent κ ν → Option κ
  | .keyDeath key => some key
  | _ => none

/-- No key object dies while the collection has an entry for it, and no record is freed that a
`forEach`, still releasing the result of its callback, goes on with. -/
def Guarded (keys : MapKeys κ) (c : Config κ ν) (event : MapEvent κ ν) : Prop :=
  (∀ key ∈ event.dying, c.store.firstWeakRef key = [])
    ∧ (c.live = true → ∀ r ∈ dropped keys c event, MayDrop c r)

instance (keys : MapKeys κ) (c : Config κ ν) (event : MapEvent κ ν) :
    Decidable (Guarded keys c event) :=
  have (r : RecordId) : Decidable (MayDrop c r) :=
    inferInstanceAs (Decidable (∀ mr ∈ c.store.heap r, mr.refCount = 1 → _ ∉ c.frames))
  inferInstanceAs (Decidable ((∀ key ∈ event.dying, _) ∧ (_ → _)))

theorem live_step (inv : LiveInv keys c) {event : MapEvent κ ν} (guarded : Guarded keys c event) :
    ∃ reply c', c.step keys event = some (reply, c') ∧ ConfigInv keys c' := by
  have live := inv.live
  rw [Config.step.eq_def]
  cases event with
  | set key value recordAllocated weakRefAllocated slack =>
      simp only [live, if_true]
      exact (set_stays inv key value recordAllocated weakRefAllocated slack).configInv
  | get key =>
      simp only [live, if_true]
      exact (get_stays inv key).configInv
  | has key =>
      simp only [live, if_true]
      exact (has_stays inv key).configInv
  | delete key =>
      simp only [live, if_true]
      exact (delete_stays inv (guarded.2 live)).configInv
  | size =>
      simp only [live, if_true, Config.getSize]
      by_cases isWeak : c.store.isWeak = true
      · rw [if_pos isWeak]
        exact (inv.same .refused).configInv
      · rw [if_neg isWeak]
        exact (inv.same (.size c.store.recordCount)).configInv
  | clear =>
      simp only [live, if_true]
      exact (startClear_stays inv).configInv
  | forEach =>
      simp only [live, if_true]
      exact (startForEach_stays inv).configInv
  | newIterator kind =>
      simp only [live, if_true]
      exact (createIterator_stays inv kind).configInv
  | iteratorNext i =>
      simp only [live, if_true]
      apply (iteratorNext_stays inv fun it there attached r current => ?_).configInv
      apply guarded.2 live r
      have found : c.iterators[i]?.join = some it := there
      simp only [dropped, found, Option.filter_some, attached, if_true, Option.bind_some]
      exact current
  | iteratorFinalizer i =>
      apply (iteratorFinalizer_stays inv fun it there r current => ?_).configInv
      apply guarded.2 live r
      have found : c.iterators[i]?.join = some it := there
      simp only [dropped, found, Option.bind_some]
      exact current
  | keyDeath key => exact (keyDeath_stays inv (guarded.1 key rfl)).configInv
  | finalizer =>
      simp only [live, if_true]
      by_cases held : c.frames.any Frame.holdsCollection = true
      · rw [Config.startFinalizer, if_pos held]
        exact (inv.same .refused).configInv
      · exact (startFinalizer_stays inv (Bool.eq_false_iff.mpr held)).configInv
  | resume threw => exact (resume_stays inv (guarded.2 live) threw).configInv

theorem dying_step (inv : DyingInv c) {event : MapEvent κ ν} (guarded : Guarded keys c event) :
    ∃ reply c', c.step keys event = some (reply, c') ∧ ConfigInv keys c' := by
  have refused : ∃ reply c', c.refuse = some (reply, c') ∧ ConfigInv keys c' :=
    (inv.same .refused).configInv
  have dying := inv.dying
  rw [Config.step.eq_def]
  cases event with
  | iteratorFinalizer i =>
      simp only [Config.iteratorFinalizer]
      cases c.iterators[i]?.join with
      | none => exact refused
      | some it =>
          have kept : c.leaveRecord it = some c.store := by
            rw [Config.leaveRecord]
            cases it.curRecord with
            | none => rfl
            | some r => simp [dying]
          simp only [kept, Option.bind_eq_bind, Option.bind_some]
          have quiet : Frame.iteratorObject.quiet := trivial
          exact ⟨_, _, rfl, .inr (inv.pushed quiet rfl _)⟩
  | keyDeath key =>
      simp only [resetWeakRef_eq (guarded.1 key rfl)]
      have quiet : (Frame.keyDeath none []).quiet := ⟨rfl, rfl⟩
      exact ⟨_, _, rfl, .inr (inv.pushed quiet rfl _)⟩
  | resume threw => exact (resume_staysDying inv threw).configInv
  | _ =>
      simp only [dying]
      exact refused

def residues : MapKeys Nat where
  hash key bits := key % 2^bits
  hash_lt key bits := Nat.mod_lt key (Nat.two_pow_pos bits)
  isObject _ := true

def insert (key value : Nat) : MapEvent Nat Nat := .set key value true true (some 0)

/-- The callback of `forEach` deletes its own record, which an iterator stands on, and `clear`
runs into a deletion. -/
def reentrantRun : List (MapEvent Nat Nat) :=
  [insert 1 10, insert 3 30, .newIterator .key, .iteratorNext 0, .forEach, .delete 1,
    .resume false, .resume false, .iteratorNext 0, .resume false, .clear, .delete 3,
    .iteratorFinalizer 0, .resume false, .resume false, .resume false, .resume false, .finalizer]

end Run

end PrimJs.JSMap
