import PrimJs.Foundation.OperationRun
import PrimJs.Napi.CodeCacheLoad

/-! The budget of the cache over runs of calls, with the last accepted data of every name. -/

namespace PrimJs

open OperationRun

/-- What was last accepted under a name: the hash of the source and the data. -/
abbrev LatestData := List UInt8 → Option (UInt64 × List UInt8)

namespace CacheSystem

variable {s : CacheSystem} {latest : LatestData}

/-- `insert` accepts the data it returns true for; a load accepts the entries it adds. -/
def accepted (s : CacheSystem) (latest : LatestData) : CacheOp → CacheResult → LatestData
  | .insert filename sourceHash (some data), .returned true =>
      fun name => if name = filename then some (sourceHash, data) else latest name
  | .input opened, _ => fun name =>
      match s.blob.entries.lookup name, s.blob.loads (if opened then s.disk else none) with
      | none, some L => ((L.entries.lookup name).map CacheEntry.content).or (latest name)
      | _, _ => latest name
  | _, _ => latest

abbrev Tracked := CacheSystem × LatestData

def step (t : Tracked) (op : CacheOp) : Option (CacheResult × Tracked) :=
  some ((t.1.apply op).1, (t.1.apply op).2, accepted t.1 t.2 op (t.1.apply op).1)

theorem step_eq (t : Tracked) (op : CacheOp) : step t op =
    some ((t.1.apply op).1, (t.1.apply op).2, accepted t.1 t.2 op (t.1.apply op).1) := rfl

/-- The stored names are distinct, the recorded size is that of the stored data and within the
capacity, and every name has the data accepted last. -/
structure WithinBudget (t : Tracked) : Prop where
  size : t.1.blob.currentSize = entriesSize t.1.blob.entries
  budget : t.1.blob.currentSize ≤ t.1.blob.maxCapacity
  once : t.1.blob.entries.keys.Nodup
  latest : ∀ name e, t.1.blob.entries.lookup name = some e → t.2 name = some e.content

/-- A rejected `insert` changes nothing, an accepted one stores its data, `find` answers from the
stored data and only `insert` and `remove` take a name away. -/
def Effect (t : Tracked) (op : CacheOp) (result : CacheResult) (t' : Tracked) : Prop :=
  match op with
  | .insert filename sourceHash data =>
      (result = .returned false → t' = t) ∧
        (result = .returned true → ∃ bytes, data = some bytes ∧
          (t'.1.blob.entries.lookup filename).map CacheEntry.content = some (sourceHash, bytes))
  | .find filename sourceHash =>
      result = .found ((t.1.blob.entries.lookup filename).bind fun e =>
        if e.sourceHash = sourceHash then some e.data else none) ∧
      ∀ name, (t'.1.blob.entries.lookup name).map CacheEntry.content =
        (t.1.blob.entries.lookup name).map CacheEntry.content
  | .remove filename =>
      ∀ name, t'.1.blob.entries.lookup name =
        if name = filename then none else t.1.blob.entries.lookup name
  | _ => ∀ name e, t.1.blob.entries.lookup name = some e → t'.1.blob.entries.lookup name = some e

/-- Rejected data has no older version in the cache, no sum exceeds `INT_MAX`, and a file that is
loaded fits the capacity together with the entries inserted before. -/
def Fits (t : Tracked) : CacheOp → Prop
  | .insert filename _ (some data) => data ≠ [] →
      if data.length ≤ t.1.blob.maxCapacity then
        entriesSize (t.1.blob.entries.erase filename) + data.length < 2147483648
      else filename ∉ t.1.blob.entries
  | .input true => t.1.blob.loaded = false → ∀ file ∈ t.1.disk, t.1.blob.LoadFits file
  | _ => True

instance (t : Tracked) (op : CacheOp) : Decidable (Fits t op) := by
  unfold Fits
  split <;> infer_instance

theorem WithinBudget.sized {t : Tracked} (within : WithinBudget t) : t.1.blob.Sized := by
  have size := within.size
  have budget := within.budget
  have int := t.1.blob.capacityInt
  exact ⟨size, by omega⟩

theorem WithinBudget.of_sized {t : Tracked} (sized : t.1.blob.Sized)
    (budget : entriesSize t.1.blob.entries ≤ t.1.blob.maxCapacity)
    (latest : ∀ name e, t.1.blob.entries.lookup name = some e → t.2 name = some e.content) :
    WithinBudget t := by
  have size := sized.size
  exact ⟨size, by omega, t.1.blob.entries.keys_nodup, latest⟩

section

variable (within : WithinBudget (s, latest))

include within

theorem insert_step {filename : List UInt8} {sourceHash : UInt64} {data : Option (List UInt8)}
    (fits : Fits (s, latest) (.insert filename sourceHash data)) :
    ∃ result t', step (s, latest) (.insert filename sourceHash data) = some (result, t') ∧
      WithinBudget t' ∧ Effect (s, latest) (.insert filename sourceHash data) result t' := by
  refine ⟨_, _, rfl, ?_⟩
  cases data with
  | none => exact ⟨within, fun _ => rfl, fun wrong => by cases wrong⟩
  | some data =>
      by_cases some_ : data = []
      · subst some_
        exact ⟨within, fun _ => rfl, fun wrong => by cases wrong⟩
      · have room := fits some_
        dsimp only at room
        by_cases short : data.length ≤ s.blob.maxCapacity
        · rw [if_pos short] at room
          have ⟨success, inserted⟩ := CacheBlob.insert_accepted some_ sourceHash short within.sized room
          have capacity := inserted.capacity
          have budget := inserted.budget
          simp only [apply]
          generalize s.blob.insert filename sourceHash (some data) = outcome at success inserted capacity budget
          have ⟨_, B'⟩ := outcome
          dsimp only at success inserted capacity budget
          subst success
          simp only [accepted]
          constructor
          · apply WithinBudget.of_sized inserted.sized
            · dsimp only
              omega
            · intro name e found
              dsimp only at found ⊢
              by_cases here : name = filename
              · rw [here, inserted.here] at found
                rw [if_pos here, ← Option.some.inj found]
                rfl
              · rw [if_neg here]
                rcases inserted.others name here with same | gone
                · rw [same] at found
                  exact within.latest name e found
                · rw [gone] at found
                  cases found
          · constructor
            · intro wrong
              cases wrong
            · intro _
              refine ⟨data, rfl, ?_⟩
              dsimp only
              rw [inserted.here]
              rfl
        · rw [if_neg short] at room
          have absent : s.blob.entries.lookup filename = none := AList.lookup_eq_none.mpr room
          have rejected := @CacheBlob.insert_rejected s.blob filename _ some_ sourceHash
            (by omega)
          rw [CacheBlob.eraseEntry_none absent] at rejected
          simp only [apply, rejected, accepted]
          exact ⟨within, fun _ => rfl, fun wrong => by cases wrong⟩

/-- The budget does not depend on the counters and the order of iteration. -/
theorem WithinBudget.same {B' : CacheBlob} (same : CacheBlob.SameContents s.blob B') :
    WithinBudget ({ s with blob := B' }, latest) := by
  constructor
  · dsimp only
    rw [same.size, same.total]
    exact within.size
  · dsimp only
    rw [same.size, same.capacity]
    exact within.budget
  · exact B'.entries.keys_nodup
  · intro name e found
    have ⟨e', old, content⟩ := same.old found
    rw [← content]
    exact within.latest name e' old

theorem find_step {filename : List UInt8} {sourceHash : UInt64} :
    ∃ result t', step (s, latest) (.find filename sourceHash) = some (result, t') ∧
      WithinBudget t' ∧ Effect (s, latest) (.find filename sourceHash) result t' := by
  have same := CacheBlob.find_same s.blob filename sourceHash
  have result := CacheBlob.find_result s.blob filename sourceHash
  refine ⟨_, _, rfl, within.same same, ?_, same.contents⟩
  simp only [apply, result]

theorem remove_step {filename : List UInt8} :
    ∃ result t', step (s, latest) (.remove filename) = some (result, t') ∧
      WithinBudget t' ∧ Effect (s, latest) (.remove filename) result t' := by
  have shrinks := CacheBlob.eraseEntry_shrinks within.sized filename
  have smaller := shrinks.smaller
  have capacity := shrinks.capacity
  have size := within.size
  have budget := within.budget
  dsimp only at smaller capacity
  refine ⟨_, _, rfl, ?_, fun name => CacheBlob.eraseEntry_lookup s.blob filename name⟩
  apply WithinBudget.of_sized shrinks.sized
  · change entriesSize (s.blob.eraseEntry filename).entries ≤ (s.blob.eraseEntry filename).maxCapacity
    dsimp only at size budget
    omega
  · intro name e found
    exact within.latest name e (shrinks.old found)

theorem input_valid_step {file : List UInt8} (first : s.blob.loaded = false)
    (valid : (readEntries s.blob.maxCapacity file).1 = true) (disk : s.disk = some file)
    (fits : s.blob.LoadFits file) :
    ∃ result t', step (s, latest) (.input true) = some (result, t') ∧
      WithinBudget t' ∧ Effect (s, latest) (.input true) result t' := by
  have ⟨sized, budget⟩ := CacheBlob.input_sized first valid fits
  have merged := merge_lookup s.blob.entries (readEntries s.blob.maxCapacity file).2.entries
    (readEntries s.blob.maxCapacity file).2.totalSize
  have loads : s.blob.loads (some file) = some (readEntries s.blob.maxCapacity file).2 := by
    simp [CacheBlob.loads, first, valid]
  refine ⟨_, _, rfl, ?_⟩
  simp only [apply, accepted, ite_true, disk, loads]
  rw [CacheBlob.input_valid first valid] at sized budget ⊢
  constructor
  · apply WithinBudget.of_sized sized budget
    intro name e found
    dsimp only at found ⊢
    rw [merged] at found
    cases old : s.blob.entries.lookup name with
    | none =>
        rw [AList.lookup_union_right (AList.lookup_eq_none.mp old)] at found
        dsimp only
        rw [found]
        rfl
    | some e' =>
        rw [AList.lookup_union_left (AList.lookup_isSome.mp (by rw [old]; rfl)), old] at found
        rw [← Option.some.inj found]
        exact within.latest name e' old
  · intro name e found
    dsimp only at found ⊢
    rw [merged, AList.lookup_union_left (AList.lookup_isSome.mp (by rw [found]; rfl))]
    exact found

end

theorem accepted_input_none {opened : Bool} {result : CacheResult}
    (none_ : s.blob.loads (if opened then s.disk else none) = none) :
    accepted s latest (.input opened) result = latest := by
  funext name
  simp only [accepted, none_]
  cases s.blob.entries.lookup name <;> rfl

/-- A step that keeps the entries and the size keeps the budget. -/
theorem WithinBudget.keep {s' : CacheSystem} (within : WithinBudget (s, latest))
    (entries : s'.blob.entries = s.blob.entries) (size : s'.blob.currentSize = s.blob.currentSize)
    (capacity : s'.blob.maxCapacity = s.blob.maxCapacity) : WithinBudget (s', latest) := by
  constructor
  · dsimp only
    rw [entries, size]
    exact within.size
  · dsimp only
    rw [size, capacity]
    exact within.budget
  · exact s'.blob.entries.keys_nodup
  · intro name e found
    dsimp only at found
    rw [entries] at found
    exact within.latest name e found

theorem input_step {opened : Bool} (within : WithinBudget (s, latest))
    (fits : Fits (s, latest) (.input opened)) :
    ∃ result t', step (s, latest) (.input opened) = some (result, t') ∧
      WithinBudget t' ∧ Effect (s, latest) (.input opened) result t' := by
  cases loaded : s.blob.loaded with
  | true =>
      have none_ : ∀ file, s.blob.loads file = none := by
        intro file
        cases file <;> simp [CacheBlob.loads, loaded]
      refine ⟨_, _, rfl, ?_⟩
      rw [accepted_input_none (none_ _)]
      simp only [apply, CacheBlob.input_loaded loaded]
      exact ⟨within, fun name e found => found⟩
  | false =>
      cases file : (if opened then s.disk else none) with
      | none =>
          refine ⟨_, _, rfl, ?_⟩
          rw [accepted_input_none (by rw [file]; rfl)]
          simp only [apply, file, CacheBlob.input_absent loaded]
          exact ⟨within.keep rfl rfl rfl, fun name e found => found⟩
      | some bytes =>
          have open_ : opened = true ∧ s.disk = some bytes := by
            cases opened with
            | false => cases file
            | true => exact ⟨rfl, file⟩
          obtain ⟨yes, disk⟩ := open_
          subst yes
          cases valid : (readEntries s.blob.maxCapacity bytes).1 with
          | true => exact input_valid_step within loaded valid disk (fits loaded bytes disk)
          | false =>
              refine ⟨_, _, rfl, ?_⟩
              rw [accepted_input_none (by simp [disk, CacheBlob.loads, loaded, valid])]
              simp only [apply, ite_true, disk, CacheBlob.input_invalid loaded valid]
              exact ⟨within.keep rfl rfl rfl, fun name e found => found⟩

theorem output_step (op : CacheOp) (output : op = .beginOutput ∨ ∃ w, op = .endOutput w)
    (within : WithinBudget (s, latest)) :
    ∃ result t', step (s, latest) op = some (result, t') ∧
      WithinBudget t' ∧ Effect (s, latest) op result t' := by
  rcases output with begins | ⟨w, ends⟩
  · subst begins
    refine ⟨_, _, rfl, ?_⟩
    simp only [apply, accepted, beginOutput]
    cases s.publishing with
    | some image => exact ⟨within, fun name e found => found⟩
    | none =>
        cases dirty : s.blob.dirty with
        | false => simp [within, Effect]
        | true =>
            simp only [not_true_eq_false, ite_false]
            exact ⟨within.keep rfl rfl rfl, fun name e found => found⟩
  · subst ends
    refine ⟨_, _, rfl, ?_⟩
    simp only [apply, accepted, endOutput]
    cases s.publishing with
    | none => exact ⟨within, fun name e found => found⟩
    | some image =>
        dsimp only
        split
        · exact ⟨within.keep rfl rfl rfl, fun name e found => found⟩
        · exact ⟨within.keep rfl rfl rfl, fun name e found => found⟩

theorem rehash_step {order : EntryMap} (within : WithinBudget (s, latest)) :
    ∃ result t', step (s, latest) (.rehash order) = some (result, t') ∧
      WithinBudget t' ∧ Effect (s, latest) (.rehash order) result t' := by
  refine ⟨_, _, rfl, ?_⟩
  simp only [apply, accepted]
  by_cases perm : order.entries.Perm s.blob.entries.entries
  · rw [if_pos perm]
    refine ⟨within.same (CacheBlob.rehash_same perm), fun name e found => ?_⟩
    have here : order.lookup name = s.blob.entries.lookup name := AList.perm_lookup perm
    dsimp only
    rw [here]
    exact found
  · rw [if_neg perm]
    exact ⟨within, fun name e found => found⟩

theorem within_step (t : Tracked) (op : CacheOp) (within : WithinBudget t) (fits : Fits t op) :
    ∃ result t', step t op = some (result, t') ∧ WithinBudget t' ∧ Effect t op result t' := by
  have ⟨s, latest⟩ := t
  cases op with
  | insert filename sourceHash data => exact insert_step within fits
  | find filename sourceHash => exact find_step within
  | remove filename => exact remove_step within
  | input opened => exact input_step within fits
  | beginOutput => exact output_step _ (.inl rfl) within
  | endOutput w => exact output_step _ (.inr ⟨w, rfl⟩) within
  | rehash order => exact rehash_step within

def start (maxCapacity : Nat) (capacityInt : maxCapacity < 2 ^ 31) (disk : Option (List UInt8)) :
    Tracked :=
  (new maxCapacity capacityInt disk, fun _ => none)

theorem within_start (maxCapacity : Nat) (capacityInt : maxCapacity < 2 ^ 31)
    (disk : Option (List UInt8)) : WithinBudget (start maxCapacity capacityInt disk) := by
  constructor
  · rfl
  · exact Int.natCast_nonneg _
  · exact List.nodup_nil
  · intro name e found
    cases found

/-- The cache respects its budget over every run in which the file is not loaded over it. -/
theorem run_withinBudget (maxCapacity : Nat) (capacityInt : maxCapacity < 2 ^ 31)
    (disk : Option (List UInt8)) (ops : List CacheOp)
    (fits : Along step Fits (start maxCapacity capacityInt disk) ops) :
    Runs step WithinBudget Effect (start maxCapacity capacityInt disk) ops :=
  runs_of_along (fun _ within => within) within_step ops _
    (within_start maxCapacity capacityInt disk) fits

/-- A file with one entry `b` of two bytes. -/
def fileOfTwo : List UInt8 :=
  ((CacheBlob.new 3 (by decide)).insert [98] 7 (some [1, 2])).2.serialize

theorem run_withinBudget_loaded :
    Runs step WithinBudget Effect (start 4 (by decide) (some fileOfTwo))
      [.insert [97] 1 (some [5, 6]), .input true, .beginOutput, .find [98] 7,
        .insert [99] 2 (some [7]), .endOutput ⟨true, 9, true, true⟩, .remove [98], .beginOutput] :=
  run_withinBudget 4 (by decide) (some fileOfTwo) _ (by decide +kernel)

/-- Two bytes in the memory and two in the file make four where three are allowed. -/
theorem input_exceeds_budget :
    ¬ ∀ (maxCapacity : Nat) (capacityInt : maxCapacity < 2 ^ 31) (disk : Option (List UInt8))
      (ops : List CacheOp), Runs step WithinBudget Effect (start maxCapacity capacityInt disk) ops := by
  intro claim
  have bound : ∀ (small : 3 < 2 ^ 31) (file : List UInt8), (((start 3 small (some file)).1.apply (.insert [97] 1 (some [5, 6]))).2.apply
      (.input true)).2.blob.currentSize ≤ (((start 3 small (some file)).1.apply
        (.insert [97] 1 (some [5, 6]))).2.apply (.input true)).2.blob.maxCapacity := by
    intro small file
    have run := claim 3 small (some file) [.insert [97] 1 (some [5, 6]), .input true]
    have first := run.tail (step_eq _ _)
    have last := first.tail (step_eq _ _)
    exact last.budget
  have excess : ¬ (((start 3 (by decide) (some fileOfTwo)).1.apply (.insert [97] 1 (some [5, 6]))).2.apply
      (.input true)).2.blob.currentSize ≤ (((start 3 (by decide) (some fileOfTwo)).1.apply
        (.insert [97] 1 (some [5, 6]))).2.apply (.input true)).2.blob.maxCapacity := by
    decide +kernel
  exact excess (bound _ fileOfTwo)

end CacheSystem

end PrimJs
