import PrimJs.Foundation.OperationRun
import PrimJs.Napi.CodeCacheFile

/-! The flag `dirty_` over interleaved calls: when it is clear, the file holds what the memory
holds. -/

namespace PrimJs

open OperationRun

namespace CacheDirty

/-- The system and whether some call has written the file or loaded it. -/
abbrev Tracked := CacheSystem × Bool

def synced (t : Tracked) (op : CacheOp) (result : CacheResult) : Bool :=
  t.2 || match op, result with
    | .endOutput _, .returned true => true
    | .input _, .returned true => !t.1.blob.loaded
    | _, _ => false

def step (t : Tracked) (op : CacheOp) : Option (CacheResult × Tracked) :=
  some ((t.1.apply op).1, (t.1.apply op).2, synced t op (t.1.apply op).1)

def OnDisk (s : CacheSystem) : Prop :=
  ∃ file, s.disk = some file ∧ Encodes s.blob.maxCapacity file s.blob.entries

/-- With `dirty_` clear and no `output` between its snapshot and its report, a file that has been
written or loaded holds the entries. -/
def Honest (t : Tracked) : Prop :=
  t.1.blob.dirty = false → t.1.publishing = none → t.2 = true → OnDisk t.1

/-- A failed output sets `dirty_`, no other call clears it, and with it set an output takes a new
image. -/
def Effect (t : Tracked) (op : CacheOp) (result : CacheResult) (t' : Tracked) : Prop :=
  (op ≠ .beginOutput → t.1.blob.dirty = true → t'.1.blob.dirty = true) ∧
    (∀ w, op = .endOutput w → result = .returned false → t'.1.blob.dirty = true) ∧
    (op = .beginOutput → t.1.blob.dirty = true → t.1.publishing = none →
      result = .done ∧ t'.1.publishing = some t.1.blob.serialize)

/-- The load adds an entry behind the back of an `output` whose image is taken: neither the memory
has changed since nor the file lost an entry in reading. -/
def LoadUnseen (s : CacheSystem) (file : List UInt8) : Prop :=
  s.publishing ≠ none ∧ s.blob.dirty = false ∧
    (readEntries s.blob.maxCapacity file).2.dirty = false ∧
    ∃ e ∈ (readEntries s.blob.maxCapacity file).2.entries.entries, e.1 ∉ s.blob.entries

instance (s : CacheSystem) (file : List UInt8) : Decidable (LoadUnseen s file) :=
  inferInstanceAs (Decidable (_ ∧ _))

/-- No sum exceeds `INT_MAX`, and a file that is loaded fits the capacity together with the memory
and is not loaded between the snapshot of an `output` and its report. -/
def Fits (t : Tracked) : CacheOp → Prop
  | .insert filename _ (some data) => data ≠ [] → data.length ≤ t.1.blob.maxCapacity →
      entriesSize (t.1.blob.entries.erase filename) + data.length < 2147483648
  | .input true => t.1.blob.loaded = false → ∀ file ∈ t.1.disk,
      (readEntries t.1.blob.maxCapacity file).1 = true →
        t.1.blob.LoadFits file ∧ ¬ LoadUnseen t.1 file
  | _ => True

instance (t : Tracked) (op : CacheOp) : Decidable (Fits t op) :=
  match op with
  | .insert _ _ (some data) => inferInstanceAs (Decidable (data ≠ [] → _ → _))
  | .input true => inferInstanceAs (Decidable (t.1.blob.loaded = false → ∀ _ ∈ t.1.disk, _ → _))
  | .insert _ _ none | .input false | .find .. | .remove _ | .beginOutput | .endOutput _
  | .rehash _ => isTrue trivial

/-- What every call keeps. -/
structure Inv (t : Tracked) : Prop where
  sized : t.1.blob.Sized
  budget : entriesSize t.1.blob.entries ≤ t.1.blob.maxCapacity
  filled : ∀ name e, t.1.blob.entries.lookup name = some e → e.data ≠ []
  image : ∀ image, t.1.publishing = some image → t.1.blob.dirty = false →
    Encodes t.1.blob.maxCapacity image t.1.blob.entries
  honest : Honest t
  untouched : t.2 = false → t.1.blob.dirty = false → t.1.publishing = none →
    ∀ name, t.1.blob.entries.lookup name = none

variable {s : CacheSystem} {known : Bool} {B' : CacheBlob} {op : CacheOp} {result : CacheResult}

/-- With the flag set only the sizes matter. -/
theorem Inv.of_dirty {s' : CacheSystem} (sized : s'.blob.Sized)
    (budget : entriesSize s'.blob.entries ≤ s'.blob.maxCapacity)
    (filled : ∀ name e, s'.blob.entries.lookup name = some e → e.data ≠ [])
    (dirty : s'.blob.dirty = true) (known : Bool) : Inv (s', known) where
  sized := sized
  budget := budget
  filled := filled
  image _ _ clean := by
    dsimp only at clean
    rw [dirty] at clean
    cases clean
  honest clean := by
    dsimp only at clean
    rw [dirty] at clean
    cases clean
  untouched _ clean := by
    dsimp only at clean
    rw [dirty] at clean
    cases clean

theorem encodes_same {file : List UInt8} {B : CacheBlob} (same : CacheBlob.SameContents B B') :
    Encodes B.maxCapacity file B.entries → Encodes B'.maxCapacity file B'.entries := by
  intro encodes
  rw [same.capacity]
  refine ⟨encodes.1, fun name => ?_⟩
  rw [encodes.2 name, same.contents name]

theorem Inv.same (inv : Inv (s, known)) (same : CacheBlob.SameContents s.blob B') :
    Inv ({ s with blob := B' }, known) where
  sized := by
    have size := inv.sized.size
    have int := inv.sized.int
    exact ⟨by rw [same.size, same.total]; exact size, by rw [same.total]; exact int⟩
  budget := by
    dsimp only
    rw [same.total, same.capacity]
    exact inv.budget
  filled name e found := by
    have ⟨e', old, content⟩ := same.old found
    have data : e'.data = e.data := congrArg Prod.snd content
    rw [← data]
    exact inv.filled name e' old
  image image taken clean := by
    dsimp only at taken clean
    rw [same.dirty] at clean
    exact encodes_same same (inv.image image taken clean)
  honest clean idle known := by
    dsimp only at clean
    rw [same.dirty] at clean
    have ⟨file, disk, encodes⟩ := inv.honest clean idle known
    exact ⟨file, disk, encodes_same same encodes⟩
  untouched new clean idle name := by
    dsimp only at clean
    rw [same.dirty] at clean
    have none_ := inv.untouched new clean idle name
    have content := same.contents name
    dsimp only at none_
    rw [none_] at content
    exact Option.map_eq_none_iff.mp content

theorem Inv.shrinks (inv : Inv (s, known)) (shrinks : CacheBlob.Shrinks s.blob B') :
    Inv ({ s with blob := B' }, known) := by
  rcases shrinks.dirty with same | dirty
  · rw [same]
    exact inv
  · have smaller := shrinks.smaller
    have budget := inv.budget
    have capacity := shrinks.capacity
    apply Inv.of_dirty shrinks.sized
    · dsimp only at budget ⊢
      omega
    · exact fun name e found => inv.filled name e (shrinks.old found)
    · exact dirty

theorem synced_other (other : ∀ opened w, op ≠ .input opened ∧ op ≠ .endOutput w) :
    synced (s, known) op result = known := by
  cases op with
  | input opened => exact absurd rfl (other opened ⟨true, 0, true, true⟩).1
  | endOutput w => exact absurd rfl (other true w).2
  | _ => simp [synced]

theorem insert_step {filename : List UInt8} {sourceHash : UInt64} {data : Option (List UInt8)}
    (inv : Inv (s, known)) (fits : Fits (s, known) (.insert filename sourceHash data)) :
    ∃ result t', step (s, known) (.insert filename sourceHash data) = some (result, t') ∧
      Inv t' ∧ Effect (s, known) (.insert filename sourceHash data) result t' := by
  refine ⟨_, _, rfl, ?_⟩
  rw [synced_other (by simp)]
  simp only [CacheSystem.apply]
  cases data with
  | none => exact ⟨inv, fun _ dirty => dirty, nofun, nofun⟩
  | some data =>
      by_cases some_ : data = []
      · subst some_
        exact ⟨inv, fun _ dirty => dirty, nofun, nofun⟩
      · by_cases short : data.length ≤ s.blob.maxCapacity
        · have room := fits some_ short
          have ⟨_, inserted⟩ := CacheBlob.insert_accepted some_ sourceHash short inv.sized room
          generalize s.blob.insert filename sourceHash (some data) = outcome at inserted
          have capacity := inserted.capacity
          have budget := inserted.budget
          constructor
          · apply Inv.of_dirty inserted.sized
            · dsimp only
              omega
            · intro name e found
              dsimp only at found
              by_cases here : name = filename
              · rw [here, inserted.here] at found
                rw [← Option.some.inj found]
                exact some_
              · rcases inserted.others name here with same | gone
                · rw [same] at found
                  exact inv.filled name e found
                · rw [gone] at found
                  cases found
            · exact inserted.dirty
          · exact ⟨fun _ _ => inserted.dirty, nofun, nofun⟩
        · rw [CacheBlob.insert_rejected some_ sourceHash (by omega)]
          have shrinks := CacheBlob.eraseEntry_shrinks inv.sized filename
          refine ⟨inv.shrinks shrinks, fun _ dirty => ?_, nofun, nofun⟩
          rcases shrinks.dirty with same | set
          · dsimp only at same ⊢
            rw [same]
            exact dirty
          · exact set

theorem remove_step {filename : List UInt8} (inv : Inv (s, known)) :
    ∃ result t', step (s, known) (.remove filename) = some (result, t') ∧
      Inv t' ∧ Effect (s, known) (.remove filename) result t' := by
  have shrinks := CacheBlob.eraseEntry_shrinks inv.sized filename
  refine ⟨_, _, rfl, ?_⟩
  rw [synced_other (by simp)]
  refine ⟨inv.shrinks shrinks, fun _ dirty => ?_, nofun, nofun⟩
  rcases shrinks.dirty with same | set
  · change (s.blob.eraseEntry filename).dirty = true
    dsimp only at same
    rw [same]
    exact dirty
  · exact set

theorem same_step (calm : ∀ opened w, op ≠ .input opened ∧ op ≠ .endOutput w)
    (other : op ≠ .beginOutput) (inv : Inv (s, known))
    (same : CacheBlob.SameContents s.blob B') (next : (s.apply op).2 = { s with blob := B' }) :
    ∃ result t', step (s, known) op = some (result, t') ∧ Inv t' ∧ Effect (s, known) op result t' := by
  refine ⟨_, _, rfl, ?_⟩
  dsimp only
  rw [synced_other calm, next]
  refine ⟨inv.same same, fun _ dirty => ?_, fun w ends => absurd ends (calm true w).2,
    fun begins => absurd begins other⟩
  dsimp only
  rw [same.dirty]
  exact dirty

theorem begin_step (inv : Inv (s, known)) :
    ∃ result t', step (s, known) .beginOutput = some (result, t') ∧ Inv t' ∧
      Effect (s, known) .beginOutput result t' := by
  refine ⟨_, _, rfl, ?_⟩
  rw [synced_other (by simp)]
  simp only [CacheSystem.apply, CacheSystem.beginOutput]
  cases taken : s.publishing with
  | some image =>
      refine ⟨inv, fun wrong => absurd rfl wrong, fun _ wrong => (by cases wrong), fun _ _ idle => ?_⟩
      dsimp only at idle
      rw [taken] at idle
      cases idle
  | none =>
      cases dirty : s.blob.dirty with
      | false =>
          simp only [Bool.false_eq_true, not_false_eq_true, ite_true]
          refine ⟨inv, fun wrong => absurd rfl wrong, fun _ wrong => (by cases wrong), fun _ set => ?_⟩
          dsimp only at set
          rw [dirty] at set
          cases set
      | true =>
          simp only [not_true_eq_false, ite_false]
          constructor
          · have encodes := serialize_encodes inv.budget inv.filled
            have sized := inv.sized
            constructor
            · exact ⟨sized.size, sized.int⟩
            · exact inv.budget
            · exact inv.filled
            · intro image found _
              rw [← Option.some.inj found]
              exact encodes
            · exact fun _ idle => by cases idle
            · exact fun _ _ idle => by cases idle
          · exact ⟨fun wrong => absurd rfl wrong, fun _ wrong => (by cases wrong), fun _ _ _ => ⟨rfl, rfl⟩⟩

theorem writeFileAtomically_cases (disk : Option (List UInt8)) (image : List UInt8) (w : FileWrite) :
    writeFileAtomically disk image w = (true, some image) ∨
      writeFileAtomically disk image w = (false, disk) := by
  by_cases opened : w.opened = true
  · by_cases whole : image.length ≤ w.written
    · have all : image.take w.written = image := List.take_of_length_le whole
      by_cases closed : w.closed = true
      · by_cases replaced : w.replaced = true
        · exact .inl (by simp [writeFileAtomically, opened, all, closed, replaced])
        · exact .inr (by simp [writeFileAtomically, opened, replaced])
      · exact .inr (by simp [writeFileAtomically, opened, closed])
    · have part : ¬ (image.take w.written).length = image.length := by
        rw [List.length_take]
        omega
      exact .inr (by simp only [writeFileAtomically, opened, part]; simp)
  · exact .inr (by simp [writeFileAtomically, opened])

section

variable (inv : Inv (s, known))

include inv

theorem end_step {w : FileWrite} :
    ∃ result t', step (s, known) (.endOutput w) = some (result, t') ∧ Inv t' ∧
      Effect (s, known) (.endOutput w) result t' := by
  refine ⟨_, _, rfl, ?_⟩
  simp only [CacheSystem.apply]
  cases taken : s.publishing with
  | none =>
      have blocked : s.endOutput w = (.blocked, s) := by simp only [CacheSystem.endOutput, taken]
      have same : synced (s, known) (.endOutput w) .blocked = known := by simp [synced]
      rw [blocked, same]
      exact ⟨inv, fun _ dirty => dirty, nofun, nofun⟩
  | some image =>
      rcases writeFileAtomically_cases s.disk image w with written | failed
      · have reported : s.endOutput w = (.returned true, ⟨s.blob, some image, none⟩) := by
          simp [CacheSystem.endOutput, taken, written]
        rw [reported]
        constructor
        · constructor
          · exact inv.sized
          · exact inv.budget
          · exact inv.filled
          · exact nofun
          · exact fun clean _ _ => ⟨image, rfl, inv.image image taken clean⟩
          · intro new
            simp [synced] at new
        · exact ⟨fun _ dirty => dirty, nofun, nofun⟩
      · have reported : s.endOutput w =
            (.returned false, ⟨{ s.blob with dirty := true }, s.disk, none⟩) := by
          simp [CacheSystem.endOutput, taken, failed]
        rw [reported]
        have sized := inv.sized
        constructor
        · apply Inv.of_dirty
          · exact ⟨sized.size, sized.int⟩
          · exact inv.budget
          · exact inv.filled
          · rfl
        · exact ⟨fun _ _ => rfl, fun _ _ _ => rfl, nofun⟩

/-- A load that fits and is not unseen keeps the flag honest. -/
theorem load_step {file : List UInt8} (first : s.blob.loaded = false) (disk : s.disk = some file)
    (valid : (readEntries s.blob.maxCapacity file).1 = true) (fits : s.blob.LoadFits file)
    (seen : ¬ LoadUnseen s file) :
    ∃ result t', step (s, known) (.input true) = some (result, t') ∧ Inv t' ∧
      Effect (s, known) (.input true) result t' := by
  have ⟨sized, budget⟩ := CacheBlob.input_sized first valid fits
  have merged := merge_lookup s.blob.entries (readEntries s.blob.maxCapacity file).2.entries
    (readEntries s.blob.maxCapacity file).2.totalSize
  have sound := readEntries_sound (fits valid).1
  refine ⟨_, _, rfl, ?_⟩
  simp only [CacheSystem.apply, ite_true, disk]
  rw [CacheBlob.input_valid first valid] at sized budget ⊢
  generalize (s.blob.entries.entries.foldl mergeEntry ((readEntries s.blob.maxCapacity file).2.entries,
    (readEntries s.blob.maxCapacity file).2.totalSize)) = outcome at merged sized budget
  have old : ∀ {name e}, s.blob.entries.lookup name = some e → outcome.1.lookup name = some e := by
    intro name e found
    rw [merged, AList.lookup_union_left (AList.lookup_isSome.mp (by rw [found]; rfl))]
    exact found
  have new : ∀ {name}, s.blob.entries.lookup name = none →
      outcome.1.lookup name = (readEntries s.blob.maxCapacity file).2.entries.lookup name := by
    intro name absent
    rw [merged, AList.lookup_union_right (AList.lookup_eq_none.mp absent)]
  refine ⟨⟨sized, budget, ?_, ?_, ?_, ?_⟩, ?_, nofun, nofun⟩
  · intro name e found
    dsimp only at found
    cases here : s.blob.entries.lookup name with
    | some e' =>
        rw [old here] at found
        rw [← Option.some.inj found]
        exact inv.filled name e' here
    | none =>
        rw [new here] at found
        exact (sound.writable name e found).2
  · intro image taken clean
    have ⟨quiet, complete⟩ := Bool.or_eq_false_iff.mp clean
    have encodes := inv.image image taken quiet
    refine ⟨encodes.1, fun name => ?_⟩
    rw [encodes.2 name]
    -- nothing is added while the image is on its way
    cases here : s.blob.entries.lookup name with
    | some e =>
        dsimp only
        rw [old here]
    | none =>
        have nothing : (readEntries s.blob.maxCapacity file).2.entries.lookup name = none := by
          by_contra there
          have ⟨e, found⟩ := Option.ne_none_iff_exists'.mp there
          apply seen
          refine ⟨by rw [taken]; nofun, quiet, complete, ⟨name, e⟩, ?_, AList.lookup_eq_none.mp here⟩
          exact AList.mem_lookup_iff.mp found
        dsimp only
        rw [new here, nothing]
  · intro clean idle _
    have ⟨quiet, complete⟩ := Bool.or_eq_false_iff.mp clean
    refine ⟨file, rfl, valid, fun name => ?_⟩
    dsimp only
    cases known with
    | true =>
        have ⟨file', disk', encodes⟩ := inv.honest quiet idle rfl
        have same : file' = file := Option.some.inj (disk'.symm.trans disk)
        subst same
        have image := encodes.2 name
        dsimp only at image
        rw [image]
        cases here : s.blob.entries.lookup name with
        | some e => rw [old here]
        | none =>
            rw [here] at image
            rw [new here, image]
            by_cases named : writableName name = true
            · simp [named]
            · simp [named]
    | false =>
        have empty := inv.untouched rfl quiet idle name
        rw [new empty]
        cases found : (readEntries s.blob.maxCapacity file).2.entries.lookup name with
        | none => simp
        | some e => rw [if_pos (sound.writable name e found).1]
  · intro unknown
    simp [synced, first] at unknown
  · intro _ dirty
    dsimp only at dirty ⊢
    rw [dirty]
    rfl

/-- A call of `input` that loads nothing. -/
theorem input_idle_step {opened : Bool} {result : Bool} (sized : B'.Sized)
    (entries : B'.entries = s.blob.entries) (capacity : B'.maxCapacity = s.blob.maxCapacity)
    (dirty : B'.dirty = s.blob.dirty ∨ B'.dirty = true)
    (next : s.blob.input (if opened then s.disk else none) = (result, B'))
    (quiet : synced (s, known) (.input opened) (.returned result) = known) :
    ∃ result t', step (s, known) (.input opened) = some (result, t') ∧ Inv t' ∧
      Effect (s, known) (.input opened) result t' := by
  refine ⟨_, _, rfl, ?_⟩
  simp only [CacheSystem.apply, next]
  rw [quiet]
  constructor
  · rcases dirty with same | set
    · constructor
      · exact sized
      · dsimp only
        rw [entries, capacity]
        exact inv.budget
      · intro name e found
        dsimp only at found
        rw [entries] at found
        exact inv.filled name e found
      · intro image taken clean
        dsimp only at taken clean ⊢
        rw [same] at clean
        rw [entries, capacity]
        exact inv.image image taken clean
      · intro clean idle yes
        dsimp only at clean idle yes
        rw [same] at clean
        have ⟨file, disk, encodes⟩ := inv.honest clean idle yes
        refine ⟨file, disk, ?_⟩
        dsimp only
        rw [entries, capacity]
        exact encodes
      · intro new clean idle name
        dsimp only at clean idle ⊢
        rw [same] at clean
        rw [entries]
        exact inv.untouched new clean idle name
    · apply Inv.of_dirty
      · exact sized
      · dsimp only
        rw [entries, capacity]
        exact inv.budget
      · intro name e found
        dsimp only at found
        rw [entries] at found
        exact inv.filled name e found
      · exact set
  · refine ⟨fun _ before => ?_, nofun, nofun⟩
    rcases dirty with same | set
    · dsimp only at before ⊢
      rw [same]
      exact before
    · exact set

theorem input_step {opened : Bool} (fits : Fits (s, known) (.input opened)) :
    ∃ result t', step (s, known) (.input opened) = some (result, t') ∧ Inv t' ∧
      Effect (s, known) (.input opened) result t' := by
  have sized := inv.sized
  cases loaded : s.blob.loaded with
  | true =>
      refine input_idle_step inv sized rfl rfl (.inl rfl) (CacheBlob.input_loaded loaded _) ?_
      cases known <;> cases s.blob.loadResult <;> simp [synced, loaded]
  | false =>
      cases file : (if opened then s.disk else none) with
      | none =>
          have next := CacheBlob.input_absent loaded
          rw [← file] at next
          refine input_idle_step inv ?_ ?_ ?_ ?_ next (by simp [synced])
          · exact ⟨sized.size, sized.int⟩
          · rfl
          · rfl
          · exact .inl rfl
      | some bytes =>
          have open_ : opened = true ∧ s.disk = some bytes := by
            cases opened with
            | false => cases file
            | true => exact ⟨rfl, file⟩
          have ⟨yes, disk⟩ := open_
          subst yes
          cases valid : (readEntries s.blob.maxCapacity bytes).1 with
          | true =>
              have ⟨room, seen⟩ := fits loaded bytes disk valid
              exact load_step inv loaded disk valid room seen
          | false =>
              have next := CacheBlob.input_invalid loaded valid
              rw [← file] at next
              refine input_idle_step inv ?_ ?_ ?_ ?_ next (by simp [synced])
              · exact ⟨sized.size, sized.int⟩
              · rfl
              · rfl
              · exact .inr rfl

end

theorem inv_step (t : Tracked) (op : CacheOp) (inv : Inv t) (fits : Fits t op) :
    ∃ result t', step t op = some (result, t') ∧ Inv t' ∧ Effect t op result t' := by
  have ⟨s, known⟩ := t
  cases op with
  | insert filename sourceHash data => exact insert_step inv fits
  | find filename sourceHash =>
      exact same_step (by simp) (by simp) inv (CacheBlob.find_same s.blob filename sourceHash) rfl
  | remove filename => exact remove_step inv
  | input opened => exact input_step inv fits
  | beginOutput => exact begin_step inv
  | endOutput w => exact end_step inv
  | rehash order =>
      by_cases perm : order.entries.Perm s.blob.entries.entries
      · refine same_step (by simp) (by simp) inv (CacheBlob.rehash_same perm) ?_
        simp [CacheSystem.apply, perm]
      · refine same_step (by simp) (by simp) inv (CacheBlob.SameContents.refl s.blob) ?_
        simp [CacheSystem.apply, perm]

def start (maxCapacity : Nat) (capacityInt : maxCapacity < 2 ^ 31) (disk : Option (List UInt8)) :
    Tracked :=
  (.new maxCapacity capacityInt disk, false)

theorem inv_start (maxCapacity : Nat) (capacityInt : maxCapacity < 2 ^ 31)
    (disk : Option (List UInt8)) : Inv (start maxCapacity capacityInt disk) where
  sized := ⟨rfl, Nat.two_pow_pos 31⟩
  budget := Nat.zero_le _
  filled _ _ found := nomatch found
  image _ taken := nomatch taken
  honest _ _ known := nomatch known
  untouched _ _ _ _ := rfl

/-- The flag is honest over every run in which no load goes over the capacity or behind the back
of an `output` in progress. -/
theorem run_honest (maxCapacity : Nat) (capacityInt : maxCapacity < 2 ^ 31)
    (disk : Option (List UInt8)) (ops : List CacheOp)
    (fits : Along step Fits (start maxCapacity capacityInt disk) ops) :
    Runs step Honest Effect (start maxCapacity capacityInt disk) ops :=
  runs_of_along (fun _ inv => inv.honest) inv_step ops _ (inv_start maxCapacity capacityInt disk)
    fits

theorem three_int : 3 < 2 ^ 31 := by decide

/-- One entry `b` of two bytes. -/
def diskOfTwo : List UInt8 :=
  ((CacheBlob.new 3 three_int).insert [98] 7 (some [1, 2])).2.serialize

theorem run_honest_loaded : Runs step Honest Effect (start 4 (by decide) (some diskOfTwo))
    [.insert [97] 1 (some [5, 6]), .input true, .beginOutput, .insert [97] 2 (some [7]),
      .endOutput ⟨true, 9, true, true⟩, .beginOutput, .endOutput ⟨true, 99, true, true⟩,
      .remove [98], .beginOutput, .endOutput ⟨true, 99, true, true⟩, .input true] :=
  run_honest 4 (by decide) (some diskOfTwo) _ (by decide +kernel)

/-- `output` on a cache that nothing has changed reports success without a file. -/
theorem output_reports_unwritten :
    ¬ ∀ (maxCapacity : Nat) (capacityInt : maxCapacity < 2 ^ 31) (disk : Option (List UInt8))
      (ops : List CacheOp) (op : CacheOp),
      (((ops.foldl (fun s op => (s.apply op).2) (.new maxCapacity capacityInt disk) :
          CacheSystem).apply op).1 = .returned true →
        ((ops.foldl (fun s op => (s.apply op).2) (.new maxCapacity capacityInt disk) :
          CacheSystem).apply op).2.blob.dirty = false →
        OnDisk ((ops.foldl (fun s op => (s.apply op).2) (.new maxCapacity capacityInt disk) :
          CacheSystem).apply op).2) := by
  intro claim
  have ⟨file, disk, _⟩ := claim 8 (by decide) none [] .beginOutput rfl rfl
  cases disk

end CacheDirty

end PrimJs
