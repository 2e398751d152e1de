import PrimJs.Runtime.AtomStoreRun

/-! Interning bytes against interning the string they decode to. -/

namespace PrimJs

/-! ### Decoding -/

/-- A character beyond ASCII takes more than one byte. -/
theorem unicodeFromUtf8_shorter {first : UInt8} {rest after : List UInt8} {c : Nat}
    (wide : ¬ first < 128) (read : unicodeFromUtf8 (first :: rest) = some (c, after)) :
    after.length < rest.length := by
  have large : ¬ first.toNat < 0x80 := by
    intro small
    exact wide (UInt8.lt_iff_toNat_lt.mpr small)
  rw [unicodeFromUtf8] at read
  dsimp only at read
  rw [if_neg large] at read
  split at read
  · cases read
  · generalize length : (if first.toNat < 0xe0 then 1 else if first.toNat < 0xf0 then 2
      else if first.toNat < 0xf8 then 3 else if first.toNat < 0xfc then 4 else 5) = l at read
    have positive : 0 < l := by
      rw [← length]
      split_ifs <;> decide
    split at read
    · cases read
    · next enough =>
      rw [List.length_take] at enough
      split at read
      · cases read
      · split at read
        · cases read
        · obtain ⟨-, rfl⟩ := Prod.mk.inj (Option.some.inj read)
          rw [List.length_drop]
          omega

theorem decodeLoop_lt (fuel : Nat) (bytes : List UInt8) :
    ∀ c ∈ decodeLoop fuel bytes, c < 0x10000 := by
  induction fuel generalizing bytes with
  | zero => exact fun c inside => (List.not_mem_nil inside).elim
  | succ fuel ih =>
      cases bytes with
      | nil => exact fun c inside => (List.not_mem_nil inside).elim
      | cons first rest =>
          intro c inside
          rw [decodeLoop] at inside
          split at inside
          · obtain rfl | later := List.mem_cons.mp inside
            · exact Nat.lt_trans first.toNat_lt (by decide)
            · exact ih _ c later
          · split at inside
            · next char after read =>
              split at inside
              · next small =>
                obtain rfl | later := List.mem_cons.mp inside
                · exact small
                · exact ih _ c later
              · split at inside
                · next astral =>
                  obtain rfl | low := List.mem_cons.mp inside
                  · omega
                  · obtain rfl | later := List.mem_cons.mp low
                    · omega
                    · exact ih _ c later
                · obtain rfl | later := List.mem_cons.mp inside
                  · decide
                  · exact ih _ c later
            · obtain rfl | later := List.mem_cons.mp inside
              · decide
              · exact ih _ c later

/-- Where no character is beyond Latin-1, bytes beyond ASCII make fewer characters than bytes. -/
theorem decodeLoop_length (fuel : Nat) {bytes : List UInt8} (enough : bytes.length ≤ fuel)
    (narrow : ∀ c ∈ decodeLoop fuel bytes, c < 256) :
    (decodeLoop fuel bytes).length ≤ bytes.length ∧
      ((decodeLoop fuel bytes).length = bytes.length → ∀ b ∈ bytes, b < 128) := by
  induction fuel generalizing bytes with
  | zero =>
      rw [List.length_eq_zero_iff.mp (Nat.le_zero.mp enough)]
      exact ⟨le_rfl, fun _ b inside => (List.not_mem_nil inside).elim⟩
  | succ fuel ih =>
      cases bytes with
      | nil => exact ⟨le_rfl, fun _ b inside => (List.not_mem_nil inside).elim⟩
      | cons first rest =>
          rw [List.length_cons] at enough
          rw [decodeLoop] at narrow ⊢
          by_cases ascii : first < 128
          · rw [if_pos ascii] at narrow ⊢
            obtain ⟨short, equal⟩ := ih (Nat.le_of_succ_le_succ enough) fun c inside =>
              narrow c (List.mem_cons_of_mem _ inside)
            rw [List.length_cons, List.length_cons]
            refine ⟨Nat.succ_le_succ short, fun same b inside => ?_⟩
            obtain rfl | later := List.mem_cons.mp inside
            · exact ascii
            · exact equal (Nat.succ.inj same) b later
          · rw [if_neg ascii] at narrow ⊢
            cases read : unicodeFromUtf8 (first :: rest) with
            | none =>
                rw [read] at narrow
                exact absurd (narrow _ List.mem_cons_self) (by decide)
            | some result =>
                obtain ⟨c, after⟩ := result
                rw [read] at narrow
                dsimp only at narrow ⊢
                by_cases small : c < 0x10000
                · have fewer := unicodeFromUtf8_shorter ascii read
                  rw [if_pos small] at narrow ⊢
                  obtain ⟨short, _⟩ := @ih after (by omega) fun c inside =>
                    narrow c (List.mem_cons_of_mem _ inside)
                  rw [List.length_cons, List.length_cons]
                  exact ⟨by omega, fun same => by omega⟩
                · rw [if_neg small] at narrow
                  split at narrow
                  · have high := narrow _ List.mem_cons_self
                    omega
                  · exact absurd (narrow _ List.mem_cons_self) (by decide)

/-- Bytes are the characters they decode to only where they are ASCII. -/
theorem lepusNewStringLen_codes_iff (bytes : List UInt8) :
    (lepusNewStringLen bytes).codes = bytes.map UInt8.toNat ↔ ∀ b ∈ bytes, b < 128 := by
  refine ⟨fun same => ?_, AtomRuntime.lepusNewStringLen_ascii⟩
  have small : ∀ c ∈ (lepusNewStringLen bytes).codes, c < 256 := by
    intro c inside
    rw [same] at inside
    obtain ⟨b, _, rfl⟩ := List.mem_map.mp inside
    exact b.toNat_lt
  have codes : (lepusNewStringLen bytes).codes = decodeLoop bytes.length bytes := by
    unfold lepusNewStringLen
    dsimp only
    split
    · next narrow =>
      exact AtomRuntime.ofNat_toNat_codes fun c inside =>
        of_decide_eq_true (List.all_eq_true.mp narrow c inside)
    · calc _ = (decodeLoop bytes.length bytes).map fun c => (UInt16.ofNat c).toNat := by
            rw [JSString.codes, List.map_map]
            rfl
        _ = decodeLoop bytes.length bytes := by
            conv_rhs => rw [← List.map_id (decodeLoop bytes.length bytes)]
            apply List.map_congr_left
            intro c inside
            rw [UInt16.toNat_ofNat', id_eq]
            exact Nat.mod_eq_of_lt (decodeLoop_lt _ _ c inside)
  rw [codes] at small same
  have ⟨_, equal⟩ := decodeLoop_length bytes.length le_rfl small
  apply equal
  rw [same, List.length_map]

namespace AtomRuntime

variable {rt : AtomRuntime} {atoms strs : List Nat} {i p : Nat} {f : AtomInfo} {malloc : Malloc}

/-! ### Interning -/

/-- An atom that is there is a predefined one, or somebody holds it. -/
theorem Inv.holder (inv : rt.Inv atoms strs) (slot : rt.atomArray[i]? = some (.atom p))
    (some_ : i ≠ 0) : ∃ atoms' strs', i ∈ atoms' ∧ rt.Inv atoms' strs' := by
  cases const : jsAtomIsConst i with
  | true =>
      have ⟨rt', dup, inv', _⟩ := lepusDupAtom_spec inv (.inr ⟨some_, p, slot⟩)
      rw [lepusDupAtom, if_pos const] at dup
      obtain rfl := Option.some.inj dup
      exact ⟨i :: atoms, strs, List.mem_cons_self, inv'⟩
  | false =>
      have ⟨f, described, _⟩ := inv.table.live i p slot
      have counted := inv.counted.atom i p slot
      have positive := inv.counted.positive p f described
      rw [const, if_neg Bool.false_ne_true] at counted
      by_cases handle : i ∈ atoms
      · exact ⟨atoms, strs, handle, inv⟩
      · have held : p ∈ strs := by
          apply List.count_pos_iff.mp
          rw [List.count_eq_zero_of_not_mem handle] at counted
          omega
        exact ⟨i :: atoms, strs.erase p, List.mem_cons_self, inv.toHandle slot some_ held const⟩

def internDecoded (rt : AtomRuntime) (bytes : List UInt8) (malloc : Malloc) :
    Option (Nat × AtomRuntime) :=
  rt.withNewString (lepusNewStringLen bytes) true fun rt p => rt.jsNewAtomStr p malloc

theorem internDecoded_spec (inv : rt.Inv atoms strs) (fits : rt.Fits) (bytes : List UInt8)
    (malloc : Malloc) : ∃ j rt', rt.internDecoded bytes malloc = some (j, rt') ∧
      rt.Names rt' atoms strs (true = true ∧ MallocSucceeds malloc) j
        (.string (lepusNewStringLen bytes).codes) :=
  internNew_spec inv fits (lepusNewStringLen bytes) true malloc

theorem jsFindAtom_cases (inv : rt.Inv atoms strs) (bytes : List UInt8) :
    (rt.jsFindAtom bytes = some (jsAtomNull, rt) ∧
        ∀ i f, rt.view i = some f → f.atomType = 1 → f.str ≠ .str8 bytes) ∨
      ∃ i f rt', rt.jsFindAtom bytes = some (i, rt') ∧ i ≠ jsAtomNull ∧ rt.view i = some f ∧
        f.atomType = 1 ∧ f.str = .str8 bytes := by
  obtain ⟨i, search, result⟩ := findInBucket_spec inv.table
    (fun a => a.hash = hashString (bytes.map UInt8.toNat) JSAtomType.string.number % 2 ^ 30 &&
      a.atomType = JSAtomType.string.number && a.str = .str8 bytes)
    (bytes.map UInt8.toNat) JSAtomType.string.number (by decide)
  rw [jsFindAtom, search]
  simp only [Option.bind_eq_bind, Option.bind_some]
  rcases result with ⟨zero, misses⟩ | ⟨some_, q, a, here, hit⟩
  · rw [if_pos zero]
    refine .inl ⟨rfl, fun j f seen typed same => ?_⟩
    obtain ⟨q, o, here, described⟩ := atomAt_of_view seen
    have hashed := inv.table.hashed j f seen (by rw [typed]; decide)
    rw [← described] at hashed typed same
    have missed := misses j q o here typed (congrArg JSString.codes same)
    have hash : o.hash = hashString (bytes.map UInt8.toNat) JSAtomType.string.number % 2 ^ 30 := by
      calc o.hash = jsAtomHash o.str o.atomType := hashed
        _ = hashString o.str.codes o.atomType % 2 ^ 30 := rfl
        _ = _ := by
            rw [show o.str = .str8 bytes from same, show o.atomType = 1 from typed]
            rfl
    simp only [Bool.and_eq_false_iff, decide_eq_false_iff_not] at missed
    exact missed.elim (fun wrong => wrong.elim (· hash) (· typed)) (· same)
  · rw [if_neg some_]
    simp only [Bool.and_eq_true, decide_eq_true_eq] at hit
    have seen := view_of_atomAt here
    obtain ⟨rt', dup, _⟩ := found_spec inv True seen hit.1.2 some_
    rw [dup]
    exact .inr ⟨i, a.info, rt', rfl, some_, seen, hit.1.2, hit.2⟩

end AtomRuntime

end PrimJs
