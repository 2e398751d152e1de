import PrimJs.Runtime.AtomStoreInvariant

/-! What the functions that make and free atoms do, with the references the rest of the engine
holds: `atoms` are its atom handles, `strs` its string and symbol values. -/

namespace PrimJs

/-- What a property is named by. A private name is a symbol; symbols are told apart by where they
lie. -/
inductive PropertyKey where
  | string (codes : List Nat)
  | registered (codes : List Nat)
  | symbol (p : Nat)
  deriving DecidableEq, Repr

namespace AtomRuntime

variable {rt rt' : AtomRuntime} {atoms strs : List Nat} {i j p q h h1 ty next : Nat}
  {f g : AtomInfo} {malloc : Malloc}

def keyOf (p : Nat) (f : AtomInfo) : PropertyKey :=
  if f.atomType = 1 then .string f.str.codes
  else if f.atomType = 2 then .registered f.str.codes
  else .symbol p

def key (rt : AtomRuntime) (a : Nat) : Option PropertyKey :=
  if jsAtomTagInt ≤ a then some (.string (decimal (a - jsAtomTagInt)))
  else match rt.atomArray[a]? with
    | some (.atom p) => (rt.info p).map (keyOf p)
    | _ => none

def Valid (rt : AtomRuntime) (a : Nat) : Prop :=
  (jsAtomTagInt ≤ a ∧ a < 2 ^ 32) ∨ (a ≠ 0 ∧ ∃ p, rt.atomArray[a]? = some (.atom p))

/-- Every reference is counted. Predefined atoms are counted once for their handles, and are never
freed. -/
structure Counted (rt : AtomRuntime) (atoms strs : List Nat) : Prop where
  plain : ∀ p f, rt.info p = some f → f.atomType = 0 → rt.refCount p = strs.count p
  atom : ∀ i p : Nat, rt.atomArray[i]? = some (.atom p) →
    rt.refCount p = strs.count p + if jsAtomIsConst i then 1 else atoms.count i
  positive : ∀ p f, rt.info p = some f → 0 < rt.refCount p
  strings : ∀ p ∈ strs, ∃ f, rt.info p = some f
  handles : ∀ a ∈ atoms, rt.Valid a
  registered : ∀ i f, rt.view i = some f → jsAtomIsConst i = true → f.atomType ≠ 2

structure Inv (rt : AtomRuntime) (atoms strs : List Nat) : Prop where
  table : rt.Table
  counted : rt.Counted atoms strs

/-- Held handles stand for the keys they stood for, held strings have their characters, and no
predefined atom goes away. -/
structure Keeps (rt rt' : AtomRuntime) (atoms strs : List Nat) : Prop where
  key : ∀ a ∈ atoms, rt'.key a = rt.key a
  str : ∀ p ∈ strs, (rt'.info p).map AtomInfo.str = (rt.info p).map AtomInfo.str
  predefined : ∀ i p : Nat, i < jsAtomEnd → rt.atomArray[i]? = some (.atom p) →
    rt'.atomArray[i]? = some (.atom p)

theorem Keeps.refl (rt : AtomRuntime) (atoms strs : List Nat) : rt.Keeps rt atoms strs :=
  ⟨fun _ _ => rfl, fun _ _ => rfl, fun _ _ _ slot => slot⟩

theorem Keeps.trans {a b c : AtomRuntime} (first : a.Keeps b atoms strs)
    (second : b.Keeps c atoms strs) : a.Keeps c atoms strs :=
  ⟨fun x held => (second.key x held).trans (first.key x held),
    fun x held => (second.str x held).trans (first.str x held),
    fun i p small slot => second.predefined i p small (first.predefined i p small slot)⟩

variable {atoms' strs' : List Nat}

theorem Keeps.mono (keeps : rt.Keeps rt' atoms strs) (fewer : ∀ a ∈ atoms', a ∈ atoms)
    (fewer' : ∀ p ∈ strs', p ∈ strs) : rt.Keeps rt' atoms' strs' :=
  ⟨fun a held => keeps.key a (fewer a held), fun p held => keeps.str p (fewer' p held),
    keeps.predefined⟩

theorem key_of_slot (untagged : i < jsAtomTagInt) (slot : rt.atomArray[i]? = some (.atom p)) :
    rt.key i = (rt.info p).map (keyOf p) := by
  rw [key, if_neg (Nat.not_le.mpr untagged), slot]

theorem Table.untagged (table : rt.Table) (slot : rt.atomArray[i]? = some (.atom p)) :
    i < jsAtomTagInt := by
  have bound := (List.getElem?_eq_some_iff.mp slot).1
  have size := table.size
  unfold jsAtomMax at size
  unfold jsAtomTagInt
  omega

theorem key_tagged {a : Nat} (tagged : jsAtomTagInt ≤ a) :
    rt.key a = some (.string (decimal (a - jsAtomTagInt))) := by
  rw [key, if_pos tagged]

theorem keyOf_inj (typeF : f.atomType ∈ [1, 2, 3]) (typeG : g.atomType ∈ [1, 2, 3])
    (same : keyOf p f = keyOf q g) : f.atomType = g.atomType ∧
      (f.atomType ≠ jsAtomTypeSymbol → f.str.codes = g.str.codes) ∧
        (f.atomType = jsAtomTypeSymbol → p = q) := by
  simp only [List.mem_cons, List.not_mem_nil, or_false] at typeF typeG
  have symbol : jsAtomTypeSymbol = 3 := rfl
  unfold keyOf at same
  split at same
  · rename_i string
    split at same
    · rename_i string'
      exact ⟨string.trans string'.symm, fun _ => PropertyKey.string.inj same, fun wrong => by omega⟩
    · split at same <;> cases same
  · split at same
    · rename_i registered
      split at same
      · cases same
      · split at same
        · rename_i registered'
          exact ⟨registered.trans registered'.symm, fun _ => PropertyKey.registered.inj same,
            fun wrong => by omega⟩
        · cases same
    · split at same
      · cases same
      · split at same
        · cases same
        · cases same
          exact ⟨by omega, fun wrong => by omega, fun _ => rfl⟩

/-- Two handles are equal if they stand for one key. -/
theorem Table.key_injective (table : rt.Table) {a b : Nat} (validA : rt.Valid a)
    (validB : rt.Valid b) (same : rt.key a = rt.key b) : a = b := by
  have mixed : ∀ a b, jsAtomTagInt ≤ a ∧ a < 2 ^ 32 → (∃ p, rt.atomArray[b]? = some (.atom p)) →
      rt.key a ≠ rt.key b := by
    rintro a b ⟨tagged, bound⟩ ⟨p, slot⟩ same
    obtain ⟨f, described, _⟩ := table.live b p slot
    rw [key_tagged tagged, key_of_slot (table.untagged slot) slot, described, Option.map_some,
      Option.some.injEq] at same
    unfold keyOf at same
    split at same
    · rename_i typed
      rw [PropertyKey.string.injEq] at same
      have small : a - jsAtomTagInt ≤ jsAtomMaxInt := by
        simp only [jsAtomMaxInt, jsAtomTagInt]
        omega
      refine table.numeric b f (view_eq_some.mpr ⟨p, slot, described⟩) typed _ small ?_
      rw [← same]
      exact isNumString_of_decimal (by simp only [jsAtomTagInt] at tagged ⊢; omega)
    · split at same
      · cases same
      · cases same
  rcases validA with tagged | ⟨_, slotA⟩
  · rcases validB with tagged' | ⟨_, slotB⟩
    · rw [key_tagged tagged.1, key_tagged tagged'.1, Option.some.injEq,
        PropertyKey.string.injEq] at same
      have value := decimal_inj same
      have first := tagged.1
      have second := tagged'.1
      omega
    · exact absurd same (mixed a b tagged slotB)
  · rcases validB with tagged' | ⟨_, slotB⟩
    · exact absurd same.symm (mixed b a tagged' slotA)
    · obtain ⟨p, slotA⟩ := slotA
      obtain ⟨q, slotB⟩ := slotB
      obtain ⟨f, describedA, typeA⟩ := table.live a p slotA
      obtain ⟨g, describedB, typeB⟩ := table.live b q slotB
      rw [key_of_slot (table.untagged slotA) slotA, key_of_slot (table.untagged slotB) slotB,
        describedA, describedB, Option.map_some, Option.map_some, Option.some.injEq] at same
      have seenA : rt.view a = some f := view_eq_some.mpr ⟨p, slotA, describedA⟩
      have seenB : rt.view b = some g := view_eq_some.mpr ⟨q, slotB, describedB⟩
      obtain ⟨sameType, sameCodes, samePlace⟩ := keyOf_inj typeA typeB same
      by_cases symbol : f.atomType = jsAtomTypeSymbol
      · rw [samePlace symbol] at slotA
        exact table.injective a b q slotA slotB
      · exact table.canonical a b f g seenA seenB sameType symbol (sameCodes symbol)

/-! Strings that are no atoms, and counts. -/

/-- A table whose slots hold the same atoms. -/
theorem Table.of_atoms (table : rt.Table) (heads : rt'.atomHash = rt.atomHash)
    (atoms : ∀ i q : Nat, rt'.atomArray[i]? = some (.atom q) ↔ rt.atomArray[i]? = some (.atom q))
    (strings : ∀ i q : Nat, rt.atomArray[i]? = some (.atom q) → rt'.strings q = rt.strings q)
    (owned : ∀ q f, rt'.info q = some f → f.atomType ≠ 0 → rt.info q = some f)
    (freeList : ∃ l, Chain 0 rt'.freeNext rt'.atomFreeIndex l ∧
      ∀ i, i ∈ l ↔ ∃ next, rt'.atomArray[i]? = some (.free next))
    (nullEntry : ∀ s : AtomSlot, rt'.atomArray[0]? = some s → rt.atomArray[0]? = some s)
    (size : rt'.atomArray.length ≤ jsAtomMax)
    (fresh : ∀ q, rt'.nextString ≤ q → rt'.info q = none)
    (count : rt'.atomCount = rt'.atomArray.countP AtomSlot.isAtom) : rt'.Table := by
  have infos : ∀ i q : Nat, rt.atomArray[i]? = some (.atom q) → rt'.info q = rt.info q := by
    intro i q slot
    rw [info, strings i q slot, info]
  have entries : rt'.atomAt = rt.atomAt := by
    funext i
    refine Option.ext fun x => ?_
    rw [atomAt_eq_some, atomAt_eq_some, atoms]
    exact and_congr_right fun slot => by rw [strings i x.1 slot]
  have views : rt'.view = rt.view := by
    funext i
    refine Option.ext fun f => ?_
    rw [view_eq_some, view_eq_some]
    refine exists_congr fun q => ?_
    rw [atoms]
    exact and_congr_right fun slot => by rw [infos i q slot]
  have links : rt'.hashNext = rt.hashNext := by
    funext i
    rw [hashNext, entries, hashNext]
  exact {
    power := by
      rw [heads]
      exact table.power
    buckets := by
      unfold Buckets InBucket
      rw [heads, links, views]
      exact table.buckets
    freeList := freeList
    live := by
      intro i q slot
      have slot := (atoms i q).mp slot
      rw [infos i q slot]
      exact table.live i q slot
    injective := fun i j q slot slot' =>
      table.injective i j q ((atoms i q).mp slot) ((atoms j q).mp slot')
    owned := by
      intro q f described typed
      obtain ⟨i, slot⟩ := table.owned q f (owned q f described typed) typed
      exact ⟨i, (atoms i q).mpr slot⟩
    hashed := by
      rw [views]
      exact table.hashed
    symbolIndex := by
      rw [views, links]
      exact table.symbolIndex
    canonical := by
      rw [views]
      exact table.canonical
    numeric := by
      rw [views]
      exact table.numeric
    nullEntry := by
      rw [views]
      exact fun s slot => table.nullEntry s (nullEntry s slot)
    size := size
    fresh := fresh
    count := count }

theorem Table.of_plain (table : rt.Table) (strings : Nat → Option JSStringObject)
    (refCount : Nat → Nat) (nextString : Nat)
    (same : ∀ i q : Nat, rt.atomArray[i]? = some (.atom q) → strings q = rt.strings q)
    (owned : ∀ q o, strings q = some o → o.atomType ≠ 0 → rt.strings q = some o)
    (fresh : ∀ q, nextString ≤ q → strings q = none) :
    Table { rt with strings := strings, refCount := refCount, nextString := nextString } := by
  refine table.of_atoms rfl (fun _ _ => Iff.rfl) same (fun q f described typed => ?_) table.freeList
    (fun _ slot => slot) table.size (fun q beyond => ?_) table.count
  · have ⟨o, string, info⟩ := info_eq_some.mp described
    rw [← info] at typed
    exact info_eq_some.mpr ⟨o, owned q o string typed, info⟩
  · unfold info
    exact Option.map_eq_none_iff.mpr (fresh q beyond)

theorem Table.strings_fresh (table : rt.Table) (beyond : rt.nextString ≤ p) :
    rt.strings p = none := by
  have none := table.fresh p beyond
  unfold info at none
  exact Option.map_eq_none_iff.mp none

theorem Table.setRefCount (table : rt.Table) (p n : Nat) : (rt.setRefCount p n).Table :=
  table.of_plain rt.strings _ rt.nextString (fun _ _ _ => rfl) (fun _ _ string _ => string)
    fun _ beyond => table.strings_fresh beyond

theorem Inv.recount (inv : rt.Inv atoms strs) (p n : Nat) (positive : 0 < n)
    (plain : ∀ f, rt.info p = some f → f.atomType = 0 → n = strs'.count p)
    (atom : ∀ i : Nat, rt.atomArray[i]? = some (.atom p) →
      n = strs'.count p + if jsAtomIsConst i then 1 else atoms'.count i)
    (others : ∀ q, q ≠ p → strs'.count q = strs.count q)
    (otherAtoms : ∀ i : Nat, rt.atomArray[i]? ≠ some (.atom p) → jsAtomIsConst i = false →
      atoms'.count i = atoms.count i) (strings : ∀ q ∈ strs', ∃ f, rt.info q = some f)
    (handles : ∀ a ∈ atoms', rt.Valid a) : (rt.setRefCount p n).Inv atoms' strs' := by
  refine ⟨inv.table.setRefCount p n, ?_⟩
  have counts : ∀ q, (rt.setRefCount p n).refCount q = if q = p then n else rt.refCount q := by
    intro q
    exact Function.update_apply ..
  exact {
    plain := by
      intro q f described typed
      rw [counts]
      by_cases same : q = p
      · rw [if_pos same]
        rw [same] at described ⊢
        exact plain f described typed
      · rw [if_neg same, others q same]
        exact inv.counted.plain q f described typed
    atom := by
      intro i q slot
      rw [counts]
      by_cases same : q = p
      · rw [if_pos same]
        rw [same] at slot ⊢
        exact atom i slot
      · rw [if_neg same, others q same]
        have old := inv.counted.atom i q slot
        by_cases const : jsAtomIsConst i = true
        · rw [if_pos const] at old ⊢
          exact old
        · rw [if_neg const] at old ⊢
          rw [otherAtoms i (fun slotP => same ?_) (Bool.eq_false_iff.mpr const)]
          · exact old
          · have slot : rt.atomArray[i]? = some (.atom q) := slot
            rw [slot, Option.some.injEq, AtomSlot.atom.injEq] at slotP
            exact slotP
    positive := by
      intro q f described
      rw [counts]
      split
      · exact positive
      · exact inv.counted.positive q f described
    strings := strings
    handles := handles
    registered := inv.counted.registered }

/-- The references to the atom of slot `i` are counted anew. -/
theorem Inv.recountAtom (inv : rt.Inv atoms strs) (slot : rt.atomArray[i]? = some (.atom p))
    {n : Nat} (positive : 0 < n)
    (counted : n = strs'.count p + if jsAtomIsConst i then 1 else atoms'.count i)
    (others : ∀ q, q ≠ p → strs'.count q = strs.count q)
    (otherAtoms : ∀ j, j ≠ i → atoms'.count j = atoms.count j)
    (strings : ∀ q ∈ strs', ∃ f, rt.info q = some f) (handles : ∀ a ∈ atoms', rt.Valid a) :
    (rt.setRefCount p n).Inv atoms' strs' := by
  refine inv.recount p n positive (fun f plain untyped => ?_) (fun j slotJ => ?_) others
    (fun j other _ => otherAtoms j fun same => other ?_) strings handles
  · exact absurd slot (inv.table.no_slot plain untyped i)
  · rw [inv.table.injective j i p slotJ slot]
    exact counted
  · rw [same]
    exact slot

/-- A handle keeps its key where its slot keeps its atom. -/
theorem Inv.key_kept (inv : rt.Inv atoms strs) {a : Nat} (held : a ∈ atoms)
    (kept : ∀ q, rt.atomArray[a]? = some (.atom q) →
      rt'.atomArray[a]? = some (.atom q) ∧ rt'.info q = rt.info q) : rt'.key a = rt.key a := by
  rcases inv.counted.handles a held with tagged | ⟨_, q, slot⟩
  · rw [key_tagged tagged.1, key_tagged tagged.1]
  · have untagged := inv.table.untagged slot
    have ⟨slot', info⟩ := kept q slot
    rw [key_of_slot untagged slot, key_of_slot untagged slot', info]

theorem Valid.kept {a : Nat} (valid : rt.Valid a)
    (kept : ∀ q, rt.atomArray[a]? = some (.atom q) → rt'.atomArray[a]? = some (.atom q)) :
    rt'.Valid a :=
  valid.imp_right fun ⟨notNull, q, slot⟩ => ⟨notNull, q, kept q slot⟩

theorem Valid.slot {a : Nat} (valid : rt.Valid a) (const : ¬ jsAtomIsConst a = true) :
    a ≠ 0 ∧ ∃ p, rt.atomArray[a]? = some (.atom p) := by
  refine valid.resolve_left fun ⟨tagged, _⟩ => const ?_
  simp only [jsAtomIsConst, Bool.or_eq_true, decide_eq_true_eq]
  exact .inr tagged

theorem setRefCount_keeps (p n : Nat) : rt.Keeps (rt.setRefCount p n) atoms strs :=
  ⟨fun _ _ => rfl, fun _ _ => rfl, fun _ _ _ slot => slot⟩

theorem allocString_spec (inv : rt.Inv atoms strs) (str : JSString) :
    (rt.allocString str).2.Inv atoms ((rt.allocString str).1 :: strs) ∧
      rt.Keeps (rt.allocString str).2 atoms strs ∧
      (rt.allocString str).1 ∉ strs ∧
      (rt.allocString str).2.info =
        Function.update rt.info (rt.allocString str).1 (some ⟨str, 0, 0⟩) := by
  have fresh := inv.table.strings_fresh (Nat.le_refl rt.nextString)
  have noInfo := inv.table.fresh rt.nextString (Nat.le_refl _)
  have notHeld : rt.nextString ∉ strs := by
    intro held
    have ⟨f, described⟩ := inv.counted.strings _ held
    rw [noInfo] at described
    cases described
  have notSlot : ∀ i : Nat, rt.atomArray[i]? ≠ some (.atom rt.nextString) := by
    intro i slot
    have ⟨f, described, _⟩ := inv.table.live i _ slot
    rw [noInfo] at described
    cases described
  have infos : (rt.allocString str).2.info =
      Function.update rt.info rt.nextString (some ⟨str, 0, 0⟩) := by
    have strings : (rt.allocString str).2.strings =
        Function.update rt.strings rt.nextString (some ⟨str, 0, 0, 0⟩) := rfl
    exact info_of_update strings
  have slotInfo : ∀ i q : Nat, rt.atomArray[i]? = some (.atom q) →
      (rt.allocString str).2.info q = rt.info q := by
    intro i q slot
    rw [infos, Function.update_of_ne]
    intro same
    rw [same] at slot
    exact notSlot i slot
  have counts : ∀ q, q ≠ rt.nextString → (rt.nextString :: strs).count q = strs.count q :=
    fun q other => List.count_cons_of_ne (Ne.symm other)
  refine ⟨⟨?_, ?_⟩, ⟨fun a held => ?_, fun q held => ?_, fun _ _ _ slot => slot⟩, notHeld, infos⟩
  · refine inv.table.of_plain _ _ _ (fun i q slot => ?_) (fun q o string typed => ?_)
      fun q beyond => ?_
    · refine Function.update_of_ne (fun same => ?_) ..
      rw [same] at slot
      exact notSlot i slot
    · by_cases same : q = rt.nextString
      · rw [same, Function.update_self, Option.some.injEq] at string
        rw [← string] at typed
        exact absurd rfl typed
      · rw [Function.update_of_ne same] at string
        exact string
    · rw [Function.update_of_ne (by omega)]
      exact inv.table.strings_fresh (by omega)
  · exact {
      plain := by
        intro q f described typed
        change Function.update rt.refCount rt.nextString 1 q = (rt.nextString :: strs).count q
        rw [infos] at described
        by_cases same : q = rt.nextString
        · rw [same, Function.update_self, List.count_cons_self, List.count_eq_zero_of_not_mem notHeld]
        · rw [Function.update_of_ne same] at described ⊢
          rw [counts q same]
          exact inv.counted.plain q f described typed
      atom := by
        intro i q slot
        have other : q ≠ rt.nextString := by
          intro same
          rw [same] at slot
          exact notSlot i slot
        change Function.update rt.refCount rt.nextString 1 q = (rt.nextString :: strs).count q + _
        rw [Function.update_of_ne other, counts q other]
        exact inv.counted.atom i q slot
      positive := by
        intro q f described
        change 0 < Function.update rt.refCount rt.nextString 1 q
        rw [infos] at described
        by_cases same : q = rt.nextString
        · rw [same, Function.update_self]
          exact Nat.one_pos
        · rw [Function.update_of_ne same] at described ⊢
          exact inv.counted.positive q f described
      strings := by
        intro q held
        rw [infos]
        by_cases same : q = rt.nextString
        · rw [same, Function.update_self]
          exact ⟨_, rfl⟩
        · rw [Function.update_of_ne same]
          rcases List.mem_cons.mp held with first | held
          · exact absurd first same
          · exact inv.counted.strings q held
      handles := inv.counted.handles
      registered := by
        intro i f seen
        have ⟨q, slot, described⟩ := view_eq_some.mp seen
        rw [slotInfo i q slot] at described
        exact inv.counted.registered i f (view_eq_some.mpr ⟨q, slot, described⟩) }
  · exact inv.key_kept held fun q slot => ⟨slot, slotInfo a q slot⟩
  · have other : q ≠ rt.nextString := by
      intro same
      rw [same] at held
      exact notHeld held
    rw [infos, Function.update_of_ne other]

/-! Releasing references. -/

/-- A reference to `p` is gone, and with the last one its atom or string. -/
structure Released (rt rt' : AtomRuntime) (p : Nat) : Prop where
  info : ∀ q, q ≠ p → rt'.info q = rt.info q
  own : ∀ f, rt'.info p = some f → rt.info p = some f
  slots : ∀ i q : Nat, rt'.atomArray[i]? = some (.atom q) → rt.atomArray[i]? = some (.atom q)
  freeIndex : rt.atomFreeIndex ≠ 0 → rt'.atomFreeIndex ≠ 0
  hashSize : rt'.atomHash.length = rt.atomHash.length

theorem Released.view (released : rt.Released rt' p) (seen : rt'.view i = some f) :
    rt.view i = some f := by
  have ⟨q, slot, described⟩ := view_eq_some.mp seen
  refine view_eq_some.mpr ⟨q, released.slots i q slot, ?_⟩
  by_cases same : q = p
  · rw [same] at described ⊢
    exact released.own f described
  · rw [released.info q same] at described
    exact described

theorem released_recount (n : Nat) : rt.Released (rt.setRefCount p n) p :=
  ⟨fun _ _ => rfl, fun _ described => described, fun _ _ slot => slot, id, rfl⟩

theorem not_const_large (notConst : jsAtomIsConst i = false) : jsAtomEnd ≤ i := by
  simp only [jsAtomIsConst, Bool.or_eq_false_iff, decide_eq_false_iff_not] at notConst
  omega

/-- The last reference to the string `p` is released, and its slot if it is an atom. -/
theorem Inv.release (inv : rt.Inv atoms strs) (table : rt'.Table)
    (infos : rt'.info = Function.update rt.info p none)
    (counts : ∀ q, q ≠ p → rt'.refCount q = rt.refCount q)
    (older : ∀ j q : Nat, rt'.atomArray[j]? = some (.atom q) →
      q ≠ p ∧ atoms'.count j = atoms.count j ∧ rt.atomArray[j]? = some (.atom q))
    (kept : ∀ j q : Nat, rt.atomArray[j]? = some (.atom q) → q ≠ p →
      rt'.atomArray[j]? = some (.atom q))
    (handles : ∀ a ∈ atoms', a ∈ atoms ∧ rt.atomArray[a]? ≠ some (.atom p))
    (notConst : ∀ j < jsAtomEnd, rt.atomArray[j]? ≠ some (.atom p))
    (others : ∀ q, q ≠ p → strs'.count q = strs.count q) (noString : p ∉ strs')
    (freeIndex : rt.atomFreeIndex ≠ 0 → rt'.atomFreeIndex ≠ 0)
    (hashSize : rt'.atomHash.length = rt.atomHash.length) :
    rt'.Inv atoms' strs' ∧ rt.Keeps rt' atoms' strs' ∧ rt.Released rt' p := by
  have same : ∀ q, q ≠ p → rt'.info q = rt.info q := by
    intro q other
    rw [infos, Function.update_of_ne other]
  have gone : rt'.info p = none := by rw [infos, Function.update_self]
  have notGone : ∀ q f, rt'.info q = some f → q ≠ p := by
    intro q f described again
    rw [again, gone] at described
    cases described
  have there : ∀ j q : Nat, rt.atomArray[j]? ≠ some (.atom p) → rt.atomArray[j]? = some (.atom q) →
      q ≠ p ∧ rt'.atomArray[j]? = some (.atom q) := by
    intro j q notP slot
    have other : q ≠ p := fun again => notP (by rw [slot, again])
    exact ⟨other, kept j q slot other⟩
  have released : rt.Released rt' p := {
    info := same
    own := fun f described => absurd rfl (notGone p f described)
    slots := fun j q slot => (older j q slot).2.2
    freeIndex := freeIndex
    hashSize := hashSize }
  refine ⟨⟨table, ?_⟩, ⟨fun a held => ?_, fun q held => ?_, fun j q small slot => ?_⟩, released⟩
  · exact {
      plain := by
        intro q f described typed
        have other := notGone q f described
        rw [counts q other, others q other]
        rw [same q other] at described
        exact inv.counted.plain q f described typed
      atom := by
        intro j q slot
        have ⟨other, handlesJ, slot⟩ := older j q slot
        rw [counts q other, others q other, handlesJ]
        exact inv.counted.atom j q slot
      positive := by
        intro q f described
        have other := notGone q f described
        rw [counts q other]
        rw [same q other] at described
        exact inv.counted.positive q f described
      strings := by
        intro q held
        have other := ne_of_mem_of_not_mem held noString
        rw [same q other]
        refine inv.counted.strings q ?_
        rw [← List.count_pos_iff, ← others q other]
        exact List.count_pos_iff.mpr held
      handles := fun a held => (inv.counted.handles a (handles a held).1).kept fun q slot =>
        (there a q (handles a held).2 slot).2
      registered := fun j f seen => inv.counted.registered j f (released.view seen) }
  · refine inv.key_kept (handles a held).1 fun q slot => ?_
    have ⟨other, slot'⟩ := there a q (handles a held).2 slot
    exact ⟨slot', same q other⟩
  · rw [same q (ne_of_mem_of_not_mem held noString)]
  · exact (there j q (notConst j small) slot).2

/-- The last reference to an atom is released. -/
theorem Freed.inv {n : Nat} (inv : rt.Inv atoms strs) (freed : (rt.setRefCount p n).Freed rt' i p)
    (slot : rt.atomArray[i]? = some (.atom p)) (some_ : i ≠ 0)
    (notConst : jsAtomIsConst i = false)
    (otherAtoms : ∀ j, j ≠ i → atoms'.count j = atoms.count j) (noHandle : i ∉ atoms')
    (others : ∀ q, q ≠ p → strs'.count q = strs.count q) (noString : p ∉ strs') :
    rt'.Inv atoms' strs' ∧ rt.Keeps rt' atoms' strs' ∧ rt.Released rt' p := by
  have arrays : rt'.atomArray = rt.atomArray.set i (.free rt.atomFreeIndex) := freed.atomArray
  have only : ∀ j : Nat, j ≠ i → rt.atomArray[j]? ≠ some (.atom p) := fun j other slotJ =>
    other (inv.table.injective j i p slotJ slot)
  refine inv.release freed.table freed.info (fun q other => ?_) (fun j q slotJ => ?_)
    (fun j q slotJ other => ?_) (fun a held => ?_) (fun j small => only j ?_) others noString
    (fun _ => ?_) freed.hashSize
  · rw [freed.refCount]
    exact Function.update_of_ne other ..
  · have ⟨other, otherP, slotJ⟩ := inv.table.slot_of_freed slot arrays slotJ
    exact ⟨otherP, otherAtoms j other, slotJ⟩
  · rw [arrays, List.getElem?_set_ne]
    · exact slotJ
    · intro same
      rw [← same, slot, Option.some.injEq, AtomSlot.atom.injEq] at slotJ
      exact other slotJ.symm
  · have other := ne_of_mem_of_not_mem held noHandle
    refine ⟨?_, only a other⟩
    rw [← List.count_pos_iff, ← otherAtoms a other]
    exact List.count_pos_iff.mpr held
  · have large := not_const_large notConst
    omega
  · rw [freed.atomFreeIndex]
    exact some_

theorem count_erase_held (held : p ∈ strs) : strs.count p = (strs.erase p).count p + 1 := by
  have positive := List.count_pos_iff.mpr held
  rw [List.count_erase_self]
  omega

theorem jsFreeString_spec (inv : rt.Inv atoms strs) (held : p ∈ strs) :
    ∃ rt', rt.jsFreeString p = some rt' ∧ rt'.Inv atoms (strs.erase p) ∧
      rt.Keeps rt' atoms (strs.erase p) ∧ rt.Released rt' p := by
  obtain ⟨f, described⟩ := inv.counted.strings p held
  obtain ⟨o, string, same⟩ := info_eq_some.mp described
  have others : ∀ q, q ≠ p → (strs.erase p).count q = strs.count q := fun q other =>
    List.count_erase_of_ne other
  have fewer := count_erase_held held
  have positive := inv.counted.positive p f described
  have count : (rt.setRefCount p (rt.refCount p - 1)).refCount p = rt.refCount p - 1 :=
    Function.update_self ..
  rw [jsFreeString, string]
  simp only [Option.bind_eq_bind, Option.bind_some, count]
  by_cases more : rt.refCount p - 1 ≤ 0
  · rw [if_pos more]
    by_cases plain : o.atomType ≠ 0
    · rw [if_pos plain]
      rw [← same] at described
      obtain ⟨i, slot⟩ := inv.table.owned p _ described plain
      have counted := inv.counted.atom i p slot
      have notConst : jsAtomIsConst i = false := by
        by_contra const
        rw [Bool.not_eq_false] at const
        rw [if_pos const] at counted
        omega
      rw [notConst, if_neg Bool.false_ne_true] at counted
      have large := not_const_large notConst
      have some_ : i ≠ 0 := by
        simp only [jsAtomEnd] at large
        omega
      obtain ⟨rt', run, freed⟩ := jsFreeAtomStruct_spec (inv.table.setRefCount p (rt.refCount p - 1))
        slot some_
      refine ⟨rt', run, Freed.inv inv freed slot some_ notConst (fun _ _ => rfl) ?_ others ?_⟩
      · rw [← List.count_eq_zero]
        omega
      · rw [← List.count_eq_zero]
        omega
    · rw [if_neg plain]
      rw [not_not] at plain
      have plainInfo : f.atomType = 0 := by
        rw [← same]
        exact plain
      have counted := inv.counted.plain p f described plainInfo
      have gone : (strs.erase p).count p = 0 := by omega
      have notSlot := inv.table.no_slot described plainInfo
      have otherSlot : ∀ i q : Nat, rt.atomArray[i]? = some (.atom q) → q ≠ p := by
        intro i q slot again
        rw [again] at slot
        exact notSlot i slot
      refine ⟨_, rfl, inv.release ?_ ?_ (fun q other => Function.update_of_ne other ..)
        (fun j q slot => ⟨otherSlot j q slot, rfl, slot⟩) (fun _ _ slot _ => slot)
        (fun a inside => ⟨inside, notSlot a⟩) (fun j _ => notSlot j) others ?_ id rfl⟩
      · refine inv.table.of_plain _ _ _ (fun i q slot => Function.update_of_ne (otherSlot i q slot) ..)
          (fun q o' string' typed => ?_) fun q beyond => ?_
        · by_cases again : q = p
          · rw [again, Function.update_self] at string'
            cases string'
          · rw [Function.update_of_ne again] at string'
            exact string'
        · by_cases again : q = p
          · rw [again, Function.update_self]
          · rw [Function.update_of_ne again]
            exact inv.table.strings_fresh beyond
      · have strings : ((rt.setRefCount p (rt.refCount p - 1)).freeString p).strings =
            Function.update rt.strings p none := rfl
        exact info_of_update strings
      · rw [← List.count_eq_zero]
        omega
  · rw [if_neg more]
    refine ⟨_, rfl, ?_, setRefCount_keeps p _, released_recount _⟩
    refine inv.recount p _ (Nat.pos_of_ne_zero (by omega)) (fun g described' typed => ?_)
      (fun i slot => ?_) others (fun _ _ _ => rfl)
      (fun q inside => inv.counted.strings q (List.mem_of_mem_erase inside)) inv.counted.handles
    · have counted := inv.counted.plain p g described' typed
      omega
    · have counted := inv.counted.atom i p slot
      omega

theorem lepusDupAtom_spec (inv : rt.Inv atoms strs) {v : Nat} (valid : rt.Valid v) :
    ∃ rt', rt.lepusDupAtom v = some rt' ∧ rt'.Inv (v :: atoms) strs ∧ rt.Keeps rt' atoms strs ∧
      rt'.info = rt.info ∧ rt'.atomArray = rt.atomArray := by
  have handles := List.forall_mem_cons.mpr ⟨valid, inv.counted.handles⟩
  unfold lepusDupAtom
  by_cases const : jsAtomIsConst v = true
  · rw [if_pos const]
    refine ⟨rt, rfl, ⟨inv.table, { inv.counted with
      atom := fun i p slot => ?_
      handles := handles }⟩, .refl rt atoms strs, rfl, rfl⟩
    have old := inv.counted.atom i p slot
    by_cases same : jsAtomIsConst i = true
    · rw [if_pos same] at old ⊢
      exact old
    · have other : v ≠ i := by
        intro again
        rw [again] at const
        exact same const
      rw [List.count_cons_of_ne other]
      exact old
  · rw [if_neg const]
    have ⟨_, p, slot⟩ := valid.slot const
    have ⟨o, here⟩ := inv.table.atomAt_of_slot slot
    rw [here]
    refine ⟨_, rfl, ?_, setRefCount_keeps p _, rfl, rfl⟩
    refine inv.recountAtom slot (Nat.succ_pos _) ?_ (fun _ _ => rfl)
      (fun i other => List.count_cons_of_ne (Ne.symm other)) inv.counted.strings handles
    have old := inv.counted.atom v p slot
    rw [if_neg const] at old ⊢
    rw [List.count_cons_self, ← Nat.add_assoc, ← old]

theorem lepusFreeAtom_spec (inv : rt.Inv atoms strs) {v : Nat} (held : v ∈ atoms) :
    ∃ rt', rt.lepusFreeAtom v = some rt' ∧ rt'.Inv (atoms.erase v) strs ∧
      rt.Keeps rt' (atoms.erase v) strs := by
  have handles : ∀ a ∈ atoms.erase v, rt.Valid a := fun a inside =>
    inv.counted.handles a (List.mem_of_mem_erase inside)
  have others : ∀ i, i ≠ v → (atoms.erase v).count i = atoms.count i := fun i other =>
    List.count_erase_of_ne other
  unfold lepusFreeAtom
  by_cases const : jsAtomIsConst v = true
  · rw [if_pos const]
    refine ⟨rt, rfl, ⟨inv.table, { inv.counted with
      atom := fun i p slot => ?_
      handles := handles }⟩, .refl rt _ strs⟩
    have old := inv.counted.atom i p slot
    by_cases same : jsAtomIsConst i = true
    · rw [if_pos same] at old ⊢
      exact old
    · rw [others i fun again => same (by rw [again]; exact const)]
      exact old
  · rw [if_neg const, jsFreeAtomSlow]
    have ⟨some_, p, slot⟩ := (inv.counted.handles v held).slot const
    have ⟨o, here⟩ := inv.table.atomAt_of_slot slot
    have count : (rt.setRefCount p (rt.refCount p - 1)).refCount p = rt.refCount p - 1 :=
      Function.update_self ..
    have counted := inv.counted.atom v p slot
    have fewer := count_erase_held held
    rw [if_neg const] at counted
    rw [here]
    simp only [Option.bind_eq_bind, Option.bind_some, count]
    by_cases more : rt.refCount p - 1 > 0
    · rw [if_pos more]
      refine ⟨_, rfl, inv.recountAtom slot more ?_ (fun _ _ => rfl) others inv.counted.strings handles,
        setRefCount_keeps p _⟩
      rw [if_neg const]
      omega
    · rw [if_neg more]
      have ⟨rt', run, freed⟩ := jsFreeAtomStruct_spec (inv.table.setRefCount p (rt.refCount p - 1))
        slot some_
      have ⟨inv', keeps, _⟩ := Freed.inv inv freed slot some_ (Bool.eq_false_iff.mpr const) others
        (by rw [← List.count_eq_zero]; omega) (fun _ _ => rfl) (by rw [← List.count_eq_zero]; omega)
      exact ⟨rt', run, inv', keeps⟩

end AtomRuntime

end PrimJs
