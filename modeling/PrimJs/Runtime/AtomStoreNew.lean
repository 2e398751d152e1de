import PrimJs.Runtime.AtomStoreSpec

/-! What the functions that make atoms do. -/

namespace PrimJs.AtomRuntime

variable {rt rt' : AtomRuntime} {atoms strs : List Nat} {i j p q h h1 ty next : Nat}
  {f g : AtomInfo} {malloc : Malloc}

/-! The growth of the array. -/

/-- The array is grown only while `rt->atom_size * 3` is an `int`. -/
def Fits (rt : AtomRuntime) : Prop := rt.atomFreeIndex = 0 → rt.atomArray.length * 3 < 2 ^ 31

theorem newAtomSize_eq {size : Nat} (fits : size * 3 < 2 ^ 31) :
    newAtomSize size = max 711 (size * 3 / 2) := by
  unfold newAtomSize
  rw [Int.bmod_eq_of_le (by omega) (by omega)]
  have half : ((size * 3 : Nat) : Int).tdiv 2 = ((size * 3 / 2 : Nat) : Int) :=
    Int.ofNat_tdiv _ 2
  have cast : ((size : Int) * 3) = ((size * 3 : Nat) : Int) := by omega
  rw [cast, half]
  omega

theorem newAtomSize_bounds {size : Nat} (fits : size * 3 < 2 ^ 31) :
    newAtomSize size ≤ jsAtomMax ∧ size < newAtomSize size ∧ 1 < newAtomSize size := by
  rw [newAtomSize_eq fits]
  unfold jsAtomMax
  omega

/-- With no free entry, every slot is an atom. -/
theorem Table.all_atoms (table : rt.Table) (noFree : rt.atomFreeIndex = 0) {s : AtomSlot}
    (slot : rt.atomArray[i]? = some s) : ∃ p, s = .atom p := by
  cases s with
  | atom p => exact ⟨p, rfl⟩
  | free next =>
      have ⟨l, chain, members⟩ := table.freeList
      have inside := (members i).mpr ⟨next, slot⟩
      cases l with
      | nil => cases inside
      | cons x l =>
          have ⟨start, some_, _⟩ := Chain.cons_iff.mp chain
          rw [noFree] at start
          exact absurd start.symm some_

section

variable {old : List AtomSlot} {newSize : Nat} (fits : old.length ≤ newSize)

include fits

theorem grownArray_old (inside : i < old.length) : (grownArray old newSize)[i]? = old[i]? := by
  rw [grownArray, List.take_of_length_le fits, List.getElem?_append_left inside]

theorem grownArray_new (beyond : old.length ≤ i) (inside : i < newSize) :
    (grownArray old newSize)[i]? = some (.free (if i = newSize - 1 then 0 else i + 1)) := by
  rw [grownArray, List.take_of_length_le fits, List.getElem?_append_right beyond, List.getElem?_map,
    List.getElem?_range' (by omega), Option.map_some]
  have place : old.length + 1 * (i - old.length) = i := by omega
  rw [place]

theorem grownArray_length : (grownArray old newSize).length = newSize := by
  rw [grownArray, List.take_of_length_le fits, List.length_append, List.length_map,
    List.length_range']
  omega

end

theorem grownArray_atoms {old : List AtomSlot} {newSize : Nat} (fits : old.length ≤ newSize)
    (i p : Nat) : (grownArray old newSize)[i]? = some (.atom p) ↔ old[i]? = some (.atom p) := by
  by_cases inside : i < old.length
  · rw [grownArray_old fits inside]
  · constructor
    · intro slot
      have bounded := (List.getElem?_eq_some_iff.mp slot).1
      rw [grownArray_length fits] at bounded
      rw [grownArray_new fits (by omega) bounded] at slot
      cases slot
    · intro slot
      exact absurd (List.getElem?_eq_some_iff.mp slot).1 inside

/-- The list of the entries from `start` on. -/
theorem grownArray_chain {newSize : Nat} (links : ∀ i, j ≤ i → i < newSize →
      rt.freeNext i = some (if i = newSize - 1 then 0 else i + 1)) (some_ : j ≠ 0)
    (count : Nat) (total : j + count = newSize) (more : 0 < count) :
    Chain 0 rt.freeNext j (List.range' j count) := by
  induction count generalizing j with
  | zero => exact absurd more (Nat.lt_irrefl 0)
  | succ count ih =>
      have link := links j (Nat.le_refl j) (by omega)
      by_cases last : count = 0
      · rw [if_pos (by omega)] at link
        rw [last]
        exact .cons some_ link .nil
      · rw [if_neg (by omega)] at link
        refine .cons some_ link (ih (fun i beyond inside => links i (by omega) inside) (by omega)
          (by omega) (Nat.pos_of_ne_zero last))

/-- The table with its array grown. -/
theorem Table.grow (table : rt.Table) (noFree : rt.atomFreeIndex = 0) {newSize : Nat}
    (some_ : rt.atomArray.length ≠ 0) (more : rt.atomArray.length < newSize)
    (bound : newSize ≤ jsAtomMax) :
    Table { rt with
      atomArray := grownArray rt.atomArray newSize
      atomFreeIndex := rt.atomArray.length } := by
  have fits := Nat.le_of_lt more
  have atoms := grownArray_atoms fits
  refine table.of_atoms rfl atoms (fun _ _ _ => rfl) (fun _ _ described _ => described) ?_
    (fun s slot => ?_) ?_ table.fresh ?_
  · refine ⟨_, grownArray_chain (fun i beyond inside => freeNext_eq_some.mpr
      (grownArray_new fits beyond inside)) some_ (newSize - rt.atomArray.length) (by omega) (by omega),
      fun i => ?_⟩
    rw [List.mem_range'_1]
    constructor
    · intro ⟨beyond, inside⟩
      exact ⟨_, grownArray_new fits beyond (by omega)⟩
    · intro ⟨next, slot⟩
      have bounded := (List.getElem?_eq_some_iff.mp slot).1
      rw [grownArray_length fits] at bounded
      have beyond : ¬ i < rt.atomArray.length := by
        intro inside
        have old := grownArray_old fits inside
        have ⟨p, wrong⟩ := table.all_atoms noFree (old.symm.trans slot)
        cases wrong
      omega
  · rw [← grownArray_old fits (Nat.pos_of_ne_zero some_)]
    exact slot
  · exact Nat.le_trans (Nat.le_of_eq (grownArray_length fits)) bound
  · have noAtoms : (List.range' rt.atomArray.length (newSize - rt.atomArray.length)).countP
        (AtomSlot.isAtom ∘ fun i => .free (if i = newSize - 1 then 0 else i + 1)) = 0 :=
      List.countP_eq_zero.mpr fun i _ => Bool.false_ne_true
    dsimp only
    rw [grownArray, List.take_of_length_le fits, List.countP_append, table.count, List.countP_map,
      noAtoms, Nat.add_zero]

theorem allocNullEntry_info (rt : AtomRuntime) : rt.allocNullEntry.info =
    Function.update rt.info rt.nextString (some ⟨.str8 [], 0, jsAtomTypeSymbol⟩) := by
  have strings : rt.allocNullEntry.strings = Function.update rt.strings rt.nextString
      (some ⟨.str8 [], 0, jsAtomTypeSymbol, 0⟩) := Function.update_idem ..
  exact info_of_update strings

/-- The table with its `JS_ATOM_NULL` entry. -/
theorem Table.allocNullEntry (table : rt.Table) (empty : rt.atomArray.length = 0)
    (noFree : rt.atomFreeIndex = 0) : rt.allocNullEntry.Table := by
  have empty := List.length_eq_zero_iff.mp empty
  have noView : ∀ i, rt.view i = none := by
    intro i
    refine Option.eq_none_iff_forall_ne_some.mpr fun f seen => ?_
    have ⟨p, slot, _⟩ := view_eq_some.mp seen
    rw [empty] at slot
    cases slot
  have noBucket : ∀ k i, ¬ rt.InBucket rt.atomHash.length k i := by
    intro k i ⟨f, seen, _⟩
    rw [noView] at seen
    cases seen
  have infos := rt.allocNullEntry_info
  generalize built : rt.allocNullEntry = rt' at infos
  have arrays : rt'.atomArray = [.atom rt.nextString] := by rw [← built]; rfl
  have slots : ∀ i q : Nat, rt'.atomArray[i]? = some (.atom q) → i = 0 ∧ q = rt.nextString := by
    intro i q slot
    rw [arrays] at slot
    cases i with
    | zero =>
        rw [List.getElem?_cons_zero, Option.some.injEq, AtomSlot.atom.injEq] at slot
        exact ⟨rfl, slot.symm⟩
    | succ i => cases slot
  have views : ∀ i f, rt'.view i = some f → i = 0 ∧ f = ⟨.str8 [], 0, jsAtomTypeSymbol⟩ := by
    intro i f seen
    have ⟨q, slot, described⟩ := view_eq_some.mp seen
    have ⟨zero, same⟩ := slots i q slot
    rw [infos, same, Function.update_self, Option.some.injEq] at described
    exact ⟨zero, described.symm⟩
  have view0 : rt'.view 0 = some ⟨.str8 [], 0, jsAtomTypeSymbol⟩ := by
    refine view_eq_some.mpr ⟨rt.nextString, ?_, ?_⟩
    · rw [arrays]
      rfl
    · rw [infos, Function.update_self]
  have entry0 : rt'.hashNext 0 = some 0 := by
    have here : rt'.atomAt 0 = some (rt.nextString, ⟨.str8 [], 0, jsAtomTypeSymbol, 0⟩) := by
      refine atomAt_eq_some.mpr ⟨?_, ?_⟩
      · rw [arrays]
        rfl
      · rw [← built]
        exact Function.update_self ..
    rw [hashNext_of_atomAt here]
  have heads : rt'.atomHash = rt.atomHash := by rw [← built]; rfl
  exact {
    power := by
      rw [heads]
      exact table.power
    buckets := by
      rw [heads]
      intro k h atK
      have ⟨l, chain, members⟩ := table.buckets k h atK
      cases l with
      | nil =>
          refine ⟨[], Chain.nil_iff.mpr (Chain.nil_iff.mp chain), fun i => ?_⟩
          refine iff_of_false List.not_mem_nil fun ⟨f, seen, typed, _⟩ => typed ?_
          rw [(views i f seen).2]
      | cons x l => exact absurd ((members x).mp List.mem_cons_self) (noBucket k x)
    freeList := by
      have start : rt'.atomFreeIndex = 0 := by
        rw [← built]
        exact noFree
      rw [start]
      refine ⟨[], .nil, fun i => iff_of_false List.not_mem_nil fun ⟨next, slot⟩ => ?_⟩
      rw [arrays] at slot
      cases i with
      | zero => cases slot
      | succ i => cases slot
    live := by
      intro i q slot
      have ⟨_, same⟩ := slots i q slot
      rw [infos, same, Function.update_self]
      exact ⟨_, rfl, by decide⟩
    injective := fun i j q slot slot' => (slots i q slot).1.trans (slots j q slot').1.symm
    owned := by
      intro q f described typed
      by_cases same : q = rt.nextString
      · refine ⟨0, ?_⟩
        rw [arrays, same]
        rfl
      · rw [infos, Function.update_of_ne same] at described
        have ⟨i, slot⟩ := table.owned q f described typed
        rw [empty] at slot
        cases slot
    hashed := by
      intro i f seen typed
      rw [(views i f seen).2] at typed
      exact absurd rfl typed
    symbolIndex := by
      intro i f seen _
      rw [(views i f seen).1]
      exact entry0
    canonical := fun i j f g seen seen' _ _ _ => (views i f seen).1.trans (views j g seen').1.symm
    numeric := by
      intro i f seen typed
      rw [(views i f seen).2] at typed
      cases typed
    nullEntry := fun s _ => ⟨_, view0, rfl⟩
    size := by
      rw [arrays]
      simp [jsAtomMax]
    fresh := by
      intro q beyond
      have next : rt'.nextString = rt.nextString + 1 := by rw [← built]; rfl
      rw [next] at beyond
      rw [infos, Function.update_of_ne (by omega)]
      exact table.fresh q (by omega)
    count := by
      have count : rt'.atomCount = rt.atomCount + 1 := by rw [← built]; rfl
      rw [count, table.count, empty, arrays]
      rfl }

/-- What the growth of the array leaves. -/
structure Grown (rt rt' : AtomRuntime) (atoms strs : List Nat) : Prop where
  inv : rt'.Inv atoms strs
  keeps : rt.Keeps rt' atoms strs
  views : ∀ i f, rt'.view i = some f → rt.view i = some f ∨ f.atomType = jsAtomTypeSymbol
  info : ∀ p f, rt.info p = some f → rt'.info p = some f
  atomHash : rt'.atomHash = rt.atomHash
  freeIndex : rt'.atomFreeIndex ≠ 0

theorem Inv.allocNullEntry (inv : rt.Inv atoms strs) (empty : rt.atomArray.length = 0)
    (noFree : rt.atomFreeIndex = 0) : rt.allocNullEntry.Inv atoms strs ∧
      rt.Keeps rt.allocNullEntry atoms strs ∧
      (∀ p f, rt.info p = some f → rt.allocNullEntry.info p = some f) ∧
      (∀ i f, rt.allocNullEntry.view i = some f → f.atomType = jsAtomTypeSymbol) := by
  have empty' := List.length_eq_zero_iff.mp empty
  have table := inv.table.allocNullEntry empty noFree
  have ⟨allocated, keeps, notHeld, infos⟩ := allocString_spec inv (.str8 [])
  have fresh := inv.table.fresh rt.nextString (Nat.le_refl _)
  have noSlot : ∀ i p : Nat, rt.atomArray[i]? ≠ some (.atom p) := by
    intro i p slot
    rw [empty'] at slot
    cases slot
  have infos' := rt.allocNullEntry_info
  generalize built : rt.allocNullEntry = rt' at table infos'
  have arrays : rt'.atomArray = [.atom rt.nextString] := by rw [← built]; rfl
  have counts : rt'.refCount = Function.update rt.refCount rt.nextString 1 := by rw [← built]; rfl
  have kept : ∀ p f, rt.info p = some f → p ≠ rt.nextString ∧ rt'.info p = some f := by
    intro p f described
    have other : p ≠ rt.nextString := by
      intro same
      rw [same, fresh] at described
      cases described
    rw [infos', Function.update_of_ne other]
    exact ⟨other, described⟩
  have symbols : ∀ i f, rt'.view i = some f → f.atomType = jsAtomTypeSymbol := by
    intro i f seen
    have ⟨p, slot, described⟩ := view_eq_some.mp seen
    rw [arrays] at slot
    cases i with
    | zero =>
        rw [List.getElem?_cons_zero, Option.some.injEq, AtomSlot.atom.injEq] at slot
        rw [infos', ← slot, Function.update_self, Option.some.injEq] at described
        rw [← described]
    | succ i => cases slot
  have tagged : ∀ a ∈ atoms, jsAtomTagInt ≤ a ∧ a < 2 ^ 32 := by
    intro a held
    rcases inv.counted.handles a held with tagged | ⟨_, p, slot⟩
    · exact tagged
    · exact absurd slot (noSlot a p)
  refine ⟨⟨table, ?_⟩, ⟨fun a held => ?_, fun p held => ?_, fun i p _ slot => ?_⟩,
    fun p f described => (kept p f described).2, symbols⟩
  · exact {
      plain := by
        intro p f described typed
        have other : p ≠ rt.nextString := by
          intro same
          rw [infos', same, Function.update_self, Option.some.injEq] at described
          rw [← described] at typed
          cases typed
        rw [infos', Function.update_of_ne other] at described
        rw [counts, Function.update_of_ne other]
        exact inv.counted.plain p f described typed
      atom := by
        intro i p slot
        rw [arrays] at slot
        cases i with
        | zero =>
            rw [List.getElem?_cons_zero, Option.some.injEq, AtomSlot.atom.injEq] at slot
            have noCount : strs.count rt.nextString = 0 := List.count_eq_zero_of_not_mem notHeld
            rw [counts, ← slot, Function.update_self, noCount]
            rfl
        | succ i => cases slot
      positive := by
        intro p f described
        rw [counts]
        by_cases same : p = rt.nextString
        · rw [same, Function.update_self]
          exact Nat.one_pos
        · rw [infos', Function.update_of_ne same] at described
          rw [Function.update_of_ne same]
          exact inv.counted.positive p f described
      strings := by
        intro p held
        have ⟨f, described⟩ := inv.counted.strings p held
        exact ⟨f, (kept p f described).2⟩
      handles := fun a held => .inl (tagged a held)
      registered := by
        intro i f seen _ registered
        rw [symbols i f seen] at registered
        cases registered }
  · rw [key_tagged (tagged a held).1, key_tagged (tagged a held).1]
  · have ⟨f, described⟩ := inv.counted.strings p held
    rw [described, (kept p f described).2]
  · exact absurd slot (noSlot i p)

/-- An array without free entries has room again. -/
theorem Inv.growArray (inv : rt.Inv atoms strs) (noFree : rt.atomFreeIndex = 0) {newSize : Nat}
    (some_ : rt.atomArray.length ≠ 0) (more : rt.atomArray.length < newSize)
    (bound : newSize ≤ jsAtomMax) :
    rt.Grown { rt with
      atomArray := grownArray rt.atomArray newSize
      atomFreeIndex := rt.atomArray.length } atoms strs := by
  have table := inv.table.grow noFree some_ more bound
  have atoms_ := grownArray_atoms (Nat.le_of_lt more)
  generalize built : AtomRuntime.mk _ _ _ _ _ _ _ _ = rt' at table
  have same : ∀ i p : Nat, rt'.atomArray[i]? = some (.atom p) ↔ rt.atomArray[i]? = some (.atom p) := by
    rw [← built]
    exact atoms_
  have infos : rt'.info = rt.info := by rw [← built]; rfl
  have views : ∀ i f, rt'.view i = some f → rt.view i = some f := by
    intro i f seen
    have ⟨p, slot, described⟩ := view_eq_some.mp seen
    rw [infos] at described
    exact view_eq_some.mpr ⟨p, (same i p).mp slot, described⟩
  refine {
    inv := ⟨table, ?_⟩
    keeps := ⟨fun a held => inv.key_kept held fun p slot => ⟨(same a p).mpr slot, by rw [infos]⟩,
      fun p _ => by rw [infos], fun i p _ slot => (same i p).mpr slot⟩
    views := fun i f seen => .inl (views i f seen)
    info := by
      rw [infos]
      exact fun _ _ described => described
    atomHash := by rw [← built]
    freeIndex := by
      rw [← built]
      exact some_ }
  exact {
    plain := by
      rw [infos, ← built]
      exact inv.counted.plain
    atom := by
      intro i p slot
      have old := inv.counted.atom i p ((same i p).mp slot)
      rw [← built]
      exact old
    positive := by
      rw [infos, ← built]
      exact inv.counted.positive
    strings := by
      rw [infos]
      exact inv.counted.strings
    handles := fun a held => (inv.counted.handles a held).kept fun p => (same a p).mpr
    registered := fun i f seen => inv.counted.registered i f (views i f seen) }

theorem ensureFreeIndex_spec (inv : rt.Inv atoms strs) (fits : rt.Fits) (malloc : Malloc) :
    (rt.ensureFreeIndex malloc = (false, rt) ∧ ¬ (malloc.array = true ∧ malloc.nullEntry = true)) ∨
      ∃ rt', rt.ensureFreeIndex malloc = (true, rt') ∧ rt.Grown rt' atoms strs := by
  unfold ensureFreeIndex
  by_cases noFree : rt.atomFreeIndex = 0
  · rw [if_pos noFree]
    have ⟨bound, more, large⟩ := newAtomSize_bounds (fits noFree)
    unfold growAtomArray
    dsimp only
    cases array : malloc.array with
    | false =>
        refine .inl ⟨?_, fun ⟨wrong, _⟩ => by cases wrong⟩
        rw [if_pos (by simp)]
    | true =>
        rw [if_neg (by simp; omega)]
        by_cases empty : rt.atomArray.length = 0
        · cases nullEntry : malloc.nullEntry with
          | false =>
              refine .inl ⟨?_, fun ⟨_, wrong⟩ => by cases wrong⟩
              rw [if_pos (by simp [empty])]
          | true =>
              have ⟨invNull, keeps, infos, symbols⟩ := inv.allocNullEntry empty noFree
              have grown := invNull.growArray noFree Nat.one_ne_zero large bound
              rw [if_neg (by simp), if_pos empty]
              refine .inr ⟨_, rfl, {
                inv := grown.inv
                keeps := keeps.trans grown.keeps
                views := fun i f seen => .inr ?_
                info := fun p f described => grown.info p f (infos p f described)
                atomHash := grown.atomHash
                freeIndex := grown.freeIndex }⟩
              rcases grown.views i f seen with old | symbol
              · exact symbols i f old
              · exact symbol
        · rw [if_neg (by simp [empty]), if_neg empty]
          exact .inr ⟨_, rfl, inv.growArray noFree empty more bound⟩
  · rw [if_neg noFree]
    exact .inr ⟨rt, rfl, {
      inv := inv
      keeps := .refl rt atoms strs
      views := fun _ _ seen => .inl seen
      info := fun _ _ described => described
      atomHash := rfl
      freeIndex := noFree }⟩

/-! A string becomes an atom. -/

theorem Inv.perm {strs' : List Nat} (inv : rt.Inv atoms strs) (perm : strs.Perm strs') :
    rt.Inv atoms strs' :=
  ⟨inv.table, { inv.counted with
    plain := fun p f described typed => by
      rw [← perm.count_eq]
      exact inv.counted.plain p f described typed
    atom := fun i p slot => by
      rw [← perm.count_eq]
      exact inv.counted.atom i p slot
    strings := fun p held => inv.counted.strings p (perm.mem_iff.mpr held) }⟩

def consume (str : Option Nat) (strs : List Nat) : List Nat :=
  match str with
  | some p => strs.erase p
  | none => strs

def contents (rt : AtomRuntime) (str : Option Nat) : Option JSString :=
  match str with
  | some p => (rt.info p).map AtomInfo.str
  | none => some (.str16 [])

/-- The state in which a string that is no atom yet is to become one. -/
structure Prepared (rt rt' : AtomRuntime) (atoms strs : List Nat) (p : Nat) (s : JSString) : Prop where
  inv : rt'.Inv atoms (p :: strs)
  plain : ∃ f, rt'.info p = some f ∧ f.atomType = 0 ∧ f.str = s
  unnamed : ∀ f, rt.info p = some f → f.atomType = 0
  keeps : rt.Keeps rt' atoms strs
  views : ∀ i f, rt'.view i = some f → rt.view i = some f
  freeIndex : rt.atomFreeIndex ≠ 0 → rt'.atomFreeIndex ≠ 0
  hashSize : rt'.atomHash.length = rt.atomHash.length

theorem Inv.allocString_view (inv : rt.Inv atoms strs) (str : JSString) :
    (rt.allocString str).2.view = rt.view := by
  have ⟨_, _, _, infos⟩ := allocString_spec inv str
  have fresh := inv.table.fresh rt.nextString (Nat.le_refl _)
  funext i
  refine Option.ext fun f => ?_
  rw [view_eq_some, view_eq_some, infos]
  refine exists_congr fun q => and_congr_right fun slot => ?_
  rw [Function.update_of_ne]
  intro same
  have ⟨g, described, _⟩ := inv.table.live i q slot
  rw [same] at described
  exact Option.some_ne_none _ (described.symm.trans fresh)

theorem Inv.fresh_unnamed (inv : rt.Inv atoms strs) :
    ∀ f, rt.info rt.nextString = some f → f.atomType = 0 := by
  intro f described
  have fresh := inv.table.fresh rt.nextString (Nat.le_refl _)
  exact absurd (described.symm.trans fresh) (Option.some_ne_none f)

theorem atomString_spec (inv : rt.Inv atoms strs) {str : Option Nat}
    (held : ∀ p, str = some p → p ∈ strs) (malloc : Malloc) :
    (rt.atomString str malloc = some (none, rt) ∧ malloc.string = false) ∨
      ∃ p s rt', rt.atomString str malloc = some (some p, rt') ∧ rt.contents str = some s ∧
        rt.Prepared rt' atoms (consume str strs) p s := by
  cases str with
  | none =>
      unfold atomString
      cases string : malloc.string with
      | false => exact .inl ⟨rfl, rfl⟩
      | true =>
          obtain ⟨allocated, keeps, notHeld, infos⟩ := allocString_spec inv (.str16 [])
          refine .inr ⟨(rt.allocString (.str16 [])).1, .str16 [], (rt.allocString (.str16 [])).2,
            rfl, rfl, {
            inv := allocated
            plain := ⟨⟨.str16 [], 0, 0⟩, by rw [infos, Function.update_self], rfl, rfl⟩
            unnamed := inv.fresh_unnamed
            keeps := keeps
            views := by
              rw [inv.allocString_view]
              exact fun _ _ seen => seen
            freeIndex := id
            hashSize := rfl }⟩
  | some p =>
      have inside := held p rfl
      obtain ⟨f, described⟩ := inv.counted.strings p inside
      obtain ⟨o, string, same⟩ := info_eq_some.mp described
      have known : rt.contents (some p) = some o.str := by
        rw [contents, described, ← same]
        rfl
      rw [atomString, string]
      simp only [Option.bind_eq_bind, Option.bind_some]
      by_cases plain : o.atomType = 0
      · rw [if_pos plain]
        refine .inr ⟨p, o.str, rt, rfl, known, {
          inv := inv.perm (List.perm_cons_erase inside)
          plain := ⟨o.info, by rw [described, same], plain, rfl⟩
          unnamed := fun g described' => by
            rw [described, Option.some.injEq] at described'
            rw [← described', ← same]
            exact plain
          keeps := .refl rt _ _
          views := fun _ _ seen => seen
          freeIndex := id
          hashSize := rfl }⟩
      · rw [if_neg plain]
        cases allowed : malloc.string with
        | false => exact .inl ⟨rfl, rfl⟩
        | true =>
            obtain ⟨allocated, keeps, notHeld, infos⟩ := allocString_spec inv o.str
            have other : (rt.allocString o.str).1 ≠ p := by
              intro again
              rw [again] at notHeld
              exact notHeld inside
            obtain ⟨rt', run, inv', keeps', released⟩ :=
              jsFreeString_spec allocated (List.mem_cons_of_mem _ inside)
            rw [List.erase_cons_tail (by simpa using other)] at inv' keeps'
            rw [Bool.not_true, if_neg Bool.false_ne_true, run, Option.bind_some]
            refine .inr ⟨_, o.str, rt', rfl, known, {
              inv := inv'
              plain := ?_
              unnamed := inv.fresh_unnamed
              keeps := ?_
              views := fun i g seen => ?_
              freeIndex := released.freeIndex
              hashSize := released.hashSize }⟩
            · refine ⟨⟨o.str, 0, 0⟩, ?_, rfl, rfl⟩
              rw [released.info _ other, infos, Function.update_self]
            · exact (keeps.mono (fun _ held => held) fun q held => List.mem_of_mem_erase held).trans
                (keeps'.mono (fun _ held => held) fun q held => List.mem_cons_of_mem _ held)
            · rw [← inv.allocString_view o.str]
              exact released.view seen

/-- The table with the string `p` in the free slot `i`. -/
theorem Table.enter {o : JSStringObject} {heads : List Nat} (table : rt.Table)
    (start : rt.atomFreeIndex = i) (slot : rt.atomArray[i]? = some (.free next))
    (plain : rt.info p = some f) (untyped : f.atomType = 0) (typed : o.atomType ∈ [1, 2, 3])
    (size : heads.length = rt.atomHash.length)
    (buckets : ∀ k h, heads[k]? = some h → ∃ l,
      Chain 0 (Function.update rt.hashNext i (some o.hashNext)) h l ∧
        ∀ j, j ∈ l ↔ rt.InBucket rt.atomHash.length k j ∨
          (j = i ∧ o.atomType ≠ jsAtomTypeSymbol ∧ bucket rt.atomHash.length o.hash = k))
    (hashed : o.atomType ≠ jsAtomTypeSymbol → o.hash = jsAtomHash o.str o.atomType)
    (symbol : o.atomType = jsAtomTypeSymbol → o.hashNext = i)
    (absent : o.atomType ≠ jsAtomTypeSymbol → ∀ j g, rt.view j = some g →
      g.atomType = o.atomType → g.str.codes ≠ o.str.codes)
    (numeric : o.atomType = 1 → ∀ n ≤ jsAtomMaxInt, isNumString o.str.codes ≠ some n) :
    Table { rt.setString p o with
      atomHash := heads
      atomFreeIndex := next
      atomArray := rt.atomArray.set i (.atom p)
      atomCount := rt.atomCount + 1 } := by
  have bound := (List.getElem?_eq_some_iff.mp slot).1
  have atI := (List.getElem?_eq_some_iff.mp slot).2
  have ⟨l, chain, members⟩ := table.freeList
  have inside : i ∈ l := (members i).mpr ⟨next, slot⟩
  have some_ : i ≠ 0 := by
    intro zero
    rw [zero] at inside
    exact chain.stop_notMem inside
  have notSlot := table.no_slot plain untyped
  generalize built : AtomRuntime.mk _ _ _ _ _ _ _ _ = rt'
  have arrays : rt'.atomArray = rt.atomArray.set i (.atom p) := by rw [← built]
  have strings : rt'.strings = Function.update rt.strings p (some o) := by rw [← built]; rfl
  have heads' : rt'.atomHash = heads := by rw [← built]
  have infos : rt'.info = Function.update rt.info p (some o.info) := info_of_update strings
  have slotI : rt'.atomArray[i]? = some (.atom p) := by
    rw [arrays, List.getElem?_set_self bound]
  have slots : ∀ j : Nat, j ≠ i → rt'.atomArray[j]? = rt.atomArray[j]? := by
    intro j other
    rw [arrays, List.getElem?_set_ne (Ne.symm other)]
  have cases_ : ∀ j q : Nat, rt'.atomArray[j]? = some (.atom q) →
      (j = i ∧ q = p) ∨ (j ≠ i ∧ q ≠ p ∧ rt.atomArray[j]? = some (.atom q)) := by
    intro j q slotJ
    by_cases same : j = i
    · rw [same, slotI, Option.some.injEq, AtomSlot.atom.injEq] at slotJ
      exact .inl ⟨same, slotJ.symm⟩
    · rw [slots j same] at slotJ
      refine .inr ⟨same, fun again => ?_, slotJ⟩
      rw [again] at slotJ
      exact notSlot j slotJ
  have viewI : rt'.view i = some o.info := by
    refine view_eq_some.mpr ⟨p, slotI, ?_⟩
    rw [infos, Function.update_self]
  have views : ∀ j, j ≠ i → rt'.view j = rt.view j := by
    intro j other
    refine Option.ext fun g => ?_
    rw [view_eq_some, view_eq_some, slots j other, infos]
    refine exists_congr fun q => and_congr_right fun slotJ => ?_
    rw [Function.update_of_ne]
    intro same
    rw [same] at slotJ
    exact notSlot j slotJ
  have noView := free_noView slot
  have links : rt'.hashNext = Function.update rt.hashNext i (some o.hashNext) := by
    funext j
    by_cases same : j = i
    · have here : rt'.atomAt i = some (p, o) := by
        refine atomAt_eq_some.mpr ⟨slotI, ?_⟩
        rw [strings, Function.update_self]
      rw [same, Function.update_self, hashNext_of_atomAt here]
    · rw [Function.update_of_ne same]
      unfold hashNext atomAt
      rw [slots j same]
      split
      · rename_i q slotJ
        rw [strings, Function.update_of_ne]
        intro again
        rw [again] at slotJ
        exact notSlot j slotJ
      · rfl
  have inBuckets : ∀ n k j, rt'.InBucket n k j ↔ rt.InBucket n k j ∨
      (j = i ∧ o.atomType ≠ jsAtomTypeSymbol ∧ bucket n o.hash = k) := by
    intro n k j
    unfold InBucket
    by_cases same : j = i
    · rw [same, viewI, noView]
      constructor
      · intro ⟨g, here, typedG, place⟩
        rw [Option.some.injEq] at here
        rw [← here] at typedG place
        exact .inr ⟨rfl, typedG, place⟩
      · rintro (⟨g, here, _⟩ | ⟨_, typedG, place⟩)
        · cases here
        · exact ⟨o.info, rfl, typedG, place⟩
    · rw [views j same]
      simp [same]
  exact {
    power := by
      rw [heads', size]
      exact table.power
    buckets := by
      rw [heads', size]
      intro k h atK
      have ⟨l, chain, members⟩ := buckets k h atK
      refine ⟨l, ?_, fun j => ?_⟩
      · rw [links]
        exact chain
      · rw [members j, inBuckets]
    freeList := by
      have next' : rt'.atomFreeIndex = next := by rw [← built]
      rw [next']
      cases l with
      | nil => cases inside
      | cons x l =>
          have ⟨first, _, following, link, tail⟩ := Chain.cons_iff.mp chain
          rw [start] at first
          rw [← first, freeNext_eq_some, slot, Option.some.injEq, AtomSlot.free.injEq] at link
          have ⟨notLater, _⟩ := List.nodup_cons.mp chain.nodup
          rw [← first] at notLater members
          rw [← link] at tail
          refine ⟨l, tail.congr fun j member => ?_, fun j => ?_⟩
          · unfold freeNext
            rw [slots j (ne_of_mem_of_not_mem member notLater)]
          · by_cases same : j = i
            · rw [same, slotI]
              refine iff_of_false notLater fun ⟨_, wrong⟩ => ?_
              cases wrong
            · rw [slots j same, ← members j, List.mem_cons]
              simp [same]
    live := by
      intro j q slotJ
      rcases cases_ j q slotJ with ⟨_, same⟩ | ⟨_, other, slotJ⟩
      · rw [infos, same, Function.update_self]
        exact ⟨o.info, rfl, typed⟩
      · rw [infos, Function.update_of_ne other]
        exact table.live j q slotJ
    injective := by
      intro j k q slotJ slotK
      rcases cases_ j q slotJ with ⟨first, same⟩ | ⟨_, other, slotJ⟩
      · rcases cases_ k q slotK with ⟨second, _⟩ | ⟨_, other, _⟩
        · exact first.trans second.symm
        · exact absurd same other
      · rcases cases_ k q slotK with ⟨_, same⟩ | ⟨_, _, slotK⟩
        · exact absurd same other
        · exact table.injective j k q slotJ slotK
    owned := by
      intro q g described typedG
      by_cases same : q = p
      · rw [same]
        exact ⟨i, slotI⟩
      · rw [infos, Function.update_of_ne same] at described
        have ⟨j, slotJ⟩ := table.owned q g described typedG
        refine ⟨j, ?_⟩
        rw [slots j]
        · exact slotJ
        · intro again
          rw [again, slot] at slotJ
          cases slotJ
    hashed := by
      intro j g seen typedG
      by_cases same : j = i
      · rw [same, viewI, Option.some.injEq] at seen
        rw [← seen] at typedG ⊢
        exact hashed typedG
      · rw [views j same] at seen
        exact table.hashed j g seen typedG
    symbolIndex := by
      intro j g seen symbolG
      by_cases same : j = i
      · rw [same, viewI, Option.some.injEq] at seen
        rw [← seen] at symbolG
        rw [same, links, Function.update_self, symbol symbolG]
      · rw [views j same] at seen
        rw [links, Function.update_of_ne same]
        exact table.symbolIndex j g seen symbolG
    canonical := by
      intro j k g g' seen seen' sameType notSymbol sameCodes
      by_cases first : j = i <;> by_cases second : k = i
      · exact first.trans second.symm
      · rw [first, viewI, Option.some.injEq] at seen
        rw [views k second] at seen'
        rw [← seen] at sameType sameCodes notSymbol
        exact absurd sameCodes.symm (absent notSymbol k g' seen' sameType.symm)
      · rw [second, viewI, Option.some.injEq] at seen'
        rw [views j first] at seen
        rw [← seen'] at sameType sameCodes
        rw [sameType] at notSymbol
        exact absurd sameCodes (absent notSymbol j g seen sameType)
      · rw [views j first] at seen
        rw [views k second] at seen'
        exact table.canonical j k g g' seen seen' sameType notSymbol sameCodes
    numeric := by
      intro j g seen typedG
      by_cases same : j = i
      · rw [same, viewI, Option.some.injEq] at seen
        rw [← seen] at typedG ⊢
        exact numeric typedG
      · rw [views j same] at seen
        exact table.numeric j g seen typedG
    nullEntry := by
      intro s slot0
      rw [slots 0 (Ne.symm some_)] at slot0
      rw [views 0 (Ne.symm some_)]
      exact table.nullEntry s slot0
    size := by
      rw [arrays, List.length_set]
      exact table.size
    fresh := by
      intro q beyond
      have nextString : rt'.nextString = rt.nextString := by rw [← built]; rfl
      rw [nextString] at beyond
      have none := table.fresh q beyond
      rw [infos, Function.update_of_ne]
      · exact none
      · intro same
        rw [same, plain] at none
        cases none
    count := by
      have count : rt'.atomCount = rt.atomCount + 1 := by rw [← built]
      rw [count, arrays, List.countP_set bound, atI, table.count]
      simp [AtomSlot.isAtom] }

/-- `rt'` has the atom `f` of the string `p` in slot `i`. -/
structure Entered (rt rt' : AtomRuntime) (i p : Nat) (f : AtomInfo) : Prop where
  table : rt'.Table
  info : rt'.info = Function.update rt.info p (some f)
  atomArray : rt'.atomArray = rt.atomArray.set i (.atom p)
  refCount : rt'.refCount = rt.refCount

/-- A free entry heads the free list. -/
theorem Table.free_slot (table : rt.Table) (some_ : rt.atomFreeIndex ≠ 0) :
    ∃ next, rt.atomArray[rt.atomFreeIndex]? = some (.free next) := by
  have ⟨l, chain, members⟩ := table.freeList
  cases l with
  | nil => exact absurd (Chain.nil_iff.mp chain) some_
  | cons x l =>
      have ⟨start, _⟩ := Chain.cons_iff.mp chain
      rw [start]
      exact (members x).mp List.mem_cons_self

theorem InBucket.ne_free {size k : Nat} (inside : rt.InBucket size k j)
    (slot : rt.atomArray[i]? = some (.free next)) : j ≠ i := by
  intro again
  have ⟨g, seen, _⟩ := inside
  rw [again, free_noView slot] at seen
  cases seen

section

variable (table : rt.Table) (some_ : rt.atomFreeIndex ≠ 0) (plain : rt.info p = some f)
  (untyped : f.atomType = 0)

include table some_ plain untyped

theorem placeAtom_symbol (h h1 : Nat) (malloc : Malloc) :
    ∃ rt', rt.placeAtom p h h1 jsAtomTypeSymbol malloc = some (rt.atomFreeIndex, rt') ∧
      rt.Entered rt' rt.atomFreeIndex p ⟨f.str, h, jsAtomTypeSymbol⟩ := by
  have ⟨next, slot⟩ := table.free_slot some_
  have ⟨o, string, same⟩ := info_eq_some.mp plain
  rw [placeAtom, takeFreeIndex, string]
  simp only [Option.bind_eq_bind, Option.bind_some, slot, if_true]
  refine ⟨_, rfl, ?_, ?_, rfl, rfl⟩
  · refine table.enter rfl slot plain untyped (by simp [jsAtomTypeSymbol, JSAtomType.number]) rfl
      (fun k h atK => ?_)
      (fun wrong => absurd rfl wrong) (fun _ => rfl) (fun wrong => absurd rfl wrong)
      (fun wrong => by cases wrong)
    have ⟨l, chain, members⟩ := table.buckets k h atK
    refine ⟨l, chain.congr fun j member =>
      Function.update_of_ne (((members j).mp member).ne_free slot) .., fun j => ?_⟩
    rw [members j]
    simp
  · rw [← same]
    exact setString_info rt p _

theorem placeAtom_hashed (typed : ty ∈ [1, 2])
    (absent : ∀ j g, rt.view j = some g → g.atomType = ty → g.str.codes ≠ f.str.codes)
    (numeric : ty = 1 → ∀ n ≤ jsAtomMaxInt, isNumString f.str.codes ≠ some n) (malloc : Malloc) :
    ∃ rt', rt.placeAtom p (jsAtomHash f.str ty) (bucket rt.atomHash.length (jsAtomHash f.str ty)) ty
        malloc = some (rt.atomFreeIndex, rt') ∧
      rt.Entered rt' rt.atomFreeIndex p ⟨f.str, jsAtomHash f.str ty, ty⟩ := by
  obtain ⟨next, slot⟩ := table.free_slot some_
  obtain ⟨o, string, same⟩ := info_eq_some.mp plain
  have notSymbol : ty ≠ jsAtomTypeSymbol := by
    intro wrong
    rw [wrong] at typed
    exact absurd typed (by decide)
  have typed' : ty ∈ [1, 2, 3] := by
    simp only [List.mem_cons, List.not_mem_nil, or_false] at typed ⊢
    exact typed.imp_right .inl
  have inside := bucket_lt table.hashSize_pos (jsAtomHash f.str ty)
  obtain ⟨head, atHead⟩ : ∃ head,
      rt.atomHash[bucket rt.atomHash.length (jsAtomHash f.str ty)]? = some head :=
    ⟨_, List.getElem?_eq_getElem inside⟩
  have content : f.str = o.str := by rw [← same]; rfl
  have entered : Table { rt.setString p
        { o with hash := jsAtomHash f.str ty, hashNext := head, atomType := ty } with
      atomHash := rt.atomHash.set (bucket rt.atomHash.length (jsAtomHash f.str ty)) rt.atomFreeIndex
      atomFreeIndex := next
      atomArray := rt.atomArray.set rt.atomFreeIndex (.atom p)
      atomCount := rt.atomCount + 1 } := by
    refine table.enter rfl slot plain untyped typed' List.length_set (fun k h atK => ?_)
      (fun _ => by dsimp only; rw [content]) (fun wrong => absurd wrong notSymbol)
      (fun _ j g seen sameType => by
        have differ := absent j g seen sameType
        rw [content] at differ
        exact differ)
      (fun string n bound => by
        have differ := numeric string n bound
        rw [content] at differ
        exact differ)
    by_cases home : bucket rt.atomHash.length (jsAtomHash f.str ty) = k
    · rw [← home, List.getElem?_set_self inside, Option.some.injEq] at atK
      obtain ⟨l, chain, members⟩ := table.buckets _ head atHead
      rw [← atK, ← home]
      refine ⟨rt.atomFreeIndex :: l, .cons some_ (Function.update_self ..)
        (chain.congr fun j member =>
          Function.update_of_ne (((members j).mp member).ne_free slot) ..), fun j => ?_⟩
      rw [List.mem_cons, members j, or_comm]
      simp [notSymbol]
    · rw [List.getElem?_set_ne home] at atK
      obtain ⟨l, chain, members⟩ := table.buckets k h atK
      refine ⟨l, chain.congr fun j member =>
        Function.update_of_ne (((members j).mp member).ne_free slot) .., fun j => ?_⟩
      rw [members j]
      simp [home]
  have idem : ∀ a b : JSStringObject,
      Function.update (Function.update rt.strings p (some a)) p (some b) =
        Function.update rt.strings p (some b) := fun a b => Function.update_idem ..
  rw [placeAtom, takeFreeIndex, string]
  simp only [Option.bind_eq_bind, Option.bind_some, slot, linkAtom, setString, Function.update_self,
    atHead, idem]
  rw [if_neg notSymbol]
  have infos : (rt.setString p
        { o with hash := jsAtomHash f.str ty, hashNext := head, atomType := ty }).info =
      Function.update rt.info p (some ⟨f.str, jsAtomHash f.str ty, ty⟩) := by
    rw [content]
    exact setString_info rt p _
  split
  · obtain ⟨n, power⟩ := entered.power
    have double : (rt.atomHash.set (bucket rt.atomHash.length (jsAtomHash f.str ty))
        rt.atomFreeIndex).length * 2 = 2 ^ (n + 1) := by
      rw [Nat.pow_succ]
      exact congrArg (· * 2) power
    obtain ⟨rt', run, table', info', refs', arrays', _⟩ :=
      jsResizeAtomHash_spec entered (n + 1) malloc.hash
    rw [double]
    unfold setString at run
    rw [run]
    exact ⟨rt', rfl, table', info'.trans infos, arrays', refs'⟩
  · exact ⟨_, rfl, entered, infos, rfl, rfl⟩

end

theorem Entered.inv (inv : rt.Inv atoms (p :: strs)) (entered : rt.Entered rt' i p g)
    (slot : rt.atomArray[i]? = some (.free next)) (some_ : i ≠ 0) (plain : rt.info p = some f)
    (untyped : f.atomType = 0) (content : g.str = f.str)
    (registered : jsAtomIsConst i = true → g.atomType ≠ 2) :
    rt'.Inv (i :: atoms) strs ∧ rt.Keeps rt' atoms strs ∧ i ∉ atoms ∧
      rt'.atomArray[i]? = some (.atom p) ∧ rt'.info p = some g := by
  have bound := (List.getElem?_eq_some_iff.mp slot).1
  have notSlot := inv.table.no_slot plain untyped
  have slotI : rt'.atomArray[i]? = some (.atom p) := by
    rw [entered.atomArray, List.getElem?_set_self bound]
  have slots : ∀ j : Nat, j ≠ i → rt'.atomArray[j]? = rt.atomArray[j]? := by
    intro j other
    rw [entered.atomArray, List.getElem?_set_ne (Ne.symm other)]
  have infoP : rt'.info p = some g := by rw [entered.info, Function.update_self]
  have infos : ∀ q, q ≠ p → rt'.info q = rt.info q := by
    intro q other
    rw [entered.info, Function.update_of_ne other]
  have kept : ∀ j q : Nat, rt.atomArray[j]? = some (.atom q) →
      rt'.atomArray[j]? = some (.atom q) ∧ rt'.info q = rt.info q := by
    intro j q slotJ
    have other : j ≠ i := by
      intro same
      rw [same, slot] at slotJ
      cases slotJ
    have otherP : q ≠ p := by
      intro same
      rw [same] at slotJ
      exact notSlot j slotJ
    rw [slots j other]
    exact ⟨slotJ, infos q otherP⟩
  have notHeld : i ∉ atoms := by
    intro held
    rcases inv.counted.handles i held with ⟨tagged, _⟩ | ⟨_, q, slotQ⟩
    · have size := inv.table.size
      simp only [jsAtomTagInt, jsAtomMax] at tagged size
      omega
    · rw [slot] at slotQ
      cases slotQ
  have countP : rt.refCount p = strs.count p + 1 := by
    rw [inv.counted.plain p f plain untyped, List.count_cons_self]
  have counts : ∀ q, q ≠ p → (p :: strs).count q = strs.count q := fun q other =>
    List.count_cons_of_ne (Ne.symm other)
  have valid : ∀ a ∈ i :: atoms, rt'.Valid a := List.forall_mem_cons.mpr
    ⟨.inr ⟨some_, p, slotI⟩, fun a held => (inv.counted.handles a held).kept fun q slotA =>
      (kept a q slotA).1⟩
  refine ⟨⟨entered.table, ?_⟩, ⟨fun a held => inv.key_kept held (kept a), fun q held => ?_,
    fun j q _ slotJ => (kept j q slotJ).1⟩, notHeld, slotI, infoP⟩
  · exact {
      plain := by
        intro q f' described typed
        by_cases same : q = p
        · rw [same, infoP, Option.some.injEq] at described
          have live := entered.table.live i p slotI
          rw [infoP, described] at live
          obtain ⟨_, here, wrong⟩ := live
          rw [Option.some.injEq] at here
          rw [← here, typed] at wrong
          simp at wrong
        · rw [infos q same] at described
          rw [entered.refCount, ← counts q same]
          exact inv.counted.plain q f' described typed
      atom := by
        intro j q slotJ
        rw [entered.refCount]
        by_cases same : j = i
        · rw [same, slotI, Option.some.injEq, AtomSlot.atom.injEq] at slotJ
          rw [same, ← slotJ, countP, List.count_cons_self, List.count_eq_zero_of_not_mem notHeld]
          simp
        · rw [slots j same] at slotJ
          have otherP : q ≠ p := by
            intro again
            rw [again] at slotJ
            exact notSlot j slotJ
          have old := inv.counted.atom j q slotJ
          rw [counts q otherP] at old
          rw [List.count_cons_of_ne (Ne.symm same)]
          exact old
      positive := by
        intro q f' described
        rw [entered.refCount]
        by_cases same : q = p
        · rw [same, countP]
          exact Nat.succ_pos _
        · rw [infos q same] at described
          exact inv.counted.positive q f' described
      strings := by
        intro q held
        by_cases same : q = p
        · rw [same]
          exact ⟨g, infoP⟩
        · rw [infos q same]
          exact inv.counted.strings q (List.mem_cons_of_mem _ held)
      handles := valid
      registered := by
        intro j f' seen const
        obtain ⟨q, slotJ, described⟩ := view_eq_some.mp seen
        by_cases same : j = i
        · rw [same, slotI, Option.some.injEq, AtomSlot.atom.injEq] at slotJ
          rw [← slotJ, infoP, Option.some.injEq] at described
          rw [same] at const
          rw [← described]
          exact registered const
        · rw [slots j same] at slotJ
          rw [(kept j q slotJ).2] at described
          exact inv.counted.registered j f' (view_eq_some.mpr ⟨q, slotJ, described⟩) const }
  · by_cases same : q = p
    · rw [same, infoP, plain, Option.map_some, Option.map_some, content]
    · rw [infos q same]

/-- The allocations of `__JS_NewAtom` whose failure it reports. -/
def MallocSucceeds (malloc : Malloc) : Prop :=
  malloc.array = true ∧ malloc.nullEntry = true ∧ malloc.string = true

def Initialized (rt : AtomRuntime) : Prop :=
  ∀ i < jsAtomEnd, ∃ p, rt.atomArray[i]? = some (.atom p)

theorem failNewAtom_spec (inv : rt.Inv atoms strs) {str : Option Nat}
    (held : ∀ p, str = some p → p ∈ strs) :
    ∃ rt', rt.failNewAtom str = some (jsAtomNull, rt') ∧ rt'.Inv atoms (consume str strs) ∧
      rt.Keeps rt' atoms (consume str strs) := by
  cases str with
  | none => exact ⟨rt, rfl, inv, .refl rt _ _⟩
  | some p =>
      have ⟨rt', run, inv', keeps, _⟩ := jsFreeString_spec inv (held p rfl)
      refine ⟨rt', ?_, inv', keeps⟩
      rw [failNewAtom, run]
      rfl

/-- The result of `__JS_NewAtom` where it has made the atom. -/
structure Made (rt rt' : AtomRuntime) (atoms strs : List Nat) (i p : Nat) (f : AtomInfo) : Prop where
  some_ : i ≠ 0
  inv : rt'.Inv (i :: atoms) strs
  slot : rt'.atomArray[i]? = some (.atom p)
  info : rt'.info p = some f
  unnamed : ∀ g, rt.info p = some g → g.atomType = 0

theorem addAtom_spec (inv : rt.Inv atoms strs) (fits : rt.Fits) (str : Option Nat)
    (held : ∀ p, str = some p → p ∈ strs)
    (kind : ty = jsAtomTypeSymbol ∨ ty ∈ [1, 2] ∧ ∃ s, rt.contents str = some s ∧
      h = jsAtomHash s ty ∧ h1 = bucket rt.atomHash.length h ∧
      (∀ j g, rt.view j = some g → g.atomType = ty → g.str.codes ≠ s.codes) ∧
      (ty = 1 → ∀ n ≤ jsAtomMaxInt, isNumString s.codes ≠ some n))
    (ready : ty = 2 → rt.Initialized) (malloc : Malloc) :
    ∃ i rt', rt.addAtom str h h1 ty malloc = some (i, rt') ∧
      rt.Keeps rt' atoms (consume str strs) ∧
      ((i = jsAtomNull ∧ rt'.Inv atoms (consume str strs) ∧ ¬ MallocSucceeds malloc) ∨
        i ∉ atoms ∧ ∃ p s, rt.contents str = some s ∧
          rt.Made rt' atoms (consume str strs) i p ⟨s, h, ty⟩) := by
  have fewer : ∀ q ∈ consume str strs, q ∈ strs := by
    intro q inside
    cases str with
    | none => exact inside
    | some p => exact List.mem_of_mem_erase inside
  unfold addAtom
  rcases ensureFreeIndex_spec inv fits malloc with ⟨failed, reason⟩ | ⟨rt1, grew, grown⟩
  · obtain ⟨rt', run, inv', keeps⟩ := failNewAtom_spec inv held
    rw [failed]
    exact ⟨_, rt', run, keeps, .inl ⟨rfl, inv', fun ok => reason ⟨ok.1, ok.2.1⟩⟩⟩
  · rw [grew]
    dsimp only
    have sameContents : ∀ s, rt.contents str = some s → rt1.contents str = some s := by
      intro s known
      cases str with
      | none => exact known
      | some p =>
          obtain ⟨f, described, same⟩ := Option.map_eq_some_iff.mp known
          rw [contents, grown.info p f described, ← same]
          rfl
    obtain ⟨s0, known0⟩ : ∃ s, rt.contents str = some s := by
      cases str with
      | none => exact ⟨_, rfl⟩
      | some p =>
          obtain ⟨f, described⟩ := inv.counted.strings p (held p rfl)
          exact ⟨f.str, by rw [contents, described]; rfl⟩
    rcases atomString_spec grown.inv held malloc with ⟨failed, reason⟩ |
      ⟨p, s, rt2, prepared, known, ready2⟩
    · obtain ⟨rt', run, inv', keeps⟩ := failNewAtom_spec grown.inv held
      rw [failed]
      refine ⟨_, rt', run, (grown.keeps.mono (fun _ inside => inside) fewer).trans keeps,
        .inl ⟨rfl, inv', fun ok => ?_⟩⟩
      rw [ok.2.2] at reason
      cases reason
    · obtain ⟨f, plain, untyped, content⟩ := ready2.plain
      have some_ := ready2.freeIndex grown.freeIndex
      obtain ⟨next, slot⟩ := ready2.inv.table.free_slot some_
      have same : s0 = s := by
        have known0 := sameContents s0 known0
        rw [known, Option.some.injEq] at known0
        exact known0.symm
      have before := (grown.keeps.mono (fun _ inside => inside) fewer).trans ready2.keeps
      have large : ty = 2 → jsAtomIsConst rt2.atomFreeIndex = true → False := by
        intro registered const
        have bound := (List.getElem?_eq_some_iff.mp slot).1
        have size := ready2.inv.table.size
        simp only [jsAtomIsConst, Bool.or_eq_true, decide_eq_true_eq] at const
        rcases const with small | tagged
        · obtain ⟨q, there⟩ := ready registered _ small
          have there := before.predefined _ q small there
          rw [slot] at there
          cases there
        · simp only [jsAtomTagInt, jsAtomMax] at tagged size
          omega
      have placed : ∃ rt', rt2.placeAtom p h h1 ty malloc = some (rt2.atomFreeIndex, rt') ∧
          rt2.Entered rt' rt2.atomFreeIndex p ⟨f.str, h, ty⟩ := by
        rcases kind with symbol | ⟨typed, s', known', hash, home, absent, numeric⟩
        · rw [symbol]
          exact placeAtom_symbol ready2.inv.table some_ plain untyped h h1 malloc
        · rw [known0, Option.some.injEq] at known'
          have hash' : h = jsAtomHash f.str ty := by rw [hash, ← known', same, content]
          have home' : h1 = bucket rt2.atomHash.length h := by
            rw [home, ready2.hashSize, grown.atomHash]
          rw [home', hash']
          refine placeAtom_hashed ready2.inv.table some_ plain untyped typed (fun j g seen sameType => ?_)
            (fun string n bound => ?_) malloc
          · rcases grown.views j g (ready2.views j g seen) with old | symbol
            · have differ := absent j g old sameType
              rw [← known', same, ← content] at differ
              exact differ
            · rw [← sameType, symbol] at typed
              exact absurd typed (by decide)
          · have differ := numeric string n bound
            rw [← known', same, ← content] at differ
            exact differ
      obtain ⟨rt', run, entered⟩ := placed
      obtain ⟨inv', keeps, notHeld, slot', info'⟩ := Entered.inv ready2.inv entered slot some_ plain untyped
        rfl fun const registered => large registered const
      rw [prepared]
      refine ⟨_, rt', run, before.trans keeps, .inr ⟨notHeld, p, s0, known0, some_, inv', slot', ?_,
        fun g described => ready2.unnamed g (grown.info p g described)⟩⟩
      rw [info', content, same]

end PrimJs.AtomRuntime
