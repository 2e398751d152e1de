import PrimJs.Foundation.OperationRun
import PrimJs.Runtime.AtomStoreKeys

/-! Runs of the engine on its atom table. -/

namespace PrimJs

/-- The runtime, the atom handles the rest of the engine holds, and its string and symbol values. -/
structure AtomSystem where
  rt : AtomRuntime
  atoms : List Nat
  strs : List Nat

inductive AtomOp where
  | newString (str : JSString) (made : Bool)
  | dupString (p : Nat)
  | freeString (p : Nat)
  | newAtomInit (chars : List UInt8) (atomType : JSAtomType) (made : Bool) (malloc : Malloc)
  | newAtomStr (p : Nat) (malloc : Malloc)
  | newAtomRawString (bytes : List UInt8) (len : Nat) (isWideChar made : Bool) (malloc : Malloc)
  | newAtomLen (bytes : List UInt8) (made : Bool) (malloc : Malloc)
  | newAtomUInt32 (n : Nat) (made : Bool) (malloc : Malloc)
  | newAtomInt64 (n : Int) (made : Bool) (malloc : Malloc)
  | newSymbol (str : Option Nat) (atomType : JSAtomType) (malloc : Malloc)
  | symbolToAtom (p : Nat)
  | findAtom (bytes : List UInt8)
  | atomToValue (a : Nat) (made : Bool)
  | dupAtom (a : Nat)
  | freeAtom (a : Nat)
  | resizeHash (n : Nat) (malloc : Bool)

namespace AtomSystem

open AtomRuntime

def initial : AtomSystem := ⟨AtomRuntime.initial, [], []⟩

/-- The system with a new handle, unless it is `JS_ATOM_NULL`. -/
def withAtom (s : AtomSystem) (strs : List Nat) (result : Nat × AtomRuntime) :
    Option Nat × AtomSystem :=
  (some result.1,
    ⟨result.2, if result.1 = jsAtomNull then s.atoms else result.1 :: s.atoms, strs⟩)

def newValue (s : AtomSystem) (str : JSString) (made : Bool) : Option Nat × AtomSystem :=
  if made then
    let (p, rt) := s.rt.allocString str
    (some p, ⟨rt, s.atoms, p :: s.strs⟩)
  else (none, s)

def apply (s : AtomSystem) : AtomOp → Option (Option Nat × AtomSystem)
  | .newString str made => some (s.newValue str made)
  | .dupString p =>
      some (some p, ⟨s.rt.setRefCount p (s.rt.refCount p + 1), s.atoms, p :: s.strs⟩)
  | .freeString p => do
      let rt ← s.rt.jsFreeString p
      some (none, ⟨rt, s.atoms, s.strs.erase p⟩)
  | .newAtomInit chars atomType made malloc =>
      (s.rt.jsNewAtomInit chars atomType made malloc).map (s.withAtom s.strs)
  | .newAtomStr p malloc => (s.rt.jsNewAtomStr p malloc).map (s.withAtom (s.strs.erase p))
  | .newAtomRawString bytes len isWideChar made malloc =>
      (s.rt.jsNewAtomRawString bytes len isWideChar made malloc).map (s.withAtom s.strs)
  | .newAtomLen bytes made malloc =>
      (s.rt.lepusNewAtomLen bytes made malloc).map (s.withAtom s.strs)
  | .newAtomUInt32 n made malloc =>
      (s.rt.lepusNewAtomUInt32 n made malloc).map (s.withAtom s.strs)
  | .newAtomInt64 n made malloc => (s.rt.jsNewAtomInt64 n made malloc).map (s.withAtom s.strs)
  | .newSymbol str atomType malloc => do
      let (p, rt) ← s.rt.jsNewSymbol str atomType malloc
      some (p, ⟨rt, s.atoms, p.toList ++ consume str s.strs⟩)
  | .symbolToAtom p => do
      let i ← s.rt.jsGetAtomIndex p
      let rt ← s.rt.lepusDupAtom i
      some (s.withAtom s.strs (i, rt))
  | .findAtom bytes => (s.rt.jsFindAtom bytes).map (s.withAtom s.strs)
  | .atomToValue a made =>
      if jsAtomIsTaggedInt a then
        some (s.newValue (.str8 (unsignedChars (jsAtomToUInt32 a))) made)
      else do
        let (p, _) ← s.rt.atomAt a
        some (some p, ⟨s.rt.setRefCount p (s.rt.refCount p + 1), s.atoms, p :: s.strs⟩)
  | .dupAtom a => do
      let rt ← s.rt.lepusDupAtom a
      some (some a, ⟨rt, a :: s.atoms, s.strs⟩)
  | .freeAtom a => do
      let rt ← s.rt.lepusFreeAtom a
      some (none, ⟨rt, s.atoms.erase a, s.strs⟩)
  | .resizeHash n malloc => do
      let rt ← s.rt.jsResizeAtomHash (2 ^ n) malloc
      some (none, ⟨rt, s.atoms, s.strs⟩)

end AtomSystem

open AtomRuntime

/-- The caller holds what it passes on or releases, and makes symbols only once the predefined atoms
are there. -/
def AtomOp.Legal (s : AtomSystem) : AtomOp → Prop
  | .dupString p | .freeString p | .newAtomStr p _ => p ∈ s.strs
  | .newAtomInit _ atomType _ _ => atomType ≠ .globalSymbol
  | .newAtomUInt32 n _ _ => n < 2 ^ 32
  | .newAtomInt64 n _ _ => -2 ^ 63 ≤ n ∧ n < 2 ^ 63
  | .newSymbol str atomType _ =>
      (∀ p, str = some p → p ∈ s.strs) ∧ s.rt.Initialized ∧ atomType ≠ .string ∧
        (atomType = .globalSymbol → str ≠ none)
  | .symbolToAtom p => p ∈ s.strs ∧ ∃ i : Nat, i ≠ 0 ∧ s.rt.atomArray[i]? = some (.atom p)
  | .atomToValue a _ | .dupAtom a | .freeAtom a => a ∈ s.atoms
  | _ => True

/-- The array is not grown past the size whose triple is an `int`; a name made without a look at its
digits is no integer; and bytes beyond ASCII are the characters of no atom. -/
def AtomOp.Fits (s : AtomSystem) : AtomOp → Prop
  | .newAtomInit chars atomType _ _ => s.rt.Fits ∧
      (atomType = .string → ∀ n ≤ jsAtomMaxInt, isNumString (JSString.str8 chars).codes ≠ some n)
  | .newAtomLen bytes _ _ => s.rt.Fits ∧
      (startsNumeric (bytes.map UInt8.toNat) = true ∨ s.rt.Unambiguous bytes)
  | .findAtom bytes => s.rt.Unambiguous bytes
  | .newAtomStr _ _ | .newAtomRawString _ _ _ _ _ | .newAtomUInt32 _ _ _ | .newAtomInt64 _ _ _
  | .newSymbol _ _ _ => s.rt.Fits
  | _ => True

/-- A handle for the key, or `JS_ATOM_NULL` where memory lacks. -/
def Named (s' : AtomSystem) (result : Option Nat) (enough : Prop) (k : PropertyKey) : Prop :=
  (result = some jsAtomNull ∧ ¬ enough) ∨ ∃ a, result = some a ∧ a ∈ s'.atoms ∧ s'.rt.key a = some k

/-- A symbol no atom was before. -/
def NewSymbolAt (s s' : AtomSystem) (a p : Nat) : Prop :=
  s'.rt.atomArray[a]? = some (.atom p) ∧ s'.rt.key a = some (.symbol p) ∧
    ∀ f, s.rt.info p = some f → f.atomType = 0

def AtomOp.Exact (s : AtomSystem) (op : AtomOp) (result : Option Nat) (s' : AtomSystem) : Prop :=
  (∀ a ∈ s.atoms, a ∈ s'.atoms → s'.rt.key a = s.rt.key a) ∧
  match op with
  | .newString str made => made = true → ∃ p, result = some p ∧ p ∈ s'.strs ∧
      (s'.rt.info p).map AtomInfo.str = some str
  | .newAtomInit chars .string made malloc =>
      Named s' result (made = true ∧ MallocSucceeds malloc) (.string (JSString.str8 chars).codes)
  | .newAtomInit _ _ made malloc =>
      (result = some jsAtomNull ∧ ¬ (made = true ∧ MallocSucceeds malloc)) ∨
        ∃ a p, result = some a ∧ a ∈ s'.atoms ∧ NewSymbolAt s s' a p
  | .newAtomStr p malloc => ∃ str, (s.rt.info p).map AtomInfo.str = some str ∧
      Named s' result (MallocSucceeds malloc) (.string str.codes)
  | .newAtomRawString bytes len isWideChar made malloc =>
      Named s' result (made = true ∧ MallocSucceeds malloc)
        (.string (rawCodes bytes len isWideChar)) ∧
      (made = true → ∃ a rt, result = some a ∧
        s.rt.withNewString (rawString bytes len isWideChar) true
          (fun rt p => rt.jsNewAtomStr p malloc) = some (a, rt))
  | .newAtomLen bytes made malloc =>
      Named s' result (made = true ∧ MallocSucceeds malloc)
        (.string (lepusNewStringLen bytes).codes)
  | .newAtomUInt32 n made malloc =>
      Named s' result (made = true ∧ MallocSucceeds malloc) (.string (decimal n))
  | .newAtomInt64 n made malloc =>
      Named s' result (made = true ∧ MallocSucceeds malloc) (.string (signedCodes n))
  | .newSymbol str .globalSymbol malloc => (result = none ∧ ¬ MallocSucceeds malloc) ∨
      ∃ content a p, s.rt.contents str = some content ∧ result = some p ∧ p ∈ s'.strs ∧
        s'.rt.atomArray[a]? = some (.atom p) ∧ s'.rt.key a = some (.registered content.codes)
  | .newSymbol _ _ malloc => (result = none ∧ ¬ MallocSucceeds malloc) ∨
      ∃ a p, result = some p ∧ p ∈ s'.strs ∧ NewSymbolAt s s' a p
  | .symbolToAtom p => ∃ a, result = some a ∧ a ∈ s'.atoms ∧ s'.rt.atomArray[a]? = some (.atom p)
  | .findAtom bytes => result = some jsAtomNull ∨
      Named s' result True (.string (lepusNewStringLen bytes).codes)
  | .atomToValue a made => made = true → ∃ p, result = some p ∧ p ∈ s'.strs ∧
      ∀ codes, s.rt.key a = some (.string codes) →
        (s'.rt.info p).map (fun f => f.str.codes) = some codes
  | _ => True

/-- The table as its users see it. -/
structure AtomSystem.Canonical (s : AtomSystem) : Prop where
  buckets : ∀ k h, s.rt.atomHash[k]? = some h → ∃ l, Chain 0 s.rt.hashNext h l ∧ l.Nodup ∧
    ∀ i, i ∈ l ↔ s.rt.InBucket s.rt.atomHash.length k i
  slots : ∃ l, Chain 0 s.rt.freeNext s.rt.atomFreeIndex l ∧ l.Nodup ∧
    ∀ i, i < s.rt.atomArray.length ↔
      (i ∈ l ∧ s.rt.view i = none) ∨ (i ∉ l ∧ ∃ f, s.rt.view i = some f)
  handles : ∀ a ∈ s.atoms, s.rt.Valid a
  keys : ∀ a b, s.rt.Valid a → s.rt.Valid b → (a = b ↔ s.rt.key a = s.rt.key b)
  integers : ∀ a, s.rt.Valid a → ∀ n ≤ jsAtomMaxInt,
    (s.rt.key a = some (.string (decimal n)) ↔ a = jsAtomFromUInt32 n)

namespace AtomSystem

variable {s s' : AtomSystem} {rt' : AtomRuntime} {strs : List Nat} {i p n : Nat} {f : AtomInfo}
  {malloc : Malloc} {k : PropertyKey} {enough : Prop}

def Inv (s : AtomSystem) : Prop := s.rt.Inv s.atoms s.strs

theorem Inv.canonical (inv : s.Inv) : s.Canonical := by
  refine ⟨fun k h atK => ?_, ?_, inv.counted.handles, fun a b validA validB => ?_,
    fun a valid n small => ?_⟩
  · have ⟨l, chain, members⟩ := inv.table.buckets k h atK
    exact ⟨l, chain, chain.nodup, members⟩
  · have ⟨l, chain, members⟩ := inv.table.freeList
    refine ⟨l, chain, chain.nodup, fun i => ?_⟩
    constructor
    · intro inside
      have slot := List.getElem?_eq_getElem inside
      cases content : s.rt.atomArray[i] with
      | free next =>
          rw [content] at slot
          exact .inl ⟨(members i).mpr ⟨next, slot⟩, free_noView slot⟩
      | atom p =>
          rw [content] at slot
          have ⟨f, described, _⟩ := inv.table.live i p slot
          refine .inr ⟨fun free => ?_, f, view_eq_some.mpr ⟨p, slot, described⟩⟩
          have ⟨next, slot'⟩ := (members i).mp free
          rw [slot] at slot'
          cases slot'
    · rintro (⟨free, _⟩ | ⟨_, f, seen⟩)
      · have ⟨next, slot⟩ := (members i).mp free
        exact (List.getElem?_eq_some_iff.mp slot).1
      · exact view_lt seen
  · constructor
    · intro same
      rw [same]
    · exact inv.table.key_injective validA validB
  · have ⟨tagged, bound, value⟩ := fromUInt32_tagged small
    have named : s.rt.key (jsAtomFromUInt32 n) = some (.string (decimal n)) := by
      rw [key_tagged tagged, value]
    constructor
    · intro same
      exact inv.table.key_injective valid (.inl ⟨tagged, bound⟩) (same.trans named.symm)
    · intro same
      rw [same]
      exact named

theorem initial_inv : initial.Inv := by
  have noSlot : ∀ (i : Nat) (s : AtomSlot), AtomRuntime.initial.atomArray[i]? ≠ some s := by
    intro i s slot
    cases slot
  have noView : ∀ i f, AtomRuntime.initial.view i ≠ some f := by
    intro i f seen
    have ⟨p, slot, _⟩ := view_eq_some.mp seen
    exact noSlot i _ slot
  have noInfo : ∀ p, AtomRuntime.initial.info p = none := fun _ => rfl
  refine ⟨?_, ?_⟩
  · exact {
      power := ⟨9, List.length_replicate⟩
      buckets := by
        intro k h atK
        have zero := List.eq_of_mem_replicate (List.mem_of_getElem? atK)
        rw [zero]
        exact ⟨[], .nil, fun i => iff_of_false List.not_mem_nil fun ⟨f, seen, _⟩ => noView i f seen⟩
      freeList := ⟨[], .nil, fun i => iff_of_false List.not_mem_nil fun ⟨next, slot⟩ =>
        noSlot i _ slot⟩
      live := fun i p slot => absurd slot (noSlot i _)
      injective := fun i j p slot _ => absurd slot (noSlot i _)
      owned := fun p f described => absurd ((noInfo p).symm.trans described) (Option.some_ne_none f).symm
      hashed := fun i f seen => absurd seen (noView i f)
      symbolIndex := fun i f seen => absurd seen (noView i f)
      canonical := fun i j f g seen => absurd seen (noView i f)
      numeric := fun i f seen => absurd seen (noView i f)
      nullEntry := fun s slot => absurd slot (noSlot 0 s)
      size := Nat.zero_le _
      fresh := fun p _ => noInfo p
      count := rfl }
  · exact {
      plain := fun p f described => absurd ((noInfo p).symm.trans described) (Option.some_ne_none f).symm
      atom := fun i p slot => absurd slot (noSlot i _)
      positive := fun p f described =>
        absurd ((noInfo p).symm.trans described) (Option.some_ne_none f).symm
      strings := fun p held => nomatch held
      handles := fun a held => nomatch held
      registered := fun i f seen => absurd seen (noView i f) }

/-! One operation. -/

/-- An operation does what it says, and the invariant holds after it. -/
def Steps (s : AtomSystem) (op : AtomOp) : Prop :=
  ∃ result s', s.apply op = some (result, s') ∧ s'.Inv ∧ op.Exact s result s'

theorem withAtom_null (zero : i = jsAtomNull) :
    s.withAtom strs (i, rt') = (some jsAtomNull, ⟨rt', s.atoms, strs⟩) := by
  rw [withAtom, if_pos zero, zero]

theorem withAtom_some (some_ : i ≠ jsAtomNull) :
    s.withAtom strs (i, rt') = (some i, ⟨rt', i :: s.atoms, strs⟩) := by
  rw [withAtom, if_neg some_]

theorem withAtom_spec (names : s.rt.Names rt' s.atoms strs enough i k) :
    (s.withAtom strs (i, rt')).2.Inv ∧
      (∀ a ∈ s.atoms, a ∈ (s.withAtom strs (i, rt')).2.atoms → rt'.key a = s.rt.key a) ∧
      Named (s.withAtom strs (i, rt')).2 (some i) enough k := by
  rcases names.result with ⟨zero, inv, reason⟩ | ⟨some_, inv, named⟩
  · rw [withAtom_null zero]
    exact ⟨inv, fun a held _ => names.keeps.key a held, .inl ⟨by rw [zero], reason⟩⟩
  · rw [withAtom_some some_]
    exact ⟨inv, fun a held _ => names.keeps.key a held,
      .inr ⟨i, rfl, List.mem_cons_self, named⟩⟩

theorem newValue_spec (inv : s.Inv) (str : JSString) (made : Bool) :
    (s.newValue str made).2.Inv ∧
      (∀ a ∈ s.atoms, (s.newValue str made).2.rt.key a = s.rt.key a) ∧
      (made = true → ∃ p, (s.newValue str made).1 = some p ∧ p ∈ (s.newValue str made).2.strs ∧
        ((s.newValue str made).2.rt.info p).map AtomInfo.str = some str) := by
  cases made with
  | false => exact ⟨inv, fun _ _ => rfl, fun wrong => by cases wrong⟩
  | true =>
      have ⟨allocated, keeps, _, infos⟩ := allocString_spec inv str
      refine ⟨allocated, keeps.key, fun _ => ⟨_, rfl, List.mem_cons_self, ?_⟩⟩
      change ((s.rt.allocString str).2.info (s.rt.allocString str).1).map AtomInfo.str = _
      rw [infos, Function.update_self]
      rfl

variable {rt : AtomRuntime}

/-- A further reference to a string. -/
theorem dupString_inv {atoms : List Nat} (inv : rt.Inv atoms strs)
    (described : rt.info p = some f) :
    (rt.setRefCount p (rt.refCount p + 1)).Inv atoms (p :: strs) := by
  refine AtomRuntime.Inv.recount inv p _ (Nat.succ_pos _) (fun g described' typed => ?_)
    (fun i slot => ?_) (fun q other => List.count_cons_of_ne (Ne.symm other)) (fun _ _ _ => rfl)
    (fun q inside => ?_) inv.counted.handles
  · rw [List.count_cons_self, inv.counted.plain p g described' typed]
  · have counted := inv.counted.atom i p slot
    rw [List.count_cons_self]
    omega
  · rcases List.mem_cons.mp inside with same | inside
    · rw [same]
      exact ⟨f, described⟩
    · exact inv.counted.strings q inside

theorem key_symbol (table : rt.Table) (slot : rt.atomArray[i]? = some (.atom p))
    (described : rt.info p = some f) (symbol : f.atomType = jsAtomTypeSymbol) :
    rt.key i = some (.symbol p) := by
  rw [key_of_slot (table.untagged slot) slot, described, Option.map_some, keyOf, symbol]
  rfl

theorem registered_slot {codes : List Nat} (named : rt.key i = some (.registered codes)) :
    ∃ p f, rt.atomArray[i]? = some (.atom p) ∧ rt.info p = some f ∧ f.atomType = 2 := by
  unfold key at named
  split at named
  · cases named
  · split at named
    · rename_i p slot
      have ⟨f, described, same⟩ := Option.map_eq_some_iff.mp named
      refine ⟨p, f, slot, described, ?_⟩
      unfold keyOf at same
      split at same
      · cases same
      · split at same
        · assumption
        · cases same
    · cases named

/-- A symbol made after the predefined atoms is not counted as one of them. -/
theorem not_const_of_made {atoms : List Nat} (table : rt.Table) (ready : rt.Initialized)
    (keeps : rt.Keeps rt' atoms strs) (made : rt.Made rt' atoms strs i p f) :
    jsAtomIsConst i = false := by
  refine Bool.eq_false_iff.mpr fun const => ?_
  simp only [jsAtomIsConst, Bool.or_eq_true, decide_eq_true_eq] at const
  rcases const with small | tagged
  · obtain ⟨q, slot⟩ := ready i small
    have kept := keeps.predefined i q small slot
    rw [made.slot, Option.some.injEq, AtomSlot.atom.injEq] at kept
    obtain ⟨g, described, typed⟩ := table.live i q slot
    rw [← kept] at described
    rw [made.unnamed g described] at typed
    simp at typed
  · have untagged := made.inv.table.untagged made.slot
    omega

theorem addSymbol_spec {atoms : List Nat} (inv : rt.Inv atoms strs) (fits : rt.Fits)
    (str : Option Nat) (held : ∀ p, str = some p → p ∈ strs) (h : Nat) (malloc : Malloc) :
    ∃ i rt', rt.addAtom str h 0 jsAtomTypeSymbol malloc = some (i, rt') ∧
      rt.Keeps rt' atoms (consume str strs) ∧
      ((i = jsAtomNull ∧ rt'.Inv atoms (consume str strs) ∧ ¬ MallocSucceeds malloc) ∨
        i ∉ atoms ∧ ∃ p s, rt.contents str = some s ∧
          rt.Made rt' atoms (consume str strs) i p ⟨s, h, jsAtomTypeSymbol⟩) :=
  addAtom_spec inv fits str held (.inl rfl) (fun wrong => by cases wrong) malloc

theorem newAtomInit_step (inv : s.Inv) {chars : List UInt8} {atomType : JSAtomType} {made : Bool}
    (legal : (AtomOp.newAtomInit chars atomType made malloc).Legal s)
    (fits : (AtomOp.newAtomInit chars atomType made malloc).Fits s) :
    s.Steps (.newAtomInit chars atomType made malloc) := by
  have ⟨room, noIndex⟩ := fits
  have symbols : ∀ h ty, (ty = .symbol ∨ ty = .priv) →
      (∀ rt p, AtomRuntime.jsNewAtom rt (some p) ty malloc =
        rt.addAtom (some p) h 0 jsAtomTypeSymbol malloc) →
      s.Steps (.newAtomInit chars ty made malloc) := by
    intro h ty kind run
    have exact_ : ∀ result s', (AtomOp.newAtomInit chars ty made malloc).Exact s result s' ↔
        (∀ a ∈ s.atoms, a ∈ s'.atoms → s'.rt.key a = s.rt.key a) ∧
          ((result = some jsAtomNull ∧ ¬ (made = true ∧ MallocSucceeds malloc)) ∨
            ∃ a p, result = some a ∧ a ∈ s'.atoms ∧ NewSymbolAt s s' a p) := by
      rcases kind with same | same <;> rw [same] <;> exact fun _ _ => Iff.rfl
    unfold Steps
    cases made with
    | false =>
        refine ⟨some jsAtomNull, s, rfl, inv, (exact_ _ _).mpr ⟨fun _ _ _ => rfl, .inl ⟨rfl, fun ok => ?_⟩⟩⟩
        cases ok.1
    | true =>
        have ⟨allocated, keeps, _, infos⟩ := allocString_spec inv (.str8 chars)
        have ⟨i, rt', added, keeps', result⟩ := addSymbol_spec allocated room
          (some (s.rt.allocString (.str8 chars)).1)
          (fun q same => by
            rw [← Option.some.inj same]
            exact List.mem_cons_self) h malloc
        rw [consume, List.erase_cons_head] at keeps' result
        have kept := keeps.trans keeps'
        have applied : s.apply (.newAtomInit chars ty true malloc) =
            ((s.rt.allocString (.str8 chars)).2.jsNewAtom (some (s.rt.allocString (.str8 chars)).1) ty
              malloc).map (s.withAtom s.strs) := rfl
        rw [applied, run, added, Option.map_some]
        rcases result with ⟨zero, inv', reason⟩ | ⟨_, p, content, _, made⟩
        · rw [withAtom_null zero]
          exact ⟨_, _, rfl, inv', (exact_ _ _).mpr ⟨fun a held _ => kept.key a held,
            .inl ⟨rfl, fun ok => reason ok.2⟩⟩⟩
        · rw [withAtom_some made.some_]
          refine ⟨_, _, rfl, made.inv, (exact_ _ _).mpr ⟨fun a held _ => kept.key a held,
            .inr ⟨i, p, rfl, List.mem_cons_self, made.slot,
              key_symbol made.inv.table made.slot made.info rfl, fun g described => ?_⟩⟩⟩
          by_cases fresh : p = s.rt.nextString
          · rw [fresh] at described
            exact inv.fresh_unnamed g described
          · refine made.unnamed g ?_
            rw [infos]
            exact (Function.update_of_ne fresh ..).trans described
  cases atomType with
  | string =>
      have names := withNewString_spec inv room (.str8 chars) made malloc
        fun rt1 p f strs' inv1 fits1 held described content => by
          have names := jsNewAtom_string_spec inv1 fits1 held described
            (by rw [content]; exact noIndex rfl) malloc
          rw [content] at names
          exact names
      have ⟨i, rt', run, names⟩ := names
      have ⟨inv', keys, named⟩ := withAtom_spec names
      have run : s.rt.jsNewAtomInit chars .string made malloc = some (i, rt') := run
      refine ⟨_, _, ?_, inv', keys, named⟩
      rw [apply, run]
      rfl
  | globalSymbol => exact absurd rfl legal
  | symbol => exact symbols 0 .symbol (.inl rfl) fun _ _ => rfl
  | priv => exact symbols 1 .priv (.inr rfl) fun _ _ => rfl

theorem names_step {op : AtomOp} {made : Option (Nat × AtomRuntime)}
    (applied : s.apply op = made.map (s.withAtom strs))
    (names : ∃ i rt', made = some (i, rt') ∧ s.rt.Names rt' s.atoms strs enough i k)
    (exact_ : ∀ i s', (∀ a ∈ s.atoms, a ∈ s'.atoms → s'.rt.key a = s.rt.key a) →
      Named s' (some i) enough k → op.Exact s (some i) s') : s.Steps op := by
  have ⟨i, rt', run, names⟩ := names
  have ⟨inv', keys, named⟩ := withAtom_spec names
  refine ⟨_, _, ?_, inv', exact_ i _ keys named⟩
  rw [applied, run]
  rfl

theorem newAtomStr_step (inv : s.Inv) (legal : p ∈ s.strs) (fits : s.rt.Fits) :
    s.Steps (.newAtomStr p malloc) := by
  have ⟨f, described⟩ := inv.counted.strings p legal
  refine names_step rfl (jsNewAtomStr_spec inv fits legal described malloc) fun i s' keys named =>
    ⟨keys, f.str, ?_, named⟩
  rw [described]
  rfl

theorem newAtomRawString_step (inv : s.Inv) (fits : s.rt.Fits) (bytes : List UInt8) (len : Nat)
    (isWideChar made : Bool) : s.Steps (.newAtomRawString bytes len isWideChar made malloc) := by
  have ⟨i, rt', run, names, same⟩ :=
    jsNewAtomRawString_spec inv fits bytes len isWideChar made malloc
  have ⟨inv', keys, named⟩ := withAtom_spec names
  refine ⟨_, _, ?_, inv', keys, named, fun ok => ?_⟩
  · rw [apply, run]
    rfl
  · have ⟨rt'', byString⟩ := same ok
    exact ⟨i, rt'', rfl, byString⟩

theorem newSymbol_step (inv : s.Inv) {str : Option Nat} {atomType : JSAtomType}
    (legal : (AtomOp.newSymbol str atomType malloc).Legal s) (fits : s.rt.Fits) :
    s.Steps (.newSymbol str atomType malloc) := by
  have ⟨held, ready, notString, registered⟩ := legal
  have applied : s.apply (.newSymbol str atomType malloc) =
      (s.rt.jsNewSymbol str atomType malloc).bind fun made =>
        some (made.1, ⟨made.2, s.atoms, made.1.toList ++ consume str s.strs⟩) := rfl
  have unique : ∀ h ty, (ty = .symbol ∨ ty = .priv) → atomType = ty →
      (∀ rt, AtomRuntime.jsNewAtom rt str ty malloc =
        rt.addAtom str h 0 jsAtomTypeSymbol malloc) →
      s.Steps (.newSymbol str atomType malloc) := by
    intro h ty kind same run
    have exact_ : ∀ result s', (AtomOp.newSymbol str ty malloc).Exact s result s' ↔
        (∀ a ∈ s.atoms, a ∈ s'.atoms → s'.rt.key a = s.rt.key a) ∧
          ((result = none ∧ ¬ MallocSucceeds malloc) ∨
            ∃ a p, result = some p ∧ p ∈ s'.strs ∧ NewSymbolAt s s' a p) := by
      rcases kind with same | same <;> rw [same] <;> exact fun _ _ => Iff.rfl
    have ⟨i, rt', added, keeps, result⟩ := addSymbol_spec inv fits str held h malloc
    unfold Steps
    rw [applied, same, jsNewSymbol, run, added]
    simp only [Option.bind_eq_bind, Option.bind_some]
    rcases result with ⟨zero, inv', reason⟩ | ⟨_, p, content, _, made⟩
    · rw [if_pos zero]
      exact ⟨_, _, rfl, inv', (exact_ _ _).mpr ⟨fun a inside _ => keeps.key a inside,
        .inl ⟨rfl, reason⟩⟩⟩
    · have ⟨o, string, _⟩ := info_eq_some.mp made.info
      have here : rt'.atomAt i = some (p, o) := atomAt_eq_some.mpr ⟨made.slot, string⟩
      have notConst := not_const_of_made inv.table ready keeps made
      have some_ : i ≠ jsAtomNull := made.some_
      rw [if_neg some_, here]
      exact ⟨_, _, rfl, made.inv.toValue made.slot notConst, (exact_ _ _).mpr
        ⟨fun a inside _ => keeps.key a inside, .inr ⟨i, p, rfl, List.mem_cons_self, made.slot,
          key_symbol made.inv.table made.slot made.info rfl, made.unnamed⟩⟩⟩
  cases same : atomType with
  | string => exact absurd same notString
  | symbol =>
      rw [← same]
      exact unique 0 .symbol (.inl rfl) same fun _ => rfl
  | priv =>
      rw [← same]
      exact unique 1 .priv (.inr rfl) same fun _ => rfl
  | globalSymbol =>
      cases given : str with
      | none => exact absurd given (registered same)
      | some p =>
          have ⟨f, described⟩ := inv.counted.strings p (held p given)
          have typed : 2 ∈ [1, 2] := by decide
          have ⟨i, rt', run, keeps, result⟩ := jsNewHashedAtom_spec inv fits (held p given) described
            typed (fun wrong => by cases wrong) (fun _ => ready) malloc
          have run : s.rt.jsNewAtom (some p) .globalSymbol malloc = some (i, rt') := run
          rw [same, given] at applied
          unfold Steps
          rw [applied, jsNewSymbol, run]
          simp only [Option.bind_eq_bind, Option.bind_some]
          rcases result with ⟨zero, inv', reason⟩ | ⟨some_, inv', named⟩
          · rw [if_pos zero]
            exact ⟨_, _, rfl, inv', fun a inside _ => keeps.key a inside, .inl ⟨rfl, reason⟩⟩
          · have named : rt'.key i = some (.registered f.str.codes) := named
            have ⟨q, g, slot, describedQ, typed⟩ := registered_slot named
            have ⟨o, string, _⟩ := info_eq_some.mp describedQ
            have here : rt'.atomAt i = some (q, o) := atomAt_eq_some.mpr ⟨slot, string⟩
            have notConst : jsAtomIsConst i = false := by
              refine Bool.eq_false_iff.mpr fun const => ?_
              have seen : rt'.view i = some g := view_eq_some.mpr ⟨q, slot, describedQ⟩
              exact inv'.counted.registered i g seen const typed
            rw [if_neg some_, here]
            refine ⟨_, _, rfl, inv'.toValue slot notConst, fun a inside _ => keeps.key a inside,
              .inr ⟨f.str, i, q, ?_, rfl, List.mem_cons_self, slot, named⟩⟩
            rw [contents, described]
            rfl

theorem symbolToAtom_step (inv : s.Inv)
    (legal : ∃ i : Nat, i ≠ 0 ∧ s.rt.atomArray[i]? = some (.atom p)) : s.Steps (.symbolToAtom p) := by
  have ⟨i, some_, slot⟩ := legal
  have ⟨rt', dup, inv', keeps, _, arrays⟩ := lepusDupAtom_spec inv (.inr ⟨some_, p, slot⟩)
  have applied : s.apply (.symbolToAtom p) = some (s.withAtom s.strs (i, rt')) := by
    rw [apply, jsGetAtomIndex_spec inv.table slot]
    simp only [Option.bind_eq_bind, Option.bind_some, dup]
  rw [withAtom_some some_] at applied
  refine ⟨_, _, applied, inv', fun a held _ => keeps.key a held, i, rfl, List.mem_cons_self, ?_⟩
  rw [arrays]
  exact slot

theorem findAtom_step (inv : s.Inv) {bytes : List UInt8} (plain : s.rt.Unambiguous bytes) :
    s.Steps (.findAtom bytes) := by
  have applied : s.apply (.findAtom bytes) = (s.rt.jsFindAtom bytes).map (s.withAtom s.strs) := rfl
  rcases jsFindAtom_spec inv plain True with missed | ⟨i, rt', found, some_, names⟩
  · rw [missed, Option.map_some, withAtom_null rfl] at applied
    exact ⟨_, _, applied, inv, fun _ _ _ => rfl, .inl rfl⟩
  · exact names_step applied ⟨i, rt', found, names⟩ fun i s' keys named => ⟨keys, .inr named⟩

theorem toUInt32_tagged {a : Nat} (tagged : jsAtomTagInt ≤ a) (bound : a < 2 ^ 32) :
    jsAtomToUInt32 a = a - jsAtomTagInt := by
  simp only [jsAtomToUInt32, jsAtomTagInt] at tagged ⊢
  omega

theorem atomToValue_step (inv : s.Inv) {a : Nat} (held : a ∈ s.atoms) (made : Bool) :
    s.Steps (.atomToValue a made) := by
  rcases inv.counted.handles a held with ⟨tagged, bound⟩ | ⟨some_, p, slot⟩
  · have ⟨inv', keys, value⟩ :=
      newValue_spec inv (.str8 (unsignedChars (jsAtomToUInt32 a))) made
    have applied : s.apply (.atomToValue a made) =
        some ((s.newValue (.str8 (unsignedChars (jsAtomToUInt32 a))) made).1,
          (s.newValue (.str8 (unsignedChars (jsAtomToUInt32 a))) made).2) := if_pos tagged
    refine ⟨_, _, applied, inv', fun b inside _ => keys b inside, fun ok => ?_⟩
    have ⟨p, result, inside, content⟩ := value ok
    refine ⟨p, result, inside, fun codes named => ?_⟩
    have ⟨f, described, same⟩ := Option.map_eq_some_iff.mp content
    rw [key_tagged tagged, Option.some.injEq, PropertyKey.string.injEq] at named
    rw [described, Option.map_some, same, unsignedChars_codes, toUInt32_tagged tagged bound, named]
  · have untagged := inv.table.untagged slot
    have ⟨f, described, typed⟩ := inv.table.live a p slot
    have ⟨o, string, _⟩ := info_eq_some.mp described
    have here : s.rt.atomAt a = some (p, o) := atomAt_eq_some.mpr ⟨slot, string⟩
    have applied : s.apply (.atomToValue a made) =
        some (some p, ⟨s.rt.setRefCount p (s.rt.refCount p + 1), s.atoms, p :: s.strs⟩) := by
      have other : ¬ jsAtomIsTaggedInt a := Nat.not_le.mpr untagged
      rw [apply, if_neg other, here]
      rfl
    refine ⟨_, _, applied, dupString_inv inv described, fun _ _ _ => rfl, fun _ =>
      ⟨p, rfl, List.mem_cons_self, fun codes named => ?_⟩⟩
    change (s.rt.info p).map _ = _
    rw [key_of_slot untagged slot, described, Option.map_some, Option.some.injEq] at named
    rw [described, Option.map_some]
    unfold keyOf at named
    split at named
    · rw [PropertyKey.string.inj named]
    · split at named <;> cases named

theorem resizeHash_inv (inv : s.Inv) (n : Nat) (ok : Bool) :
    ∃ rt', s.rt.jsResizeAtomHash (2 ^ n) ok = some rt' ∧ rt'.Inv s.atoms s.strs ∧
      rt'.key = s.rt.key := by
  have ⟨rt', run, table, infos, counts, arrays, _⟩ := jsResizeAtomHash_spec inv.table n ok
  have views : rt'.view = s.rt.view := by
    unfold view
    rw [infos, arrays]
  have counted := inv.counted
  refine ⟨rt', run, ⟨table, ?_⟩, ?_⟩
  · constructor
    · rw [infos, counts]
      exact counted.plain
    · rw [arrays, counts]
      exact counted.atom
    · rw [infos, counts]
      exact counted.positive
    · rw [infos]
      exact counted.strings
    · unfold Valid
      rw [arrays]
      exact counted.handles
    · rw [views]
      exact counted.registered
  · unfold key
    rw [infos, arrays]

/-- Every operation the engine may make keeps the invariant, and does what it says. -/
theorem step_spec (inv : s.Inv) (op : AtomOp) (legal : op.Legal s) (fits : op.Fits s) :
    s.Steps op := by
  cases op with
  | newString str made =>
      have ⟨inv', keys, value⟩ := newValue_spec inv str made
      exact ⟨_, _, rfl, inv', fun a held _ => keys a held, value⟩
  | dupString p =>
      have ⟨f, described⟩ := inv.counted.strings p legal
      exact ⟨_, _, rfl, dupString_inv inv described, fun _ _ _ => rfl, trivial⟩
  | freeString p =>
      have ⟨rt', run, inv', keeps, _⟩ := jsFreeString_spec inv legal
      refine ⟨none, ⟨rt', s.atoms, s.strs.erase p⟩, ?_, inv', fun a held _ => keeps.key a held, trivial⟩
      rw [apply, run]
      rfl
  | newAtomInit chars atomType made malloc => exact newAtomInit_step inv legal fits
  | newAtomStr p malloc => exact newAtomStr_step inv legal fits
  | newAtomRawString bytes len isWideChar made malloc =>
      exact newAtomRawString_step inv fits bytes len isWideChar made
  | newAtomLen bytes made malloc =>
      exact names_step rfl (lepusNewAtomLen_spec inv fits.1 fits.2 made malloc)
        fun i s' keys named => ⟨keys, named⟩
  | newAtomUInt32 n made malloc =>
      exact names_step rfl (lepusNewAtomUInt32_spec inv fits n made malloc)
        fun i s' keys named => ⟨keys, named⟩
  | newAtomInt64 n made malloc =>
      exact names_step rfl (jsNewAtomInt64_spec inv fits n made malloc)
        fun i s' keys named => ⟨keys, named⟩
  | newSymbol str atomType malloc => exact newSymbol_step inv legal fits
  | symbolToAtom p => exact symbolToAtom_step inv legal.2
  | findAtom bytes => exact findAtom_step inv fits
  | atomToValue a made => exact atomToValue_step inv legal made
  | dupAtom a =>
      have ⟨rt', run, inv', keeps, _⟩ := lepusDupAtom_spec inv (inv.counted.handles a legal)
      refine ⟨some a, ⟨rt', a :: s.atoms, s.strs⟩, ?_, inv', fun a held _ => keeps.key a held, trivial⟩
      rw [apply, run]
      rfl
  | freeAtom a =>
      have ⟨rt', run, inv', keeps⟩ := lepusFreeAtom_spec inv legal
      refine ⟨none, ⟨rt', s.atoms.erase a, s.strs⟩, ?_, inv', fun a _ held => keeps.key a held, trivial⟩
      rw [apply, run]
      rfl
  | resizeHash n malloc =>
      have ⟨rt', run, inv', keys⟩ := resizeHash_inv inv n malloc
      refine ⟨none, ⟨rt', s.atoms, s.strs⟩, ?_, inv', fun a _ _ => ?_, trivial⟩
      · rw [apply, run]
        rfl
      · exact congrFun keys a

/-! Runs. -/

open OperationRun

def mallocOk : Malloc := ⟨true, true, true, true⟩

end AtomSystem

end PrimJs
