import PrimJs.Runtime.AtomStoreNew

/-! Every way to make or find an atom leads to the atom of the key. -/

namespace PrimJs.AtomRuntime

variable {rt rt' : AtomRuntime} {atoms strs : List Nat} {i p ty n : Nat} {f : AtomInfo}
  {malloc : Malloc} {k : PropertyKey} {enough : Prop}

/-- An atom is returned that stands for the key; `JS_ATOM_NULL` only where memory lacks. -/
structure Names (rt rt' : AtomRuntime) (atoms strs : List Nat) (enough : Prop) (i : Nat)
    (k : PropertyKey) : Prop where
  keeps : rt.Keeps rt' atoms strs
  result : (i = jsAtomNull ∧ rt'.Inv atoms strs ∧ ¬ enough) ∨
    (i ≠ jsAtomNull ∧ rt'.Inv (i :: atoms) strs ∧ rt'.key i = some k)

def keyOfType (ty : Nat) (codes : List Nat) : PropertyKey :=
  if ty = 1 then .string codes else .registered codes

theorem keyOf_hashed (typed : f.atomType ∈ [1, 2]) :
    keyOf p f = keyOfType f.atomType f.str.codes := by
  simp only [List.mem_cons, List.not_mem_nil, or_false] at typed
  unfold keyOf keyOfType
  split
  · rfl
  · rename_i other
    rw [if_pos (typed.resolve_left other)]

theorem key_of_view (table : rt.Table) (seen : rt.view i = some f) (typed : f.atomType ∈ [1, 2]) :
    rt.key i = some (keyOfType f.atomType f.str.codes) := by
  have ⟨p, slot, described⟩ := view_eq_some.mp seen
  rw [key_of_slot (table.untagged slot) slot, described, Option.map_some, keyOf_hashed typed]

/-! Moving a reference between a handle and a value. -/

theorem setRefCount_self (rt : AtomRuntime) (p : Nat) : rt.setRefCount p (rt.refCount p) = rt := by
  rw [setRefCount, Function.update_eq_self]

theorem Inv.toHandle (inv : rt.Inv atoms strs) (slot : rt.atomArray[i]? = some (.atom p))
    (some_ : i ≠ 0) (held : p ∈ strs) (notConst : jsAtomIsConst i = false) :
    rt.Inv (i :: atoms) (strs.erase p) := by
  have fewer := count_erase_held held
  have counted := inv.counted.atom i p slot
  have ⟨f, described, _⟩ := inv.table.live i p slot
  rw [← rt.setRefCount_self p]
  refine inv.recountAtom slot (inv.counted.positive p f described) ?_
    (fun q other => List.count_erase_of_ne other) (fun j other => List.count_cons_of_ne (Ne.symm other))
    (fun q inside => inv.counted.strings q (List.mem_of_mem_erase inside))
    (List.forall_mem_cons.mpr ⟨.inr ⟨some_, p, slot⟩, inv.counted.handles⟩)
  rw [notConst, if_neg Bool.false_ne_true] at counted ⊢
  rw [List.count_cons_self]
  omega

theorem Inv.toValue (inv : rt.Inv (i :: atoms) strs) (slot : rt.atomArray[i]? = some (.atom p))
    (notConst : jsAtomIsConst i = false) : rt.Inv atoms (p :: strs) := by
  have counted := inv.counted.atom i p slot
  have ⟨f, described, _⟩ := inv.table.live i p slot
  rw [← rt.setRefCount_self p]
  refine inv.recountAtom slot (inv.counted.positive p f described) ?_
    (fun q other => List.count_cons_of_ne (Ne.symm other))
    (fun j other => (List.count_cons_of_ne (Ne.symm other)).symm)
    (List.forall_mem_cons.mpr ⟨⟨f, described⟩, inv.counted.strings⟩)
    fun a handle => inv.counted.handles a (List.mem_cons_of_mem _ handle)
  rw [notConst, if_neg Bool.false_ne_true, List.count_cons_self] at counted
  rw [notConst, if_neg Bool.false_ne_true, List.count_cons_self]
  omega

theorem Inv.tagged {a : Nat} (inv : rt.Inv atoms strs) (tagged : jsAtomTagInt ≤ a)
    (bound : a < 2 ^ 32) : rt.Inv (a :: atoms) strs := by
  refine ⟨inv.table, { inv.counted with
    atom := fun i p slot => ?_
    handles := fun b held => ?_ }⟩
  · have untagged := inv.table.untagged slot
    rw [List.count_cons_of_ne (by omega)]
    exact inv.counted.atom i p slot
  · exact List.forall_mem_cons.mpr ⟨.inl ⟨tagged, bound⟩, inv.counted.handles⟩ b held

theorem fromUInt32_tagged (small : n ≤ jsAtomMaxInt) :
    jsAtomTagInt ≤ jsAtomFromUInt32 n ∧ jsAtomFromUInt32 n < 2 ^ 32 ∧
      jsAtomFromUInt32 n - jsAtomTagInt = n := by
  simp only [jsAtomMaxInt, jsAtomFromUInt32, jsAtomTagInt] at small ⊢
  omega

theorem names_tagged (inv : rt.Inv atoms strs) (enough : Prop) (small : n ≤ jsAtomMaxInt) :
    rt.Names rt atoms strs enough (jsAtomFromUInt32 n) (.string (decimal n)) := by
  have ⟨tagged, bound, value⟩ := fromUInt32_tagged small
  refine ⟨.refl rt _ _, .inr ⟨fun zero => ?_, inv.tagged tagged bound, ?_⟩⟩
  · rw [zero] at tagged
    exact absurd tagged (by decide)
  · rw [key_tagged tagged, value]

/-! `__JS_NewAtom`. -/

theorem jsNewHashedAtom_spec (inv : rt.Inv atoms strs) (fits : rt.Fits) (held : p ∈ strs)
    (described : rt.info p = some f) (typed : ty ∈ [1, 2])
    (numeric : ty = 1 → ∀ n ≤ jsAtomMaxInt, isNumString f.str.codes ≠ some n)
    (ready : ty = 2 → rt.Initialized) (malloc : Malloc) :
    ∃ i rt', rt.jsNewHashedAtom p ty malloc = some (i, rt') ∧
      rt.Names rt' atoms (strs.erase p) (MallocSucceeds malloc) i (keyOfType ty f.str.codes) := by
  obtain ⟨o, string, same⟩ := info_eq_some.mp described
  have content : o.str = f.str := by rw [← same]; rfl
  have sameType : o.atomType = f.atomType := by rw [← same]; rfl
  have notSymbol : ty ≠ jsAtomTypeSymbol := by
    intro wrong
    rw [wrong] at typed
    exact absurd typed (by decide)
  rw [jsNewHashedAtom, string]
  simp only [Option.bind_eq_bind, Option.bind_some]
  by_cases already : o.atomType = ty
  · have notPlain : f.atomType ≠ 0 := by
      rw [← sameType, already]
      intro zero
      rw [zero] at typed
      exact absurd typed (by decide)
    obtain ⟨i, slot⟩ := inv.table.owned p f described notPlain
    have seen : rt.view i = some f := view_eq_some.mpr ⟨p, slot, described⟩
    have typedF : f.atomType = ty := by rw [← sameType, already]
    have named : rt.key i = some (keyOfType ty f.str.codes) := by
      rw [← typedF]
      exact key_of_view inv.table seen (by rw [typedF]; exact typed)
    have some_ : i ≠ 0 := by
      intro zero
      rw [zero] at slot seen
      obtain ⟨g, seen', symbol⟩ := inv.table.nullEntry _ slot
      rw [seen, Option.some.injEq] at seen'
      rw [← seen', typedF] at symbol
      exact notSymbol symbol
    rw [if_pos already, jsGetAtomIndex_spec inv.table slot, Option.bind_some]
    by_cases const : jsAtomIsConst i = true
    · have counted := inv.counted.atom i p slot
      have fewer := count_erase_held held
      rw [if_pos const] at counted ⊢
      have recounted : (rt.setRefCount p (rt.refCount p - 1)).Inv (i :: atoms) (strs.erase p) := by
        refine inv.recountAtom slot (by omega) ?_ (fun q other => List.count_erase_of_ne other)
          (fun j other => List.count_cons_of_ne (Ne.symm other))
          (fun q inside => inv.counted.strings q (List.mem_of_mem_erase inside))
          (List.forall_mem_cons.mpr ⟨.inr ⟨some_, p, slot⟩, inv.counted.handles⟩)
        rw [if_pos const]
        omega
      exact ⟨i, _, rfl, setRefCount_keeps p _, .inr ⟨some_, recounted, named⟩⟩
    · rw [if_neg const]
      exact ⟨i, rt, rfl, .refl rt _ _, .inr ⟨some_,
        inv.toHandle slot some_ held (Bool.eq_false_iff.mpr const), named⟩⟩
  · rw [if_neg already]
    obtain ⟨i, search, result⟩ := findInBucket_spec inv.table
      (fun a => a.hash = jsAtomHash o.str ty && a.atomType = ty && a.str.codes = o.str.codes)
      o.str.codes ty notSymbol
    have search : rt.findInBucket (jsAtomHash o.str ty) _ = some i := search
    rw [search, Option.bind_some]
    rcases result with ⟨zero, misses⟩ | ⟨some_, q, a, here, hit⟩
    · rw [if_pos zero, content]
      have absent : ∀ j g, rt.view j = some g → g.atomType = ty → g.str.codes ≠ f.str.codes := by
        intro j g seen sameType' sameCodes
        obtain ⟨q, a, here, describedA⟩ := atomAt_of_view seen
        have typeA : a.atomType = ty := by
          rw [← sameType', ← describedA]
          rfl
        have codesA : a.str.codes = o.str.codes := by
          rw [content, ← sameCodes, ← describedA]
          rfl
        have miss := misses j q a here typeA codesA
        have hashA := inv.table.hashed j g seen (by rw [sameType']; exact notSymbol)
        have hashA : a.hash = jsAtomHash o.str ty := by
          rw [← describedA] at hashA
          have hashA : a.hash = jsAtomHash a.str a.atomType := hashA
          rw [hashA, typeA]
          unfold jsAtomHash
          rw [codesA]
        rw [hashA, typeA, codesA] at miss
        simp at miss
      obtain ⟨i, rt', run, keeps, result⟩ := addAtom_spec inv fits (some p)
        (fun q same => by
          rw [← Option.some.inj same]
          exact held)
        (.inr ⟨typed, f.str, by rw [contents, described]; rfl, rfl, rfl, absent, numeric⟩) ready malloc
      refine ⟨i, rt', run, keeps, ?_⟩
      rcases result with failed | ⟨_, q, s, known, made⟩
      · exact .inl failed
      · have same : s = f.str := by
          rw [contents, described, Option.map_some, Option.some.injEq] at known
          exact known.symm
        refine .inr ⟨made.some_, made.inv, ?_⟩
        rw [key_of_view made.inv.table (view_eq_some.mpr ⟨q, made.slot, made.info⟩) typed, same]
    · rw [if_neg some_]
      simp only [Bool.and_eq_true, decide_eq_true_eq] at hit
      have seen := view_of_atomAt here
      obtain ⟨slot, _⟩ := atomAt_eq_some.mp here
      obtain ⟨rt1, dup, inv1, keeps1, infos1, arrays1⟩ := lepusDupAtom_spec inv (.inr ⟨some_, q, slot⟩)
      obtain ⟨rt', free, inv', keeps', _⟩ := jsFreeString_spec inv1 held
      rw [dup, Option.bind_some, free]
      refine ⟨i, rt', rfl, (keeps1.mono (fun _ inside => inside) fun x inside =>
        List.mem_of_mem_erase inside).trans (keeps'.mono (fun x inside => List.mem_cons_of_mem _ inside)
          fun _ inside => inside), .inr ⟨some_, inv', ?_⟩⟩
      have key1 : rt1.key i = rt.key i := by
        unfold key
        rw [infos1, arrays1]
      have typedA : a.info.atomType = ty := hit.1.2
      have codesA : a.info.str.codes = f.str.codes := by
        rw [← content]
        exact hit.2
      rw [keeps'.key i List.mem_cons_self, key1, key_of_view inv.table seen (by rw [typedA]; exact typed),
        typedA, codesA]

/-! The other ways to make an atom of characters. -/

section

variable (inv : rt.Inv atoms strs) (fits : rt.Fits)

include inv fits

theorem jsNewAtom_string_spec (held : p ∈ strs) (described : rt.info p = some f)
    (numeric : ∀ n ≤ jsAtomMaxInt, isNumString f.str.codes ≠ some n) (malloc : Malloc) :
    ∃ i rt', rt.jsNewAtom (some p) .string malloc = some (i, rt') ∧
      rt.Names rt' atoms (strs.erase p) (MallocSucceeds malloc) i (.string f.str.codes) :=
  jsNewHashedAtom_spec inv fits held described (by decide) (fun _ => numeric)
    (fun wrong => by cases wrong) malloc

theorem jsNewAtomStr_spec (held : p ∈ strs) (described : rt.info p = some f) (malloc : Malloc) :
    ∃ i rt', rt.jsNewAtomStr p malloc = some (i, rt') ∧
      rt.Names rt' atoms (strs.erase p) (MallocSucceeds malloc) i (.string f.str.codes) := by
  have ⟨o, string, same⟩ := info_eq_some.mp described
  have content : o.str = f.str := by rw [← same]; rfl
  rw [jsNewAtomStr, string]
  simp only [Option.bind_eq_bind, Option.bind_some, content]
  cases read : isNumString f.str.codes with
  | none => exact jsNewAtom_string_spec inv fits held described (fun n _ => by rw [read]; simp) malloc
  | some n =>
      dsimp only
      by_cases small : n ≤ jsAtomMaxInt
      · have ⟨rt', run, inv', keeps, _⟩ := jsFreeString_spec inv held
        have ⟨_, result⟩ := names_tagged inv' (MallocSucceeds malloc) small
        rw [if_pos small, run, isNumString_decimal read]
        exact ⟨_, rt', rfl, keeps, result⟩
      · rw [if_neg small]
        refine jsNewAtom_string_spec inv fits held described (fun m bound => ?_) malloc
        rw [read, ne_eq, Option.some.injEq]
        omega

theorem withNewString_spec (str : JSString) (made : Bool) (malloc : Malloc)
    {make : AtomRuntime → Nat → Option (Nat × AtomRuntime)}
    (makes : ∀ rt1 p f strs', rt1.Inv atoms strs' → rt1.Fits → p ∈ strs' → rt1.info p = some f →
      f.str = str → ∃ i rt', make rt1 p = some (i, rt') ∧
        rt1.Names rt' atoms (strs'.erase p) (MallocSucceeds malloc) i k) :
    ∃ i rt', rt.withNewString str made make = some (i, rt') ∧
      rt.Names rt' atoms strs (made = true ∧ MallocSucceeds malloc) i k := by
  unfold withNewString
  cases made with
  | false => exact ⟨_, rt, rfl, .refl rt _ _, .inl ⟨rfl, inv, fun ok => by cases ok.1⟩⟩
  | true =>
      have ⟨allocated, keeps, _, infos⟩ := allocString_spec inv str
      have ⟨i, rt', run, keeps', result⟩ := makes (rt.allocString str).2 (rt.allocString str).1
        ⟨str, 0, 0⟩ _ allocated fits List.mem_cons_self (by rw [infos, Function.update_self]) rfl
      rw [List.erase_cons_head] at keeps' result
      refine ⟨i, rt', run, keeps.trans keeps', result.imp_left fun ⟨zero, inv', reason⟩ =>
        ⟨zero, inv', fun ok => reason ok.2⟩⟩

theorem internNew_spec (str : JSString) (made : Bool) (malloc : Malloc) :
    ∃ i rt', rt.withNewString str made (fun rt p => rt.jsNewAtomStr p malloc) = some (i, rt') ∧
      rt.Names rt' atoms strs (made = true ∧ MallocSucceeds malloc) i (.string str.codes) :=
  withNewString_spec inv fits str made malloc
    fun rt1 p f strs' inv1 fits1 held described content => by
      have names := jsNewAtomStr_spec inv1 fits1 held described malloc
      rw [content] at names
      exact names

end

/-- A search by characters that found an atom, which is then held once more. -/
theorem found_spec (inv : rt.Inv atoms strs) (enough : Prop) (seen : rt.view i = some f)
    (typed : f.atomType = 1) (some_ : i ≠ 0) : ∃ rt', rt.lepusDupAtom i = some rt' ∧
      rt.Names rt' atoms strs enough i (.string f.str.codes) := by
  have ⟨q, slot, _⟩ := view_eq_some.mp seen
  have ⟨rt', dup, inv', keeps, infos, arrays⟩ := lepusDupAtom_spec inv (.inr ⟨some_, q, slot⟩)
  refine ⟨rt', dup, keeps, .inr ⟨some_, inv', ?_⟩⟩
  have named := key_of_view inv.table seen (by rw [typed]; decide)
  rw [typed] at named
  unfold key
  rw [infos, arrays]
  exact named

/-- No atom has these bytes as characters, unless they are ASCII. -/
def Unambiguous (rt : AtomRuntime) (bytes : List UInt8) : Prop :=
  (∀ b ∈ bytes, b < 128) ∨ ∀ i f, rt.view i = some f → f.atomType = 1 → f.str ≠ .str8 bytes

variable {bytes : List UInt8}

theorem decodeLoop_ascii {fuel : Nat} (ascii : ∀ b ∈ bytes, b < 128)
    (enough : bytes.length ≤ fuel) : decodeLoop fuel bytes = bytes.map UInt8.toNat := by
  induction bytes generalizing fuel with
  | nil => cases fuel <;> rfl
  | cons b bytes ih =>
      cases fuel with
      | zero => simp at enough
      | succ fuel =>
          rw [decodeLoop, if_pos (ascii b List.mem_cons_self), List.map_cons,
            ih (fun c inside => ascii c (List.mem_cons_of_mem _ inside)) (Nat.le_of_succ_le_succ enough)]

theorem ofNat_toNat_codes {codes : List Nat} (small : ∀ c ∈ codes, c < 256) :
    (codes.map UInt8.ofNat).map UInt8.toNat = codes := by
  rw [List.map_map]
  conv_rhs => rw [← List.map_id codes]
  refine List.map_congr_left fun c inside => ?_
  rw [Function.comp_apply, UInt8.toNat_ofNat', id_eq]
  exact Nat.mod_eq_of_lt (small c inside)

theorem lepusNewStringLen_ascii (ascii : ∀ b ∈ bytes, b < 128) :
    (lepusNewStringLen bytes).codes = bytes.map UInt8.toNat := by
  have small : ∀ c ∈ bytes.map UInt8.toNat, c < 256 := by
    intro c inside
    have ⟨b, _, same⟩ := List.mem_map.mp inside
    rw [← same]
    exact b.toNat_lt
  unfold lepusNewStringLen
  rw [decodeLoop_ascii ascii (Nat.le_refl _)]
  dsimp only
  rw [if_pos (List.all_eq_true.mpr fun c inside => decide_eq_true (small c inside))]
  exact ofNat_toNat_codes small

theorem jsFindAtom_spec (inv : rt.Inv atoms strs) (plain : rt.Unambiguous bytes) (enough : Prop) :
    rt.jsFindAtom bytes = some (jsAtomNull, rt) ∨
      ∃ i rt', rt.jsFindAtom bytes = some (i, rt') ∧ i ≠ jsAtomNull ∧
        rt.Names rt' atoms strs enough i (.string (lepusNewStringLen bytes).codes) := by
  have ⟨i, search, result⟩ := findInBucket_spec inv.table
    (fun a => a.hash = hashString (bytes.map UInt8.toNat) JSAtomType.string.number % 2 ^ 30 &&
      a.atomType = JSAtomType.string.number && a.str = .str8 bytes)
    (bytes.map UInt8.toNat) JSAtomType.string.number (by decide)
  rw [jsFindAtom, search]
  simp only [Option.bind_eq_bind, Option.bind_some]
  rcases result with ⟨zero, _⟩ | ⟨some_, q, a, here, hit⟩
  · rw [if_pos zero]
    exact .inl rfl
  · rw [if_neg some_]
    simp only [Bool.and_eq_true, decide_eq_true_eq] at hit
    have seen := view_of_atomAt here
    have ascii : ∀ b ∈ bytes, b < 128 := plain.resolve_right fun none =>
      none i _ seen hit.1.2 hit.2
    have codesA : a.info.str.codes = (lepusNewStringLen bytes).codes := by
      rw [lepusNewStringLen_ascii ascii]
      exact congrArg JSString.codes hit.2
    have ⟨rt', dup, names⟩ := found_spec inv enough seen hit.1.2 some_
    rw [codesA] at names
    rw [dup]
    exact .inr ⟨i, rt', rfl, some_, names⟩

theorem lepusNewAtomLen_spec (inv : rt.Inv atoms strs) (fits : rt.Fits)
    (plain : startsNumeric (bytes.map UInt8.toNat) = true ∨ rt.Unambiguous bytes) (made : Bool)
    (malloc : Malloc) :
    ∃ i rt', rt.lepusNewAtomLen bytes made malloc = some (i, rt') ∧
      rt.Names rt' atoms strs (made = true ∧ MallocSucceeds malloc) i
        (.string (lepusNewStringLen bytes).codes) := by
  have byString := internNew_spec inv fits (lepusNewStringLen bytes) made malloc
  unfold lepusNewAtomLen
  by_cases digits : startsNumeric (bytes.map UInt8.toNat) = true
  · rw [if_pos digits]
    exact byString
  · rw [if_neg digits]
    rcases jsFindAtom_spec inv (plain.resolve_left digits) (made = true ∧ MallocSucceeds malloc) with
      missed | ⟨i, rt', found, some_, names⟩
    · rw [missed]
      exact byString
    · rw [found]
      refine ⟨i, rt', ?_, names⟩
      simp only [Option.bind_eq_bind, Option.bind_some]
      rw [if_pos some_]

theorem decimal_digits (c : Nat) : ∀ n, c ∈ decimal n → 48 ≤ c ∧ c < 58 := by
  intro n
  induction n using Nat.strongRecOn with
  | ind n ih =>
      intro inside
      by_cases small : n < 10
      · rw [decimal_small small, List.mem_singleton] at inside
        omega
      · rw [decimal_step (by omega), List.mem_append, List.mem_singleton] at inside
        rcases inside with front | last
        · exact ih (n / 10) (by omega) front
        · omega

theorem unsignedChars_codes (n : Nat) : (JSString.str8 (unsignedChars n)).codes = decimal n :=
  ofNat_toNat_codes fun c inside => by
    have bounds := decimal_digits c n inside
    omega

def signedCodes (n : Int) : List Nat :=
  if n < 0 then 45 :: decimal n.natAbs else decimal n.toNat

theorem signedChars_codes (n : Int) : (JSString.str8 (signedChars n)).codes = signedCodes n := by
  unfold signedChars signedCodes
  split
  · change 45 :: (JSString.str8 (unsignedChars n.natAbs)).codes = _
    rw [unsignedChars_codes]
  · exact unsignedChars_codes n.toNat

theorem decimal_not_index {m : Nat} (large : jsAtomMaxInt < m) :
    ∀ n ≤ jsAtomMaxInt, isNumString (decimal m) ≠ some n := by
  intro n small read
  have same := decimal_inj (isNumString_decimal read)
  omega

theorem signedCodes_not_index {m : Int} (outside : ¬ (0 ≤ m ∧ m ≤ jsAtomMaxInt)) :
    ∀ n ≤ jsAtomMaxInt, isNumString (signedCodes m) ≠ some n := by
  intro n small read
  unfold signedCodes at read
  split at read
  · have same := isNumString_decimal read
    have digit := decimal_digits 45 n (by rw [← same]; exact List.mem_cons_self)
    omega
  · exact decimal_not_index (by omega) n small read

theorem lepusNewAtomUInt32_spec (inv : rt.Inv atoms strs) (fits : rt.Fits) (n : Nat) (made : Bool)
    (malloc : Malloc) :
    ∃ i rt', rt.lepusNewAtomUInt32 n made malloc = some (i, rt') ∧
      rt.Names rt' atoms strs (made = true ∧ MallocSucceeds malloc) i (.string (decimal n)) := by
  unfold lepusNewAtomUInt32
  by_cases small : n ≤ jsAtomMaxInt
  · rw [if_pos small]
    exact ⟨_, rt, rfl, names_tagged inv _ small⟩
  · rw [if_neg small]
    refine withNewString_spec inv fits _ made malloc fun rt1 p f strs' inv1 fits1 held described content => ?_
    have codes : f.str.codes = decimal n := by rw [content, unsignedChars_codes]
    have names := jsNewAtom_string_spec inv1 fits1 held described
      (by rw [codes]; exact decimal_not_index (Nat.lt_of_not_le small)) malloc
    rw [codes] at names
    exact names

theorem jsNewAtomInt64_spec (inv : rt.Inv atoms strs) (fits : rt.Fits) (n : Int) (made : Bool)
    (malloc : Malloc) :
    ∃ i rt', rt.jsNewAtomInt64 n made malloc = some (i, rt') ∧
      rt.Names rt' atoms strs (made = true ∧ MallocSucceeds malloc) i (.string (signedCodes n)) := by
  unfold jsNewAtomInt64
  by_cases small : 0 ≤ n ∧ n ≤ jsAtomMaxInt
  · have codes : signedCodes n = decimal n.toNat := by
      rw [signedCodes, if_neg (by omega)]
    rw [if_pos small, codes]
    exact ⟨_, rt, rfl, names_tagged inv _ (by omega)⟩
  · rw [if_neg small]
    refine withNewString_spec inv fits _ made malloc fun rt1 p f strs' inv1 fits1 held described content => ?_
    have codes : f.str.codes = signedCodes n := by rw [content, signedChars_codes]
    have names := jsNewAtom_string_spec inv1 fits1 held described
      (by rw [codes]; exact signedCodes_not_index small) malloc
    rw [codes] at names
    exact names

/-! The raw-string path. -/

theorem rawCodes_length (bytes : List UInt8) (len : Nat) (isWideChar : Bool) :
    (rawCodes bytes len isWideChar).length = len := by
  rw [rawCodes, List.length_map, List.length_range]

theorem rawString_codes (bytes : List UInt8) (len : Nat) (isWideChar : Bool) :
    (rawString bytes len isWideChar).codes = rawCodes bytes len isWideChar := by
  unfold rawString
  cases isWideChar with
  | false =>
      refine ofNat_toNat_codes fun c inside => ?_
      have ⟨i, _, same⟩ := List.mem_map.mp inside
      rw [← same]
      exact UInt8.toNat_lt _
  | true =>
      change ((rawCodes bytes len true).map UInt16.ofNat).map UInt16.toNat = _
      rw [List.map_map]
      conv_rhs => rw [← List.map_id (rawCodes bytes len true)]
      refine List.map_congr_left fun c inside => ?_
      have ⟨i, _, same⟩ := List.mem_map.mp inside
      rw [Function.comp_apply, UInt16.toNat_ofNat', id_eq]
      refine Nat.mod_eq_of_lt ?_
      rw [← same]
      have low := UInt8.toNat_lt bytes[2 * i]!
      have high := UInt8.toNat_lt bytes[2 * i + 1]!
      simp only [if_true]
      omega

theorem codes_inj {a b : JSString} (width : a.isWideChar = b.isWideChar) (same : a.codes = b.codes) :
    a = b := by
  cases a with
  | str8 chars =>
      cases b with
      | str8 chars' =>
          rw [List.map_injective_iff.mpr (fun _ _ => UInt8.toNat_inj.mp) same]
      | str16 chars' => cases width
  | str16 chars =>
      cases b with
      | str8 chars' => cases width
      | str16 chars' =>
          rw [List.map_injective_iff.mpr (fun _ _ => UInt16.toNat_inj.mp) same]

theorem rawString_isWideChar (bytes : List UInt8) (len : Nat) (isWideChar : Bool) :
    (rawString bytes len isWideChar).isWideChar = isWideChar := by
  cases isWideChar <;> rfl

/-- Raw and made strings are compared alike. -/
theorem jsStringEqualsRaw_iff (atom : JSString) (bytes : List UInt8) (len : Nat) (isWideChar : Bool) :
    (atom.len = len && jsStringEqualsRaw atom bytes len isWideChar) =
      decide (atom.codes = rawCodes bytes len isWideChar) := by
  have raw := rawString_codes bytes len isWideChar
  have equal : jsStringEqualsRaw atom bytes len isWideChar =
      decide (atom.codes = rawCodes bytes len isWideChar) := by
    unfold jsStringEqualsRaw
    split
    · rename_i width
      refine decide_eq_decide.mpr ⟨fun same => ?_, fun same => ?_⟩
      · rw [same, raw]
      · refine codes_inj ?_ (same.trans raw.symm)
        rw [width, rawString_isWideChar]
    · rfl
  rw [equal]
  by_cases same : atom.codes = rawCodes bytes len isWideChar
  · have length : atom.len = len := by rw [JSString.len, same, rawCodes_length]
    simp [same, length]
  · simp [same]

theorem isNumString_of_not_startsNumeric {codes : List Nat} (plain : startsNumeric codes = false) :
    isNumString codes = none := by
  cases codes with
  | nil => rfl
  | cons c rest =>
      have plain : isNum c = false := plain
      rw [isNumString]
      split
      · rfl
      · rw [plain, Bool.not_false, if_pos rfl]

theorem findLoop_congr (same : rt'.atomAt = rt.atomAt) (found : JSStringObject → Bool) (fuel : Nat) :
    ∀ i, rt'.findLoop found fuel i = rt.findLoop found fuel i := by
  induction fuel with
  | zero =>
      intro i
      rw [findLoop.eq_def, findLoop.eq_def]
  | succ fuel ih =>
      intro i
      rw [findLoop.eq_def, findLoop.eq_def rt, same]
      simp only [ih]

theorem Inv.allocString_atomAt (inv : rt.Inv atoms strs) (str : JSString) :
    (rt.allocString str).2.atomAt = rt.atomAt := by
  funext i
  refine Option.ext fun x => ?_
  rw [atomAt_eq_some, atomAt_eq_some]
  refine and_congr_right fun slot => ?_
  change Function.update rt.strings rt.nextString _ x.1 = _ ↔ _
  rw [Function.update_of_ne]
  intro same
  have ⟨f, described, _⟩ := inv.table.live i _ slot
  rw [same] at described
  exact Option.some_ne_none _ (described.symm.trans (inv.table.fresh _ (Nat.le_refl _)))

/-- The search `__JS_NewAtom` and `__JS_FindRawAtom` make for characters. -/
def findCodes (rt : AtomRuntime) (codes : List Nat) : Option Nat :=
  rt.findInBucket (hashString codes 1 % 2 ^ 30) fun a =>
    a.hash = hashString codes 1 % 2 ^ 30 && a.atomType = 1 && a.str.codes = codes

theorem jsFindRawAtom_eq (bytes : List UInt8) (len : Nat) (isWideChar : Bool) :
    rt.jsFindRawAtom bytes len isWideChar =
      (rt.findCodes (rawCodes bytes len isWideChar)).bind fun i =>
        if i = 0 then some (jsAtomNull, rt)
        else (rt.lepusDupAtom i).bind fun rt => some (i, rt) := by
  unfold jsFindRawAtom findCodes
  simp only [Bool.and_assoc, jsStringEqualsRaw_iff]
  rfl

theorem findCodes_spec (inv : rt.Inv atoms strs) (codes : List Nat) :
    rt.findCodes codes = some 0 ∨ ∃ i f, rt.findCodes codes = some i ∧ i ≠ 0 ∧ rt.view i = some f ∧
      f.atomType = 1 ∧ f.str.codes = codes := by
  have ⟨i, search, result⟩ := findInBucket_spec inv.table
    (fun a => a.hash = hashString codes 1 % 2 ^ 30 && a.atomType = 1 && a.str.codes = codes)
    codes 1 (by decide)
  have search : rt.findCodes codes = some i := search
  rcases result with ⟨zero, _⟩ | ⟨some_, q, a, here, hit⟩
  · rw [search, zero]
    exact .inl rfl
  · simp only [Bool.and_eq_true, decide_eq_true_eq] at hit
    exact .inr ⟨i, a.info, search, some_, view_of_atomAt here, hit.1.2, hit.2⟩

/-- Where the atom exists, `JS_NewAtomStr` of a new string returns it. -/
theorem jsNewAtomStr_existing (inv : rt.Inv atoms strs) (str : JSString)
    (found : rt.findCodes str.codes = some i) (some_ : i ≠ 0) (seen : rt.view i = some f)
    (plain : isNumString str.codes = none) (malloc : Malloc) :
    ∃ rt', (rt.allocString str).2.jsNewAtomStr (rt.allocString str).1 malloc = some (i, rt') := by
  have ⟨allocated, _, _, _⟩ := allocString_spec inv str
  have string : (rt.allocString str).2.strings (rt.allocString str).1 = some ⟨str, 0, 0, 0⟩ :=
    Function.update_self ..
  have ⟨q, slot, _⟩ := view_eq_some.mp seen
  have slot : (rt.allocString str).2.atomArray[i]? = some (.atom q) := slot
  have ⟨rt1, dup, inv1, _⟩ := lepusDupAtom_spec allocated (.inr ⟨some_, q, slot⟩)
  have ⟨rt', free, _⟩ := jsFreeString_spec inv1 List.mem_cons_self
  have search : (rt.allocString str).2.findCodes str.codes = some i := by
    rw [← found]
    unfold findCodes findInBucket
    simp only [findLoop_congr (inv.allocString_atomAt str)]
    rfl
  refine ⟨rt', ?_⟩
  rw [jsNewAtomStr, string]
  simp only [Option.bind_eq_bind, Option.bind_some, plain]
  change (rt.allocString str).2.jsNewHashedAtom _ 1 malloc = _
  rw [jsNewHashedAtom, string]
  simp only [Option.bind_eq_bind, Option.bind_some]
  rw [if_neg (by decide)]
  have search : ((rt.allocString str).2.findInBucket (jsAtomHash str 1) fun a =>
      a.hash = jsAtomHash str 1 && a.atomType = 1 && a.str.codes = str.codes) = some i := search
  rw [search, Option.bind_some, if_neg some_, dup, Option.bind_some, free]
  rfl

theorem jsNewAtomRawString_spec (inv : rt.Inv atoms strs) (fits : rt.Fits) (bytes : List UInt8)
    (len : Nat) (isWideChar made : Bool) (malloc : Malloc) :
    ∃ i rt', rt.jsNewAtomRawString bytes len isWideChar made malloc = some (i, rt') ∧
      rt.Names rt' atoms strs (made = true ∧ MallocSucceeds malloc) i
        (.string (rawCodes bytes len isWideChar)) ∧
      (made = true → ∃ rt'', rt.withNewString (rawString bytes len isWideChar) true
        (fun rt p => rt.jsNewAtomStr p malloc) = some (i, rt'')) := by
  have raw := rawString_codes bytes len isWideChar
  have ⟨j, rtS, runS, namesS⟩ := internNew_spec inv fits (rawString bytes len isWideChar) made malloc
  rw [raw] at namesS
  have byString : made = true → ∃ rt'', rt.withNewString (rawString bytes len isWideChar) true
      (fun rt p => rt.jsNewAtomStr p malloc) = some (j, rt'') := by
    intro ok
    rw [← ok]
    exact ⟨rtS, runS⟩
  unfold jsNewAtomRawString
  cases digits : startsNumeric (rawCodes bytes len isWideChar) with
  | true =>
      rw [if_pos rfl]
      exact ⟨j, rtS, runS, namesS, byString⟩
  | false =>
      rw [if_neg Bool.false_ne_true, jsFindRawAtom_eq]
      rcases findCodes_spec inv (rawCodes bytes len isWideChar) with
        missed | ⟨i, f, found, some_, seen, typed, codes⟩
      · rw [missed]
        exact ⟨j, rtS, runS, namesS, byString⟩
      · have ⟨rt', dup, names⟩ := found_spec inv (made = true ∧ MallocSucceeds malloc) seen typed
          some_
        rw [codes] at names
        rw [found]
        simp only [Option.bind_eq_bind, Option.bind_some, if_neg some_, dup]
        refine ⟨i, rt', ?_, names, fun _ => ?_⟩
        · exact if_pos some_
        · have ⟨rt'', run⟩ := jsNewAtomStr_existing inv (rawString bytes len isWideChar)
            (by rw [raw]; exact found) some_ seen
            (by rw [raw]; exact isNumString_of_not_startsNumeric digits) malloc
          exact ⟨rt'', run⟩

end PrimJs.AtomRuntime
