import PrimJs.Foundation.Chain
import PrimJs.Runtime.AtomStore

/-! The invariant of the atom table, and what the table's own operations do to it. -/

namespace PrimJs

def AtomSlot.isAtom : AtomSlot → Bool
  | .free _ => false
  | .atom _ => true

/-- What a string object says about its atom, the link of its chain apart. -/
structure AtomInfo where
  str : JSString
  hash : Nat
  atomType : Nat
  deriving DecidableEq

def JSStringObject.info (o : JSStringObject) : AtomInfo := ⟨o.str, o.hash, o.atomType⟩

namespace AtomRuntime

variable {rt rt' : AtomRuntime} {atoms strs l rest heads newHash : List Nat} {i j k h p q n : Nat}
  {o : JSStringObject} {f g : AtomInfo}

def info (rt : AtomRuntime) (p : Nat) : Option AtomInfo := (rt.strings p).map JSStringObject.info

/-- The atom of slot `i`. -/
def view (rt : AtomRuntime) (i : Nat) : Option AtomInfo :=
  match rt.atomArray[i]? with
  | some (.atom p) => rt.info p
  | _ => none

def hashNext (rt : AtomRuntime) (i : Nat) : Option Nat :=
  (rt.atomAt i).map fun x => x.2.hashNext

def freeNext (rt : AtomRuntime) (i : Nat) : Option Nat :=
  match rt.atomArray[i]? with
  | some (.free next) => some next
  | _ => none

/-- The atoms of bucket `k`; symbols are in none. -/
def InBucket (rt : AtomRuntime) (size k i : Nat) : Prop :=
  ∃ f, rt.view i = some f ∧ f.atomType ≠ jsAtomTypeSymbol ∧ bucket size f.hash = k

/-- The chains of the buckets hold the atoms of the buckets, each once. -/
def Buckets (rt : AtomRuntime) (heads : List Nat) (member : Nat → Nat → Prop) : Prop :=
  ∀ k h, heads[k]? = some h → ∃ l, Chain 0 rt.hashNext h l ∧ ∀ i, i ∈ l ↔ member k i

structure Table (rt : AtomRuntime) : Prop where
  power : ∃ n, rt.atomHash.length = 2 ^ n
  buckets : rt.Buckets rt.atomHash (rt.InBucket rt.atomHash.length)
  freeList : ∃ l, Chain 0 rt.freeNext rt.atomFreeIndex l ∧
    ∀ i, i ∈ l ↔ ∃ next, rt.atomArray[i]? = some (.free next)
  live : ∀ i p : Nat, rt.atomArray[i]? = some (.atom p) →
    ∃ f, rt.info p = some f ∧ f.atomType ∈ [1, 2, 3]
  injective : ∀ i j p : Nat, rt.atomArray[i]? = some (.atom p) → rt.atomArray[j]? = some (.atom p) → i = j
  owned : ∀ p f, rt.info p = some f → f.atomType ≠ 0 → ∃ i : Nat, rt.atomArray[i]? = some (.atom p)
  hashed : ∀ i f, rt.view i = some f → f.atomType ≠ jsAtomTypeSymbol →
    f.hash = jsAtomHash f.str f.atomType
  symbolIndex : ∀ i f, rt.view i = some f → f.atomType = jsAtomTypeSymbol → rt.hashNext i = some i
  canonical : ∀ i j f g, rt.view i = some f → rt.view j = some g → f.atomType = g.atomType →
    f.atomType ≠ jsAtomTypeSymbol → f.str.codes = g.str.codes → i = j
  numeric : ∀ i f, rt.view i = some f → f.atomType = 1 → ∀ n ≤ jsAtomMaxInt,
    isNumString f.str.codes ≠ some n
  nullEntry : ∀ s : AtomSlot, rt.atomArray[0]? = some s → ∃ f, rt.view 0 = some f ∧ f.atomType = jsAtomTypeSymbol
  size : rt.atomArray.length ≤ jsAtomMax
  fresh : ∀ p, rt.nextString ≤ p → rt.info p = none
  count : rt.atomCount = rt.atomArray.countP AtomSlot.isAtom

/-! Reading slots. -/

theorem atomAt_eq_some {x : Nat × JSStringObject} : rt.atomAt i = some x ↔
    rt.atomArray[i]? = some (.atom x.1) ∧ rt.strings x.1 = some x.2 := by
  have ⟨q, o⟩ := x
  unfold atomAt
  split
  · rename_i p slot
    rw [Option.map_eq_some_iff]
    constructor
    · intro ⟨o', here, same⟩
      rw [Prod.mk.injEq] at same
      rw [← same.1, ← same.2]
      exact ⟨slot, here⟩
    · intro ⟨same, here⟩
      rw [slot, Option.some.injEq, AtomSlot.atom.injEq] at same
      rw [same]
      exact ⟨o, here, rfl⟩
  · rename_i other
    constructor
    · intro none
      cases none
    · intro ⟨same, _⟩
      exact absurd same (other q)

theorem view_eq_some : rt.view i = some f ↔
    ∃ p, rt.atomArray[i]? = some (.atom p) ∧ rt.info p = some f := by
  unfold view
  split
  · rename_i p slot
    constructor
    · intro here
      exact ⟨p, slot, here⟩
    · intro ⟨q, same, here⟩
      rw [slot, Option.some.injEq, AtomSlot.atom.injEq] at same
      rw [same]
      exact here
  · rename_i other
    constructor
    · intro none
      cases none
    · intro ⟨q, same, _⟩
      exact absurd same (other q)

theorem info_eq_some : rt.info p = some f ↔ ∃ o, rt.strings p = some o ∧ o.info = f := by
  unfold info
  exact Option.map_eq_some_iff

theorem view_of_atomAt (here : rt.atomAt i = some (p, o)) : rt.view i = some o.info := by
  have ⟨slot, string⟩ := atomAt_eq_some.mp here
  exact view_eq_some.mpr ⟨p, slot, info_eq_some.mpr ⟨o, string, rfl⟩⟩

theorem atomAt_of_view (seen : rt.view i = some f) :
    ∃ p o, rt.atomAt i = some (p, o) ∧ o.info = f := by
  have ⟨p, slot, described⟩ := view_eq_some.mp seen
  have ⟨o, string, same⟩ := info_eq_some.mp described
  exact ⟨p, o, atomAt_eq_some.mpr ⟨slot, string⟩, same⟩

theorem hashNext_of_atomAt (here : rt.atomAt i = some (p, o)) : rt.hashNext i = some o.hashNext := by
  rw [hashNext, here]
  rfl

theorem freeNext_eq_some : rt.freeNext i = some n ↔ rt.atomArray[i]? = some (.free n) := by
  unfold freeNext
  split
  · rename_i next slot
    rw [slot, Option.some.injEq, Option.some.injEq, AtomSlot.free.injEq]
  · rename_i other
    constructor
    · intro none
      cases none
    · intro same
      exact absurd same (other n)

theorem view_lt (seen : rt.view i = some f) : i < rt.atomArray.length := by
  have ⟨p, slot, _⟩ := view_eq_some.mp seen
  exact (List.getElem?_eq_some_iff.mp slot).1

theorem bucket_lt {size : Nat} (positive : 0 < size) (h : Nat) : bucket size h < size := by
  have small : h &&& (size - 1) ≤ size - 1 := Nat.and_le_right
  unfold bucket
  omega

/-- Chains of atoms are not longer than the array, whose entry 0 is in none. -/
theorem chain_length_le (chain : Chain 0 rt.hashNext h l)
    (seen : ∀ i ∈ l, ∃ f, rt.view i = some f) : l.length ≤ rt.atomArray.length := by
  have short := chain.length_le (List.range rt.atomArray.length) fun i member => by
    have ⟨f, seen⟩ := seen i member
    exact List.mem_range.mpr (view_lt seen)
  rw [List.length_range] at short
  exact short

theorem free_noView (slot : rt.atomArray[i]? = some (.free n)) : rt.view i = none := by
  refine Option.eq_none_iff_forall_ne_some.mpr fun f seen => ?_
  have ⟨p, slot', _⟩ := view_eq_some.mp seen
  rw [slot] at slot'
  cases slot'

/-- Another string at one address is another description there. -/
theorem info_of_update {s : Option JSStringObject}
    (strings : rt'.strings = Function.update rt.strings p s) :
    rt'.info = Function.update rt.info p (s.map JSStringObject.info) := by
  funext q
  unfold info
  rw [strings]
  by_cases same : q = p
  · rw [same, Function.update_self, Function.update_self]
  · rw [Function.update_of_ne same, Function.update_of_ne same]

theorem setString_info (rt : AtomRuntime) (p : Nat) (o : JSStringObject) :
    (rt.setString p o).info = Function.update rt.info p (some o.info) :=
  have strings : (rt.setString p o).strings = Function.update rt.strings p (some o) := rfl
  info_of_update strings

theorem Table.atomAt_of_slot (table : rt.Table) (slot : rt.atomArray[i]? = some (.atom p)) :
    ∃ o, rt.atomAt i = some (p, o) := by
  have ⟨f, described, _⟩ := table.live i p slot
  have ⟨o, string, _⟩ := info_eq_some.mp described
  exact ⟨o, atomAt_eq_some.mpr ⟨slot, string⟩⟩

/-- A string that is no atom is in no slot. -/
theorem Table.no_slot (table : rt.Table) (plain : rt.info p = some f) (untyped : f.atomType = 0)
    (i : Nat) : rt.atomArray[i]? ≠ some (.atom p) := by
  intro slot
  have ⟨g, described, typed⟩ := table.live i p slot
  rw [plain, Option.some.injEq] at described
  rw [← described, untyped] at typed
  simp at typed

/-- The atoms of a table whose slot `i` has been freed. -/
theorem Table.slot_of_freed (table : rt.Table) (slot : rt.atomArray[i]? = some (.atom p))
    (arrays : rt'.atomArray = rt.atomArray.set i (.free n))
    (slotJ : rt'.atomArray[j]? = some (.atom q)) :
    j ≠ i ∧ q ≠ p ∧ rt.atomArray[j]? = some (.atom q) := by
  have other : j ≠ i := by
    intro same
    rw [same, arrays, List.getElem?_set_self (List.getElem?_eq_some_iff.mp slot).1] at slotJ
    cases slotJ
  rw [arrays, List.getElem?_set_ne (Ne.symm other)] at slotJ
  refine ⟨other, fun same => ?_, slotJ⟩
  rw [same] at slotJ
  exact other (table.injective j i p slotJ slot)

/-! Links. -/

/-- `rt'` is `rt` with other links in the strings. -/
structure Relinked (rt rt' : AtomRuntime) : Prop where
  same : rt' = { rt with strings := rt'.strings }
  info : rt'.info = rt.info

theorem Relinked.refl (rt : AtomRuntime) : rt.Relinked rt := ⟨rfl, rfl⟩

theorem Relinked.trans {a b c : AtomRuntime} (first : a.Relinked b) (second : b.Relinked c) :
    a.Relinked c := by
  constructor
  · calc
      c = { b with strings := c.strings } := second.same
      _ = { a with strings := c.strings } := by rw [first.same]
  · rw [second.info, first.info]

theorem Relinked.atomArray (relinked : rt.Relinked rt') : rt'.atomArray = rt.atomArray := by
  rw [relinked.same]

theorem Relinked.view (relinked : rt.Relinked rt') : rt'.view = rt.view := by
  funext i
  unfold AtomRuntime.view
  rw [relinked.atomArray, relinked.info]

theorem Relinked.inBucket (relinked : rt.Relinked rt') : rt'.InBucket = rt.InBucket := by
  funext size k i
  unfold InBucket
  rw [relinked.view]

theorem relinked_setString (string : rt.strings p = some o) (next : Nat) :
    rt.Relinked (rt.setString p { o with hashNext := next }) := by
  refine ⟨rfl, ?_⟩
  rw [setString_info, Function.update_eq_self_iff, info, string]
  rfl

theorem hashNext_setString (here : rt.atomAt i = some (p, o)) (next : Nat) :
    (rt.setString p { o with hashNext := next }).hashNext i = some next := by
  have ⟨slot, _⟩ := atomAt_eq_some.mp here
  refine hashNext_of_atomAt (p := p) (o := { o with hashNext := next }) ?_
  exact atomAt_eq_some.mpr ⟨slot, Function.update_self ..⟩

theorem hashNext_setString_ne (other : rt.atomArray[j]? ≠ some (.atom p)) :
    (rt.setString p o).hashNext j = rt.hashNext j := by
  unfold hashNext atomAt setString
  dsimp only
  split
  · rename_i q slot
    rw [Function.update_of_ne fun same => other (by rw [slot, same])]
  · rfl

/-! `JS_ResizeAtomHash`. -/

section

variable {newSize fuel : Nat} (rt : AtomRuntime) (done : Nat → Prop)

theorem moveChain_spec (positive : 0 < newSize)
    (injective : ∀ i j p : Nat, rt.atomArray[i]? = some (.atom p) → rt.atomArray[j]? = some (.atom p) →
      i = j) (chain : Chain 0 rt.hashNext h rest) (enough : rest.length ≤ fuel)
    (seen : ∀ i ∈ rest, ∃ f, rt.view i = some f ∧ f.atomType ≠ jsAtomTypeSymbol ∧ ¬ done i)
    (size : newHash.length = newSize)
    (moved : rt.Buckets newHash fun k i => done i ∧ rt.InBucket newSize k i) :
    ∃ rt' newHash', moveChain newSize fuel rt newHash h = some (rt', newHash') ∧
      rt.Relinked rt' ∧ newHash'.length = newSize ∧
      rt'.Buckets newHash' (fun k i => (done i ∨ i ∈ rest) ∧ rt.InBucket newSize k i) ∧
      ∀ i, i ∉ rest → rt'.hashNext i = rt.hashNext i := by
  induction rest generalizing rt newHash h fuel done with
  | nil =>
      have start := Chain.nil_iff.mp chain
      refine ⟨rt, newHash, ?_, .refl rt, size, ?_, fun i _ => rfl⟩
      · rw [moveChain.eq_def]
        exact if_pos start
      · simpa using moved
  | cons x rest ih =>
      have ⟨start, some_, next, link, tail⟩ := Chain.cons_iff.mp chain
      have distinct := chain.nodup
      have ⟨notLater, _⟩ := List.nodup_cons.mp distinct
      have ⟨f, seenX, hashed, notDone⟩ := seen x List.mem_cons_self
      have ⟨p, o, here, described⟩ := atomAt_of_view seenX
      have ⟨slot, string⟩ := atomAt_eq_some.mp here
      have sameNext := Option.some.inj ((hashNext_of_atomAt here).symm.trans link)
      cases fuel with
      | zero => simp at enough
      | succ fuel =>
          have inside : bucket newSize o.hash < newHash.length := by
            rw [size]
            exact bucket_lt positive _
          have ⟨head, headAt⟩ : ∃ head, newHash[bucket newSize o.hash]? = some head :=
            ⟨_, List.getElem?_eq_getElem inside⟩
          have relinked := relinked_setString string head
          have linkX := hashNext_setString here head
          have others : ∀ j, j ≠ x →
              (rt.setString p { o with hashNext := head }).hashNext j = rt.hashNext j :=
            fun j other => hashNext_setString_ne fun slotJ => other (injective j x p slotJ slot)
          have inX : ∀ k, rt.InBucket newSize k x ↔ bucket newSize o.hash = k := by
            intro k
            unfold InBucket
            rw [seenX, ← described]
            constructor
            · intro ⟨g, same, _, place⟩
              cases same
              exact place
            · intro place
              rw [← described] at hashed
              exact ⟨_, rfl, hashed, place⟩
          have step : (rt.setString p { o with hashNext := head }).Buckets
              (newHash.set (bucket newSize o.hash) x)
              fun k i => (done i ∨ i = x) ∧
                (rt.setString p { o with hashNext := head }).InBucket newSize k i := by
            intro k h' atK
            rw [relinked.inBucket]
            by_cases same : bucket newSize o.hash = k
            · rw [← same, List.getElem?_set_self inside, Option.some.injEq] at atK
              have ⟨l, chainL, members⟩ := moved _ head headAt
              have notIn : x ∉ l := fun member => notDone ((members x).mp member).1
              refine ⟨x :: l, ?_, fun i => ?_⟩
              · rw [← atK]
                exact .cons some_ linkX (chainL.congr fun q member => others q
                  (ne_of_mem_of_not_mem member notIn))
              · rw [List.mem_cons, members i, same]
                constructor
                · rintro (here | ⟨old, place⟩)
                  · rw [here]
                    exact ⟨.inr rfl, (inX k).mpr same⟩
                  · exact ⟨.inl old, place⟩
                · rintro ⟨old | here, place⟩
                  · exact .inr ⟨old, place⟩
                  · exact .inl here
            · rw [List.getElem?_set_ne same] at atK
              have ⟨l, chainL, members⟩ := moved k h' atK
              have notIn : x ∉ l := fun member => notDone ((members x).mp member).1
              refine ⟨l, chainL.congr fun q member => others q (ne_of_mem_of_not_mem member notIn),
                fun i => ?_⟩
              rw [members i]
              constructor
              · intro ⟨old, place⟩
                exact ⟨.inl old, place⟩
              · rintro ⟨old | here, place⟩
                · exact ⟨old, place⟩
                · rw [here] at place
                  exact absurd ((inX k).mp place) same
          have restChain : Chain 0 (rt.setString p { o with hashNext := head }).hashNext o.hashNext
              rest := by
            rw [sameNext]
            exact tail.congr fun q member => others q (ne_of_mem_of_not_mem member notLater)
          have restSeen : ∀ i ∈ rest, ∃ f,
              (rt.setString p { o with hashNext := head }).view i = some f ∧
                f.atomType ≠ jsAtomTypeSymbol ∧ ¬ (done i ∨ i = x) := by
            intro i member
            rw [relinked.view]
            have ⟨g, seenI, typed, fresh⟩ := seen i (List.mem_cons_of_mem _ member)
            exact ⟨g, seenI, typed, not_or.mpr ⟨fresh, ne_of_mem_of_not_mem member notLater⟩⟩
          have ⟨rt', newHash', run, relinked', size', moved', kept⟩ :=
            ih (rt.setString p { o with hashNext := head }) (fun i => done i ∨ i = x)
              injective restChain (Nat.le_of_succ_le_succ enough)
              restSeen (by rw [List.length_set]; exact size) step
          refine ⟨rt', newHash', ?_, relinked.trans relinked', size', ?_, fun i notIn => ?_⟩
          · rw [moveChain.eq_def]
            dsimp only
            rw [if_neg (by rw [start]; exact some_), start, here]
            simp only [Option.bind_eq_bind, Option.bind_some, headAt]
            exact run
          · intro k h' atK
            have ⟨l, chainL, members⟩ := moved' k h' atK
            refine ⟨l, chainL, fun i => ?_⟩
            rw [members i, relinked.inBucket]
            dsimp only
            rw [List.mem_cons, or_assoc]
          · rw [List.mem_cons, not_or] at notIn
            rw [kept i notIn.2]
            exact others i notIn.1

theorem moveChains_spec (member : Nat → Nat → Prop) (positive : 0 < newSize)
    (injective : ∀ i j p : Nat, rt.atomArray[i]? = some (.atom p) →
      rt.atomArray[j]? = some (.atom p) → i = j) (enough : rt.atomArray.length ≤ fuel)
    (chains : rt.Buckets heads member)
    (seen : ∀ k i, member k i → ∃ f, rt.view i = some f ∧ f.atomType ≠ jsAtomTypeSymbol ∧ ¬ done i)
    (apart : ∀ k k' i, member k i → member k' i → k = k') (size : newHash.length = newSize)
    (moved : rt.Buckets newHash fun k i => done i ∧ rt.InBucket newSize k i) :
    ∃ rt' newHash', moveChains newSize fuel heads rt newHash = some (rt', newHash') ∧
      rt.Relinked rt' ∧ newHash'.length = newSize ∧
      rt'.Buckets newHash' (fun k i =>
        (done i ∨ ∃ k < heads.length, member k i) ∧ rt.InBucket newSize k i) ∧
      ∀ i, (∀ k < heads.length, ¬ member k i) → rt'.hashNext i = rt.hashNext i := by
  induction heads generalizing rt newHash done member with
  | nil =>
      refine ⟨rt, newHash, rfl, .refl rt, size, ?_, fun i _ => rfl⟩
      simpa using moved
  | cons h heads ih =>
      have ⟨l, chain, members⟩ := chains 0 h rfl
      have inFirst : ∀ i ∈ l, ∃ f, rt.view i = some f ∧ f.atomType ≠ jsAtomTypeSymbol ∧ ¬ done i :=
        fun i inside => seen 0 i ((members i).mp inside)
      have short := chain_length_le chain fun i inside => by
        have ⟨f, here, _⟩ := inFirst i inside
        exact ⟨f, here⟩
      have ⟨rt', newHash', run, relinked, size', moved', kept⟩ :=
        moveChain_spec rt done positive injective chain (Nat.le_trans short enough) inFirst size moved
      have laterChains : rt'.Buckets heads fun k i => member (k + 1) i := by
        intro k h' atK
        have ⟨l', chain', members'⟩ := chains (k + 1) h' atK
        refine ⟨l', chain'.congr fun i inside => kept i fun again => ?_, members'⟩
        have same := apart 0 (k + 1) i ((members i).mp again) ((members' i).mp inside)
        omega
      have ⟨rt'', newHash'', run', relinked', size'', moved'', kept'⟩ :=
        ih rt' (fun i => done i ∨ i ∈ l) (fun k i => member (k + 1) i)
          (by rw [relinked.atomArray]; exact injective)
          (by rw [relinked.atomArray]; exact enough) laterChains
          (fun k i later => by
            have ⟨f, here, typed, notDone⟩ := seen (k + 1) i later
            refine ⟨f, by rw [relinked.view]; exact here, typed, not_or.mpr ⟨notDone, fun again => ?_⟩⟩
            have same := apart 0 (k + 1) i ((members i).mp again) later
            omega)
          (fun k k' i first second => by
            have same := apart _ _ i first second
            omega)
          size' (by rw [relinked.inBucket]; exact moved')
      refine ⟨rt'', newHash'', ?_, relinked.trans relinked', size'', ?_, fun i outside => ?_⟩
      · rw [moveChains, run]
        exact run'
      · intro k h' atK
        have ⟨l', chain', members'⟩ := moved'' k h' atK
        refine ⟨l', chain', fun i => ?_⟩
        rw [members' i, relinked.inBucket]
        refine and_congr_left fun _ => ?_
        rw [or_assoc]
        refine or_congr_right ?_
        rw [members i]
        constructor
        · rintro (first | ⟨k, bound, later⟩)
          · exact ⟨0, Nat.succ_pos _, first⟩
          · exact ⟨k + 1, Nat.succ_lt_succ bound, later⟩
        · intro ⟨k, bound, inside⟩
          cases k with
          | zero => exact .inl inside
          | succ k => exact .inr ⟨k, Nat.lt_of_succ_lt_succ bound, inside⟩
      · rw [kept' i fun k bound => outside (k + 1) (Nat.succ_lt_succ bound)]
        exact kept i fun inside => outside 0 (Nat.succ_pos _) ((members i).mp inside)

end

theorem buckets_replicate (size : Nat) :
    rt.Buckets (List.replicate size 0) fun k i => False ∧ rt.InBucket size k i := by
  intro k h atK
  have zero := List.eq_of_mem_replicate (List.mem_of_getElem? atK)
  rw [zero]
  refine ⟨[], .nil, fun i => ?_⟩
  simp

theorem Table.hashSize_pos (table : rt.Table) : 0 < rt.atomHash.length := by
  have ⟨n, power⟩ := table.power
  rw [power]
  exact Nat.two_pow_pos n

theorem Table.relink (table : rt.Table) (relinked : rt.Relinked rt') (resize : Nat)
    (power : ∃ n, heads.length = 2 ^ n) (buckets : rt'.Buckets heads (rt.InBucket heads.length))
    (symbols : ∀ i f, rt.view i = some f → f.atomType = jsAtomTypeSymbol →
      rt'.hashNext i = rt.hashNext i) :
    Table { rt' with atomHash := heads, atomCountResize := resize } := by
  have symbolIndex : ∀ i f, rt'.view i = some f → f.atomType = jsAtomTypeSymbol →
      rt'.hashNext i = some i := by
    intro i f seen typed
    rw [relinked.view] at seen
    rw [symbols i f seen typed]
    exact table.symbolIndex i f seen typed
  have live := table.live
  have owned := table.owned
  have hashed := table.hashed
  have canonical := table.canonical
  have numeric := table.numeric
  have nullEntry := table.nullEntry
  have fresh := table.fresh
  rw [← relinked.info] at live owned fresh
  rw [← relinked.view] at hashed canonical numeric nullEntry
  rw [← relinked.inBucket] at buckets
  have same := relinked.same
  generalize rt'.strings = strings at same
  subst same
  exact {
    power := power
    buckets := buckets
    freeList := table.freeList
    live := live
    injective := table.injective
    owned := owned
    hashed := hashed
    symbolIndex := symbolIndex
    canonical := canonical
    numeric := numeric
    nullEntry := nullEntry
    size := table.size
    fresh := fresh
    count := table.count }

theorem jsResizeAtomHash_spec (table : rt.Table) (n : Nat) (malloc : Bool) :
    ∃ rt', rt.jsResizeAtomHash (2 ^ n) malloc = some rt' ∧ rt'.Table ∧ rt'.info = rt.info ∧
      rt'.refCount = rt.refCount ∧ rt'.atomArray = rt.atomArray ∧
        rt'.atomFreeIndex = rt.atomFreeIndex ∧ rt'.nextString = rt.nextString := by
  unfold jsResizeAtomHash
  have power : 2 ^ n &&& (2 ^ n - 1) = 0 := by
    rw [Nat.and_two_pow_sub_one_eq_mod, Nat.mod_self]
  rw [if_neg (not_not.mpr power)]
  cases malloc with
  | false => exact ⟨rt, rfl, table, rfl, rfl, rfl, rfl, rfl⟩
  | true =>
      have positive : 0 < 2 ^ n := Nat.two_pow_pos n
      have ⟨rt', newHash, run, relinked, size, moved, kept⟩ :=
        moveChains_spec rt (fun _ => False) _ positive table.injective (Nat.le_refl _) table.buckets
          (fun k i ⟨f, here, typed, _⟩ => ⟨f, here, typed, not_false⟩)
          (fun k k' i ⟨f, here, _, place⟩ ⟨f', here', _, place'⟩ => by
            rw [here, Option.some.injEq] at here'
            rw [← place, ← place', here'])
          List.length_replicate (buckets_replicate (2 ^ n))
      rw [Bool.not_true, if_neg Bool.false_ne_true, run]
      refine ⟨_, rfl, ?_, relinked.info, ?_, relinked.atomArray, ?_, ?_⟩
      · refine table.relink relinked _ ⟨n, size⟩ ?_ fun i f seen symbol => kept i ?_
        · intro k h atK
          have ⟨l, chain, members⟩ := moved k h atK
          refine ⟨l, chain, fun i => ?_⟩
          rw [members i, size]
          refine and_iff_right_of_imp fun ⟨f, seen, typed, _⟩ => .inr ?_
          exact ⟨_, bucket_lt table.hashSize_pos f.hash, f, seen, typed, rfl⟩
        · intro k _ ⟨g, seen', typed, _⟩
          rw [seen, Option.some.injEq] at seen'
          rw [← seen'] at typed
          exact typed symbol
      all_goals
        dsimp only
        rw [relinked.same]

/-! The loops over a chain. -/

theorem Table.chain_of_hash (table : rt.Table) (h : Nat) :
    ∃ head l, rt.atomHash[bucket rt.atomHash.length h]? = some head ∧ Chain 0 rt.hashNext head l ∧
      (∀ i, i ∈ l ↔ rt.InBucket rt.atomHash.length (bucket rt.atomHash.length h) i) ∧
      l.length ≤ rt.atomArray.length := by
  have head := List.getElem?_eq_getElem (bucket_lt table.hashSize_pos h)
  have ⟨l, chain, members⟩ := table.buckets _ _ head
  refine ⟨_, l, head, chain, members, chain_length_le chain fun i inside => ?_⟩
  have ⟨f, seen, _⟩ := (members i).mp inside
  exact ⟨f, seen⟩

theorem findLoop_spec (found : JSStringObject → Bool) {fuel : Nat} (chain : Chain 0 rt.hashNext h l)
    (enough : l.length ≤ fuel) :
    ∃ i, rt.findLoop found fuel h = some i ∧
      ((i = 0 ∧ ∀ j ∈ l, ∀ p o, rt.atomAt j = some (p, o) → found o = false) ∨
        (i ∈ l ∧ ∃ p o, rt.atomAt i = some (p, o) ∧ found o = true)) := by
  induction l generalizing h fuel with
  | nil =>
      refine ⟨0, ?_, .inl ⟨rfl, fun j inside => nomatch inside⟩⟩
      rw [findLoop.eq_def]
      exact if_pos (Chain.nil_iff.mp chain)
  | cons x l ih =>
      have ⟨start, some_, next, link, tail⟩ := Chain.cons_iff.mp chain
      have ⟨⟨p, o⟩, here, same⟩ := Option.map_eq_some_iff.mp link
      cases fuel with
      | zero => simp at enough
      | succ fuel =>
          dsimp only at same
          rw [← same] at tail
          have ⟨i, run, result⟩ := ih tail (Nat.le_of_succ_le_succ enough)
          rw [findLoop.eq_def]
          dsimp only
          rw [start, if_neg some_, here]
          cases hit : found o with
          | true =>
              refine ⟨x, ?_, .inr ⟨List.mem_cons_self, p, o, here, hit⟩⟩
              simp [hit]
          | false =>
              refine ⟨i, ?_, ?_⟩
              · simpa [hit] using run
              · rcases result with ⟨zero, misses⟩ | ⟨inside, hits⟩
                · refine .inl ⟨zero, fun j inside q a atJ => ?_⟩
                  rcases List.mem_cons.mp inside with first | later
                  · rw [first, here, Option.some.injEq, Prod.mk.injEq] at atJ
                    rw [← atJ.2]
                    exact hit
                  · exact misses j later q a atJ
                · exact .inr ⟨List.mem_cons_of_mem _ inside, hits⟩

/-- A search of the right bucket by type and characters misses no atom. -/
theorem findInBucket_spec (table : rt.Table) (found : JSStringObject → Bool) (codes : List Nat)
    (ty : Nat) (typed : ty ≠ jsAtomTypeSymbol) :
    ∃ i, rt.findInBucket (hashString codes ty % 2 ^ 30) found = some i ∧
      ((i = 0 ∧ ∀ j p o, rt.atomAt j = some (p, o) → o.atomType = ty → o.str.codes = codes →
          found o = false) ∨
        (i ≠ 0 ∧ ∃ p o, rt.atomAt i = some (p, o) ∧ found o = true)) := by
  have ⟨head, l, atHead, chain, members, short⟩ :=
    table.chain_of_hash (hashString codes ty % 2 ^ 30)
  have ⟨i, run, result⟩ := findLoop_spec found chain short
  refine ⟨i, ?_, ?_⟩
  · rw [findInBucket, atHead]
    exact run
  · rcases result with ⟨zero, misses⟩ | ⟨inside, hits⟩
    · refine .inl ⟨zero, fun j p o here sameType sameCodes => misses j ?_ p o here⟩
      have seen := view_of_atomAt here
      have notSymbol : o.info.atomType ≠ jsAtomTypeSymbol := by
        change o.atomType ≠ _
        rw [sameType]
        exact typed
      refine (members j).mpr ⟨o.info, seen, notSymbol, ?_⟩
      rw [table.hashed j _ seen notSymbol]
      unfold jsAtomHash
      change bucket _ (hashString o.str.codes o.atomType % 2 ^ 30) = _
      rw [sameType, sameCodes]
    · refine .inr ⟨fun zero => ?_, hits⟩
      rw [zero] at inside
      exact chain.stop_notMem inside

theorem atomIndexLoop_spec {fuel : Nat}
    (injective : ∀ i j p : Nat, rt.atomArray[i]? = some (.atom p) →
      rt.atomArray[j]? = some (.atom p) → i = j)
    (chain : Chain 0 rt.hashNext h l) (enough : l.length ≤ fuel)
    (slot : rt.atomArray[i]? = some (.atom p)) (inside : i ∈ l) :
    rt.atomIndexLoop p fuel h = some i := by
  induction l generalizing h fuel with
  | nil => cases inside
  | cons x l ih =>
      have ⟨start, some_, next, link, tail⟩ := Chain.cons_iff.mp chain
      have ⟨⟨q, o⟩, here, same⟩ := Option.map_eq_some_iff.mp link
      have ⟨slotX, _⟩ := atomAt_eq_some.mp here
      cases fuel with
      | zero => simp at enough
      | succ fuel =>
          dsimp only at same slotX
          rw [atomIndexLoop, start, here]
          simp only [Option.bind_eq_bind, Option.bind_some]
          by_cases hit : q = p
          · rw [if_pos hit]
            rw [hit] at slotX
            rw [injective x i p slotX slot]
          · rw [if_neg hit, if_neg some_]
            refine ih (by rw [same]; exact tail) (Nat.le_of_succ_le_succ enough) ?_
            rcases List.mem_cons.mp inside with first | later
            · rw [first, slotX, Option.some.injEq, AtomSlot.atom.injEq] at slot
              exact absurd slot hit
            · exact later

theorem jsGetAtomIndex_spec (table : rt.Table) (slot : rt.atomArray[i]? = some (.atom p)) :
    rt.jsGetAtomIndex p = some i := by
  have ⟨o, here⟩ := table.atomAt_of_slot slot
  have ⟨_, string⟩ := atomAt_eq_some.mp here
  have seen := view_of_atomAt here
  rw [jsGetAtomIndex, string]
  simp only [Option.bind_eq_bind, Option.bind_some]
  by_cases symbol : o.atomType = jsAtomTypeSymbol
  · rw [if_pos symbol]
    exact (hashNext_of_atomAt here).symm.trans (table.symbolIndex i _ seen symbol)
  · have ⟨head, l, atHead, chain, members, short⟩ := table.chain_of_hash o.hash
    rw [if_neg symbol, atHead, Option.bind_some]
    exact atomIndexLoop_spec table.injective chain short slot
      ((members i).mpr ⟨o.info, seen, symbol, rfl⟩)

/-- The loop stops at the atom before `i` and takes `i` out behind it. -/
theorem unlinkLoop_spec {fuel : Nat}
    (injective : ∀ i j p : Nat, rt.atomArray[i]? = some (.atom p) →
      rt.atomArray[j]? = some (.atom p) → i = j)
    (chain : Chain 0 rt.hashNext h (h :: l)) (enough : l.length ≤ fuel)
    (here : rt.atomAt i = some (p, o)) (inside : i ∈ l) :
    ∃ xs y ys p0 o0, h :: l = xs ++ y :: i :: ys ∧ rt.atomAt y = some (p0, o0) ∧
      rt.unlinkLoop p fuel h = some (i, rt.setString p0 { o0 with hashNext := o.hashNext }) := by
  induction l generalizing h fuel with
  | nil => cases inside
  | cons x l ih =>
      have ⟨_, some_, next, link, tail⟩ := Chain.cons_iff.mp chain
      have ⟨start, _, next', linkX, _⟩ := Chain.cons_iff.mp tail
      have ⟨⟨p0, o0⟩, hereH, same⟩ := Option.map_eq_some_iff.mp link
      have ⟨⟨p1, o1⟩, hereX, _⟩ := Option.map_eq_some_iff.mp linkX
      have ⟨slotX, _⟩ := atomAt_eq_some.mp hereX
      have ⟨slotI, _⟩ := atomAt_eq_some.mp here
      dsimp only at same
      cases fuel with
      | zero => simp at enough
      | succ fuel =>
          have toX : o0.hashNext = x := same.trans start
          rw [unlinkLoop, if_neg some_, hereH]
          simp only [Option.bind_eq_bind, Option.bind_some, toX, hereX]
          by_cases hit : p1 = p
          · rw [hit] at slotX
            have place := injective x i p slotX slotI
            rw [place, here, Option.some.injEq, Prod.mk.injEq] at hereX
            rw [if_pos hit, place, ← hereX.2]
            exact ⟨[], h, l, p0, o0, rfl, hereH, rfl⟩
          · have later : i ∈ l := by
              rcases List.mem_cons.mp inside with first | later
              · rw [first, hereX, Option.some.injEq, Prod.mk.injEq] at here
                exact absurd here.1 hit
              · exact later
            rw [start] at tail
            have ⟨xs, y, ys, p0', o0', parts, hereY, run⟩ :=
              ih tail (Nat.le_of_succ_le_succ enough) later
            rw [if_neg hit, run, parts]
            exact ⟨h :: xs, y, ys, p0', o0', rfl, hereY, rfl⟩

/-! Freeing an atom. -/

theorem mem_without (xs : List Nat) {ys : List Nat} (distinct : (xs ++ i :: ys).Nodup) :
    j ∈ xs ++ ys ↔ j ∈ xs ++ i :: ys ∧ j ≠ i := by
  rw [List.nodup_middle, List.nodup_cons] at distinct
  simp only [List.mem_append, List.mem_cons] at distinct ⊢
  constructor
  · intro inside
    refine ⟨inside.imp_right .inr, fun same => ?_⟩
    rw [same] at inside
    exact distinct.1 inside
  · rintro ⟨first | same | last, other⟩
    · exact .inl first
    · exact absurd same other
    · exact .inr last

/-- Only the chain of its own bucket changes when an atom is taken out. -/
theorem Table.buckets_without (table : rt.Table) (seen : rt.view i = some f)
    (home : ∀ h, heads[bucket rt.atomHash.length f.hash]? = some h → ∃ l, Chain 0 rt'.hashNext h l ∧
      ∀ j, j ∈ l ↔ rt.InBucket rt.atomHash.length (bucket rt.atomHash.length f.hash) j ∧ j ≠ i)
    (others : ∀ k, k ≠ bucket rt.atomHash.length f.hash → heads[k]? = rt.atomHash[k]?)
    (kept : ∀ k j, k ≠ bucket rt.atomHash.length f.hash → rt.InBucket rt.atomHash.length k j →
      rt'.hashNext j = rt.hashNext j) :
    rt'.Buckets heads fun k j => rt.InBucket rt.atomHash.length k j ∧ j ≠ i := by
  intro k h atK
  by_cases same : k = bucket rt.atomHash.length f.hash
  · rw [same] at atK ⊢
    exact home h atK
  · rw [others k same] at atK
    have ⟨l, chain, members⟩ := table.buckets k h atK
    refine ⟨l, chain.congr fun j member => kept k j same ((members j).mp member), fun j => ?_⟩
    rw [members j]
    refine (and_iff_left_of_imp fun inK again => ?_).symm
    have ⟨g, seenJ, _, place⟩ := inK
    rw [again, seen, Option.some.injEq] at seenJ
    rw [← seenJ] at place
    exact same place.symm

theorem unlinkAtom_spec (table : rt.Table) (here : rt.atomAt i = some (p, o)) :
    ∃ rt' heads, rt.unlinkAtom p o = some (i, { rt' with atomHash := heads }) ∧
      rt.Relinked rt' ∧ heads.length = rt.atomHash.length ∧
      rt'.Buckets heads (fun k j => rt.InBucket rt.atomHash.length k j ∧ j ≠ i) ∧
      ∀ j f, rt.view j = some f → f.atomType = jsAtomTypeSymbol → rt'.hashNext j = rt.hashNext j := by
  have ⟨slotI, _⟩ := atomAt_eq_some.mp here
  have seen := view_of_atomAt here
  unfold unlinkAtom
  by_cases symbol : o.atomType = jsAtomTypeSymbol
  · rw [if_pos symbol]
    have place := table.symbolIndex i _ seen symbol
    rw [hashNext_of_atomAt here, Option.some.injEq] at place
    rw [place]
    refine ⟨rt, rt.atomHash, rfl, .refl rt, rfl, fun k h atK => ?_, fun j f _ _ => rfl⟩
    have ⟨l, chain, members⟩ := table.buckets k h atK
    refine ⟨l, chain, fun j => ?_⟩
    rw [members j]
    refine (and_iff_left_of_imp fun ⟨f, seenJ, typed, _⟩ same => ?_).symm
    rw [same, seen, Option.some.injEq] at seenJ
    rw [← seenJ] at typed
    exact typed symbol
  · rw [if_neg symbol]
    have ⟨head, l, atHead, chain, members, short⟩ := table.chain_of_hash o.hash
    have inside : i ∈ l := (members i).mpr ⟨o.info, seen, symbol, rfl⟩
    cases l with
    | nil => cases inside
    | cons x l =>
        have ⟨start, some_, next, linkX, tail⟩ := Chain.cons_iff.mp chain
        have ⟨⟨p1, o1⟩, hereX, toNext⟩ := Option.map_eq_some_iff.mp linkX
        have ⟨slotX, _⟩ := atomAt_eq_some.mp hereX
        dsimp only at toNext ⊢
        rw [atHead]
        simp only [Option.bind_eq_bind, Option.bind_some, start, hereX]
        by_cases hit : p1 = p
        · rw [hit] at slotX
          have place := table.injective x i p slotX slotI
          rw [place] at chain members
          rw [if_pos hit, toNext, place]
          refine ⟨rt, _, rfl, .refl rt, List.length_set, table.buckets_without seen (fun h atHome => ?_)
            (fun k other => List.getElem?_set_ne (Ne.symm other)) (fun k j _ _ => rfl),
            fun j f _ _ => rfl⟩
          have atHome : (rt.atomHash.set (bucket rt.atomHash.length o.hash) next)[
              bucket rt.atomHash.length o.hash]? = some h := atHome
          rw [List.getElem?_set_self (List.getElem?_eq_some_iff.mp atHead).1,
            Option.some.injEq] at atHome
          rw [← atHome]
          refine ⟨l, tail, fun j => ?_⟩
          exact (mem_without [] chain.nodup).trans (and_congr_left fun _ => members j)
        · rw [if_neg hit]
          have later : i ∈ l := by
            rcases List.mem_cons.mp inside with first | later
            · rw [first, hereX, Option.some.injEq, Prod.mk.injEq] at here
              exact absurd here.1 hit
            · exact later
          rw [start] at chain atHead
          have ⟨xs, y, ys, p0, o0, parts, hereY, run⟩ :=
            unlinkLoop_spec table.injective chain (Nat.le_of_succ_le short) here later
          have ⟨slotY, stringY⟩ := atomAt_eq_some.mp hereY
          have others : ∀ j, j ≠ y →
              (rt.setString p0 { o0 with hashNext := o.hashNext }).hashNext j = rt.hashNext j :=
            fun j other => hashNext_setString_ne fun slotJ =>
              other (table.injective j y p0 slotJ slotY)
          have inY : y ∈ x :: l := by simp [parts]
          have ⟨g, seenY, typedY, placeY⟩ := (members y).mp inY
          rw [parts] at chain members
          rw [run]
          refine ⟨_, rt.atomHash, rfl, relinked_setString stringY o.hashNext, rfl,
            table.buckets_without seen (fun h atHome => ?_) (fun k _ => rfl)
              (fun k j other inK => others j fun again => ?_), fun j f seenJ symbolJ => ?_⟩
          · have atHome : rt.atomHash[bucket rt.atomHash.length o.hash]? = some h := atHome
            rw [atHead, Option.some.injEq] at atHome
            rw [← atHome]
            refine ⟨xs ++ y :: ys, chain.unlink ?_ others, fun j => ?_⟩
            · rw [hashNext_setString hereY, hashNext_of_atomAt here]
            · have distinct := chain.nodup
              rw [List.append_cons] at distinct members ⊢
              exact (mem_without _ distinct).trans (and_congr_left fun _ => members j)
          · have ⟨g', seenY', _, placeY'⟩ := inK
            rw [again, seenY, Option.some.injEq] at seenY'
            rw [← seenY', placeY] at placeY'
            exact other placeY'.symm
          · refine others j fun again => ?_
            rw [again, seenY, Option.some.injEq] at seenJ
            rw [← seenJ] at symbolJ
            exact typedY symbolJ

/-- What freeing the atom `p` of slot `i` leaves. -/
structure Freed (rt rt' : AtomRuntime) (i p : Nat) : Prop where
  table : rt'.Table
  info : rt'.info = Function.update rt.info p none
  atomArray : rt'.atomArray = rt.atomArray.set i (.free rt.atomFreeIndex)
  atomFreeIndex : rt'.atomFreeIndex = i
  refCount : rt'.refCount = rt.refCount
  nextString : rt'.nextString = rt.nextString
  hashSize : rt'.atomHash.length = rt.atomHash.length

theorem jsFreeAtomStruct_spec (table : rt.Table) (slot : rt.atomArray[i]? = some (.atom p))
    (some_ : i ≠ 0) : ∃ rt', rt.jsFreeAtomStruct p = some rt' ∧ rt.Freed rt' i p := by
  obtain ⟨o, here⟩ := table.atomAt_of_slot slot
  obtain ⟨_, string⟩ := atomAt_eq_some.mp here
  obtain ⟨rt1, heads, run, relinked, size, buckets, symbols⟩ := unlinkAtom_spec table here
  have bound := (List.getElem?_eq_some_iff.mp slot).1
  have atI := (List.getElem?_eq_some_iff.mp slot).2
  have counted : 0 < rt.atomCount := by
    rw [table.count, List.countP_pos_iff]
    exact ⟨_, List.mem_of_getElem? slot, rfl⟩
  have sameCount : rt1.atomCount = rt.atomCount := by rw [relinked.same]
  have sameFree : rt1.atomFreeIndex = rt.atomFreeIndex := by rw [relinked.same]
  have sameNext : rt1.nextString = rt.nextString := by rw [relinked.same]
  have sameRefs : rt1.refCount = rt.refCount := by rw [relinked.same]
  have sameArray := relinked.atomArray
  have run' : rt.jsFreeAtomStruct p = some { AtomRuntime.freeString { rt1 with atomHash := heads } p with
      atomArray := rt.atomArray.set i (.free rt.atomFreeIndex)
      atomFreeIndex := i
      atomCount := rt.atomCount - 1 } := by
    rw [jsFreeAtomStruct, string]
    simp only [Option.bind_eq_bind, Option.bind_some, run, sameCount, sameFree, sameArray]
    rw [if_neg (by omega)]
  generalize built : AtomRuntime.mk _ _ _ _ _ _ _ _ = rt2 at run'
  have infos : rt2.info = Function.update rt.info p none := by
    have strings : rt2.strings = Function.update rt1.strings p none := by rw [← built]; rfl
    rw [← relinked.info]
    exact info_of_update strings
  have arrays : rt2.atomArray = rt.atomArray.set i (.free rt.atomFreeIndex) := by rw [← built]
  have slots : ∀ j, j ≠ i → rt2.atomArray[j]? = rt.atomArray[j]? := by
    intro j other
    rw [arrays, List.getElem?_set_ne (Ne.symm other)]
  have slotI : rt2.atomArray[i]? = some (.free rt.atomFreeIndex) := by
    rw [arrays, List.getElem?_set_self bound]
  have older : ∀ j q, rt2.atomArray[j]? = some (.atom q) → j ≠ i ∧ q ≠ p ∧
      rt.atomArray[j]? = some (.atom q) := fun j q => table.slot_of_freed slot arrays
  have views : ∀ j g, rt2.view j = some g → j ≠ i ∧ rt.view j = some g := by
    intro j g seen
    obtain ⟨q, slotJ, describedJ⟩ := view_eq_some.mp seen
    obtain ⟨other, otherP, slotJ⟩ := older j q slotJ
    rw [infos, Function.update_of_ne otherP] at describedJ
    exact ⟨other, view_eq_some.mpr ⟨q, slotJ, describedJ⟩⟩
  have otherP : ∀ j q : Nat, j ≠ i → rt.atomArray[j]? = some (.atom q) → q ≠ p := by
    intro j q other slotJ same
    rw [same] at slotJ
    exact other (table.injective j i p slotJ slot)
  have viewsBack : ∀ j, j ≠ i → rt2.view j = rt.view j := by
    intro j other
    unfold view
    rw [slots j other]
    split
    · rename_i q slotJ
      rw [infos, Function.update_of_ne (otherP j q other slotJ)]
    · rfl
  have links : ∀ j, j ≠ i → rt2.hashNext j = rt1.hashNext j := by
    intro j other
    unfold hashNext atomAt
    rw [slots j other, sameArray]
    split
    · rename_i q slotJ
      rw [← built]
      unfold freeString
      dsimp only
      rw [Function.update_of_ne (otherP j q other slotJ)]
    · rfl
  have inBuckets : ∀ k j, rt2.InBucket rt.atomHash.length k j ↔
      rt.InBucket rt.atomHash.length k j ∧ j ≠ i := by
    intro k j
    constructor
    · rintro ⟨g, seen, typed, place⟩
      obtain ⟨other, seen⟩ := views j g seen
      exact ⟨⟨g, seen, typed, place⟩, other⟩
    · rintro ⟨⟨g, seen, typed, place⟩, other⟩
      exact ⟨g, by rw [viewsBack j other]; exact seen, typed, place⟩
  have hashes : rt2.atomHash = heads := by rw [← built]; rfl
  refine ⟨rt2, run', ?_, infos, arrays, by rw [← built], ?_, ?_, ?_⟩
  · exact {
      power := by
        rw [hashes, size]
        exact table.power
      buckets := by
        rw [hashes, size]
        intro k h atK
        obtain ⟨l, chain, members⟩ := buckets k h atK
        refine ⟨l, chain.congr fun j member => links j ((members j).mp member).2, fun j => ?_⟩
        rw [members j, inBuckets k j]
      freeList := by
        obtain ⟨l, chain, members⟩ := table.freeList
        have notIn : i ∉ l := by
          intro inside
          obtain ⟨next, free⟩ := (members i).mp inside
          rw [slot] at free
          cases free
        have start : rt2.atomFreeIndex = i := by rw [← built]
        rw [start]
        refine ⟨i :: l, .cons some_ (freeNext_eq_some.mpr slotI)
          (chain.congr fun j member => ?_), fun j => ?_⟩
        · unfold freeNext
          rw [slots j (ne_of_mem_of_not_mem member notIn)]
        · rw [List.mem_cons, members j]
          by_cases same : j = i
          · rw [same, slotI]
            simp
          · rw [slots j same]
            simp [same]
      live := by
        intro j q slotJ
        obtain ⟨_, other, slotJ⟩ := older j q slotJ
        rw [infos, Function.update_of_ne other]
        exact table.live j q slotJ
      injective := by
        intro j k q slotJ slotK
        exact table.injective j k q (older j q slotJ).2.2 (older k q slotK).2.2
      owned := by
        intro q g describedQ typed
        have other : q ≠ p := by
          intro same
          rw [infos, same, Function.update_self] at describedQ
          cases describedQ
        rw [infos, Function.update_of_ne other] at describedQ
        obtain ⟨j, slotJ⟩ := table.owned q g describedQ typed
        have otherI : j ≠ i := by
          intro same
          rw [same, slot, Option.some.injEq, AtomSlot.atom.injEq] at slotJ
          exact other slotJ.symm
        exact ⟨j, by rw [slots j otherI]; exact slotJ⟩
      hashed := fun j g seen => table.hashed j g (views j g seen).2
      symbolIndex := by
        intro j g seen symbol
        obtain ⟨other, seen⟩ := views j g seen
        rw [links j other, symbols j g seen symbol]
        exact table.symbolIndex j g seen symbol
      canonical := fun j k g g' seen seen' =>
        table.canonical j k g g' (views j g seen).2 (views k g' seen').2
      numeric := fun j g seen => table.numeric j g (views j g seen).2
      nullEntry := by
        intro s first
        rw [slots 0 (Ne.symm some_)] at first
        rw [viewsBack 0 (Ne.symm some_)]
        exact table.nullEntry s first
      size := by
        rw [arrays, List.length_set]
        exact table.size
      fresh := by
        intro q beyond
        have next : rt2.nextString = rt.nextString := by
          rw [← built]
          exact sameNext
        rw [next] at beyond
        rw [infos]
        by_cases same : q = p
        · rw [same, Function.update_self]
        · rw [Function.update_of_ne same]
          exact table.fresh q beyond
      count := by
        have fewer : rt2.atomCount = rt.atomCount - 1 := by rw [← built]
        rw [fewer, arrays, List.countP_set bound, atI, table.count]
        simp [AtomSlot.isAtom] }
  · rw [← built]
    exact sameRefs
  · rw [← built]
    exact sameNext
  · rw [hashes]
    exact size

end AtomRuntime

end PrimJs
