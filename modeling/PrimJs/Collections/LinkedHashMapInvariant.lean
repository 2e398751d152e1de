import PrimJs.Foundation.Chain
import PrimJs.Collections.LinkedHashMap

/-! The invariant of a table: its counts, and the chain of every bucket. -/

namespace PrimJs.LinkedHashMap

open JSMap (MapKeys)

namespace JSLinkedHashMap

variable {κ ν : Type}

def inBucket (keys : MapKeys κ) (t : JSLinkedHashMap κ ν) (b i : Nat) : Bool :=
  match t.entries i with
  | some (key, _) => t.bucketOf keys key == b
  | none => false

def chainOf (keys : MapKeys κ) (t : JSLinkedHashMap κ ν) (b : Nat) : List Nat :=
  (List.range t.entryUsed).reverse.filter (t.inBucket keys b)

def link (t : JSLinkedHashMap κ ν) (i : Nat) : Option Nat := some (t.hashNext i)

end JSLinkedHashMap

open JSLinkedHashMap

structure TableInv {κ ν : Type} (keys : MapKeys κ) (t : JSLinkedHashMap κ ν) : Prop where
  power : ∃ k, t.bucketCount = 2^(k + 1)
  used : t.entryUsed = t.liveCount + t.deletedCount
  fits : t.entryUsed ≤ t.entryCapacity
  small : t.entryCapacity < kInvalidMapEntry
  counted : t.liveCount = (List.range t.entryUsed).countP t.isLive
  unused : ∀ i, t.entryUsed ≤ i → t.entries i = none
  linked : ∀ b, b < t.bucketCount → Chain kInvalidMapEntry t.link (t.buckets b) (t.chainOf keys b)
  recorded : t.isWeak = true → ∀ i key value, t.entries i = some (key, value) →
    t.weakBuckets i = t.bucketOf keys key

variable {κ ν : Type} {keys : MapKeys κ} {t t' : JSLinkedHashMap κ ν} {key : κ} {value : ν}
  {b e i : Nat}

section Basic

theorem inBucket_iff : t.inBucket keys b i = true ↔
    ∃ key value, t.entries i = some (key, value) ∧ t.bucketOf keys key = b := by
  rw [inBucket]
  cases here : t.entries i with
  | none => simp
  | some entry => simp [Prod.ext_iff]

section

variable (inv : TableInv keys t)

include inv

theorem TableInv.lt_used (here : t.entries i = some (key, value)) : i < t.entryUsed := by
  by_contra beyond
  rw [inv.unused i (Nat.le_of_not_lt beyond)] at here
  cases here

theorem TableInv.mem_chainOf :
    i ∈ t.chainOf keys b ↔
      ∃ key value, t.entries i = some (key, value) ∧ t.bucketOf keys key = b := by
  rw [chainOf, List.mem_filter, List.mem_reverse, List.mem_range, inBucket_iff]
  constructor
  · exact fun there => there.2
  · rintro ⟨key, value, here, bucket⟩
    exact ⟨inv.lt_used here, key, value, here, bucket⟩

theorem TableInv.bucketOf_lt (key : κ) : t.bucketOf keys key < t.bucketCount := by
  obtain ⟨k, power⟩ := inv.power
  have bits : linkedHashBits t.bucketCount = k + 1 := by
    rw [linkedHashBits, power, Nat.clog_pow 2 _ (by decide)]
  rw [bucketOf, bits, power]
  exact keys.hash_lt key (k + 1)

theorem TableInv.lt_invalid (inside : i < t.entryUsed) : i ≠ kInvalidMapEntry := by
  have fits := inv.fits
  have small := inv.small
  intro same
  rw [same] at inside
  exact absurd inside (Nat.not_lt.mpr (Nat.le_of_lt (Nat.lt_of_le_of_lt fits small)))

end

theorem chainOf_nodup : (t.chainOf keys b).Nodup :=
  (List.nodup_reverse.mpr List.nodup_range).filter _

theorem chainOf_length_le : (t.chainOf keys b).length ≤ t.entryUsed := by
  calc
    (t.chainOf keys b).length ≤ (List.range t.entryUsed).reverse.length :=
      List.length_filter_le _ _
    _ = t.entryUsed := by simp

/-- The chain of a bucket is what the links lead through. -/
theorem chainFrom_eq {list : List Nat} {fuel : Nat}
    (chain : Chain kInvalidMapEntry t.link i list) (enough : list.length ≤ fuel) :
    t.chainFrom fuel i = list := by
  induction list generalizing fuel i with
  | nil =>
      have stop := Chain.nil_iff.mp chain
      cases fuel with
      | zero => rfl
      | succ fuel => rw [chainFrom, if_pos stop]
  | cons x rest ih =>
      obtain ⟨isX, some_, j, link, tail⟩ := Chain.cons_iff.mp chain
      cases fuel with
      | zero => simp at enough
      | succ fuel =>
          have next : t.hashNext x = j := Option.some.inj link
          rw [chainFrom, isX, if_neg some_, next, ih tail (Nat.le_of_succ_le_succ enough)]

theorem TableInv.bucketChain_eq (inv : TableInv keys t) (inside : b < t.bucketCount) :
    t.bucketChain b = t.chainOf keys b :=
  chainFrom_eq (inv.linked b inside) chainOf_length_le

end Basic

section Walks

/-- `previous` is what leads to the entry in the chain. -/
def Follows (list : List Nat) (previous e : Nat) : Prop :=
  ∃ before after, list = before ++ e :: after ∧ previous = before.getLast?.getD kInvalidMapEntry

theorem getLastD_cons (x d : Nat) (before : List Nat) :
    (x :: before).getLast?.getD d = before.getLast?.getD x := by
  cases before with
  | nil => rfl
  | cons y rest => simp [List.getLast?_cons]

theorem findFrom_spec [DecidableEq κ] (key : κ) (b fuel previous : Nat) {list : List Nat}
    (chain : Chain kInvalidMapEntry t.link i list) (enough : list.length ≤ fuel)
    (live : ∀ x ∈ list, x < t.entryUsed ∧ ∃ key value, t.entries x = some (key, value)) :
    ∃ l, findFrom key b fuel previous i t = some (l, t) ∧ l.bucket = b
      ∧ ((l.entry = kInvalidMapEntry ∧ ∀ x ∈ list, ∀ value, t.entries x ≠ some (key, value))
        ∨ ∃ value before after, t.entries l.entry = some (key, value)
          ∧ list = before ++ l.entry :: after ∧ l.previous = before.getLast?.getD previous) := by
  induction list generalizing fuel i previous with
  | nil =>
      have stop := Chain.nil_iff.mp chain
      refine ⟨⟨b, previous, kInvalidMapEntry⟩, ?_, rfl, .inl ⟨rfl, by simp⟩⟩
      cases fuel with
      | zero => rw [findFrom, if_pos stop]
      | succ fuel => rw [findFrom, if_pos stop]
  | cons x rest ih =>
      obtain ⟨isX, some_, j, link, tail⟩ := Chain.cons_iff.mp chain
      obtain ⟨inside, entryKey, entryValue, here⟩ := live x List.mem_cons_self
      cases fuel with
      | zero => simp at enough
      | succ fuel =>
          have next : t.hashNext x = j := Option.some.inj link
          rw [findFrom, isX, if_neg some_, if_pos inside]
          simp only [here]
          by_cases same : entryKey = key
          · rw [if_pos same]
            refine ⟨_, rfl, rfl, .inr ⟨entryValue, [], rest, ?_, rfl, rfl⟩⟩
            rw [here, same]
          · rw [if_neg same, next]
            obtain ⟨l, run, bucket, found⟩ := ih fuel x tail
              (Nat.le_of_succ_le_succ enough) fun y member => live y (List.mem_cons_of_mem _ member)
            refine ⟨l, run, bucket, ?_⟩
            rcases found with ⟨absent, others⟩ | ⟨value, before, after, there, split, previous_⟩
            · left
              refine ⟨absent, fun y member value there => ?_⟩
              rcases List.mem_cons.mp member with isX | later
              · rw [isX, here, Option.some.injEq, Prod.mk.injEq] at there
                exact same there.1
              · exact others y later value there
            · right
              refine ⟨value, x :: before, after, there, by rw [split]; rfl, ?_⟩
              rw [previous_, getLastD_cons]

/-- `linked_hash_map_find` changes nothing: no chain has an empty entry. -/
theorem TableInv.find [DecidableEq κ] (inv : TableInv keys t) (key : κ) :
    ∃ l, t.find keys key = some (l, t) ∧ l.bucket = t.bucketOf keys key
      ∧ ((l.entry = kInvalidMapEntry ∧ ∀ x value, t.entries x ≠ some (key, value))
        ∨ ∃ value, t.entries l.entry = some (key, value)
          ∧ Follows (t.chainOf keys (t.bucketOf keys key)) l.previous l.entry) := by
  have inside := inv.bucketOf_lt key
  have live : ∀ x ∈ t.chainOf keys (t.bucketOf keys key),
      x < t.entryUsed ∧ ∃ key value, t.entries x = some (key, value) := by
    intro x member
    obtain ⟨key', value, here, -⟩ := inv.mem_chainOf.mp member
    exact ⟨inv.lt_used here, key', value, here⟩
  obtain ⟨l, run, bucket, found⟩ :=
    findFrom_spec key (t.bucketOf keys key) t.entryUsed kInvalidMapEntry
      (inv.linked _ inside) chainOf_length_le live
  refine ⟨l, run, bucket, ?_⟩
  rcases found with ⟨absent, others⟩ | ⟨value, before, after, here, split, previous⟩
  · left
    refine ⟨absent, fun x value there => ?_⟩
    exact others x (inv.mem_chainOf.mpr ⟨key, value, there, rfl⟩) value there
  · exact .inr ⟨value, here, before, after, split, previous⟩

theorem walkTo_spec {list before after : List Nat} {fuel previous : Nat}
    (chain : Chain kInvalidMapEntry t.link i list) (enough : list.length ≤ fuel)
    (inside : ∀ x ∈ list, x < t.entryUsed) (split : list = before ++ e :: after)
    (first : e ∉ before) :
    t.walkTo e fuel previous i = some (some (before.getLast?.getD previous)) := by
  induction before generalizing list fuel i previous with
  | nil =>
      rw [split] at chain
      obtain ⟨isE, -⟩ := Chain.cons_iff.mp chain
      cases fuel with
      | zero => rw [walkTo, if_pos isE]; rfl
      | succ fuel => rw [walkTo, if_pos isE]; rfl
  | cons x before ih =>
      rw [split] at chain
      obtain ⟨isX, some_, j, link, tail⟩ := Chain.cons_iff.mp chain
      have differs : x ≠ e := fun same => first (same ▸ List.mem_cons_self)
      have here : x < t.entryUsed := inside x (split ▸ List.mem_cons_self)
      have next : t.hashNext x = j := Option.some.inj link
      cases fuel with
      | zero =>
          rw [split] at enough
          simp at enough
      | succ fuel =>
          rw [walkTo, isX, if_neg differs, if_neg some_, if_neg (Nat.not_le.mpr here), next,
            ih tail _ _ rfl fun member => first (List.mem_cons_of_mem _ member), getLastD_cons]
          · rw [split] at enough
            exact Nat.le_of_succ_le_succ enough
          · intro y member
            exact inside y (split ▸ List.mem_cons_of_mem _ member)

end Walks

section Push

variable {b' : Nat}

def pushed (t : JSLinkedHashMap κ ν) (bucket : Nat) (key : κ) (value : ν) : JSLinkedHashMap κ ν :=
  { t with
    entryUsed := t.entryUsed + 1
    weakBuckets := if t.isWeak then Function.update t.weakBuckets t.entryUsed bucket
      else t.weakBuckets
    hashNext := Function.update t.hashNext t.entryUsed (t.buckets bucket)
    entries := Function.update t.entries t.entryUsed (some (key, value))
    buckets := Function.update t.buckets bucket t.entryUsed
    liveCount := t.liveCount + 1 }

theorem pushEntry_eq (room : t.entryUsed < t.entryCapacity) :
    t.pushEntry b key value = some (pushed t b key value) := by
  rw [pushEntry, if_pos room, pushed]

@[simp] theorem pushed_bucketOf (k : κ) :
    (pushed t b key value).bucketOf keys k = t.bucketOf keys k := rfl

theorem pushed_entries (i : Nat) : (pushed t b key value).entries i
    = if i = t.entryUsed then some (key, value) else t.entries i := by
  simp [pushed, Function.update_apply]

theorem pushed_chainOf (b' : Nat) :
    (pushed t (t.bucketOf keys key) key value).chainOf keys b'
      = if t.bucketOf keys key = b' then t.entryUsed :: t.chainOf keys b' else t.chainOf keys b' := by
  have old : ∀ i ∈ (List.range t.entryUsed).reverse,
      (pushed t (t.bucketOf keys key) key value).inBucket keys b' i = t.inBucket keys b' i := by
    intro i member
    have inside : i ≠ t.entryUsed := by
      intro same
      rw [same] at member
      simp at member
    simp [inBucket, pushed_entries, inside]
  have new : (pushed t (t.bucketOf keys key) key value).inBucket keys b' t.entryUsed
      = (t.bucketOf keys key == b') := by
    simp [inBucket, pushed_entries]
  have used : (pushed t (t.bucketOf keys key) key value).entryUsed = t.entryUsed + 1 := rfl
  rw [chainOf, used, List.range_succ, List.reverse_append, List.reverse_singleton,
    List.singleton_append, List.filter_cons, new, List.filter_congr old]
  simp [chainOf]

theorem TableInv.pushed (inv : TableInv keys t) (room : t.entryUsed < t.entryCapacity)
    (key : κ) (value : ν) : TableInv keys (pushed t (t.bucketOf keys key) key value) where
  power := inv.power
  used := by
    have used := inv.used
    simp only [LinkedHashMap.pushed]
    omega
  fits := room
  small := inv.small
  counted := by
    have old : ∀ i ∈ List.range t.entryUsed,
        ((LinkedHashMap.pushed t (t.bucketOf keys key) key value).isLive i = true
          ↔ t.isLive i = true) := by
      intro i member
      have inside : i ≠ t.entryUsed := Nat.ne_of_lt (List.mem_range.mp member)
      simp [isLive, pushed_entries, inside]
    have new : (LinkedHashMap.pushed t (t.bucketOf keys key) key value).isLive t.entryUsed
        = true := by
      simp [isLive, pushed_entries]
    have used : (LinkedHashMap.pushed t (t.bucketOf keys key) key value).entryUsed
        = t.entryUsed + 1 := rfl
    rw [used, List.range_succ, List.countP_append, List.countP_congr old, List.countP_singleton,
      new, ← inv.counted]
    rfl
  unused i beyond := by
    have beyond' : t.entryUsed + 1 ≤ i := beyond
    rw [pushed_entries, if_neg (by omega)]
    exact inv.unused i (by omega)
  linked b' inside := by
    have chain := inv.linked b' inside
    have fresh : ∀ x ∈ t.chainOf keys b', x ≠ t.entryUsed := by
      intro x member
      obtain ⟨k, v, here, -⟩ := inv.mem_chainOf.mp member
      exact Nat.ne_of_lt (inv.lt_used here)
    have kept : Chain kInvalidMapEntry
        (LinkedHashMap.pushed t (t.bucketOf keys key) key value).link (t.buckets b')
        (t.chainOf keys b') := by
      apply chain.congr
      intro x member
      simp [link, LinkedHashMap.pushed, fresh x member]
    rw [pushed_chainOf]
    by_cases same : t.bucketOf keys key = b'
    · have invalid : t.entryUsed ≠ kInvalidMapEntry :=
        Nat.ne_of_lt (Nat.lt_trans room inv.small)
      rw [if_pos same]
      have first : (LinkedHashMap.pushed t (t.bucketOf keys key) key value).buckets b'
          = t.entryUsed := by
        simp [LinkedHashMap.pushed, same]
      rw [first]
      apply Chain.cons invalid _ kept
      simp [link, LinkedHashMap.pushed, same]
    · rw [if_neg same]
      have first : (LinkedHashMap.pushed t (t.bucketOf keys key) key value).buckets b'
          = t.buckets b' := by
        simp [LinkedHashMap.pushed, Ne.symm same]
      rw [first]
      exact kept
  recorded isWeak i k v here := by
    have weak : t.isWeak = true := isWeak
    rw [pushed_entries] at here
    rw [pushed_bucketOf]
    by_cases isNew : i = t.entryUsed
    · rw [if_pos isNew, Option.some.injEq, Prod.mk.injEq] at here
      rw [← here.1]
      simp [LinkedHashMap.pushed, weak, isNew]
    · rw [if_neg isNew] at here
      have old := inv.recorded weak i k v here
      simpa [LinkedHashMap.pushed, weak, isNew] using old

end Push

section Unlink

variable {previous : Nat}

@[simp] theorem unlinkEntry_bucketOf (k : κ) :
    (t.unlinkEntry b previous e).bucketOf keys k = t.bucketOf keys k := rfl

theorem unlinkEntry_entries (i : Nat) :
    (t.unlinkEntry b previous e).entries i = if i = e then none else t.entries i := by
  simp [unlinkEntry, relink, Function.update_apply]

theorem unlinkEntry_inBucket (b' i : Nat) :
    (t.unlinkEntry b previous e).inBucket keys b' i = (decide (i ≠ e) && t.inBucket keys b' i) := by
  by_cases same : i = e
  · simp [inBucket, unlinkEntry_entries, same]
  · simp [inBucket, unlinkEntry_entries, same]

theorem unlinkEntry_chainOf (b' : Nat) : (t.unlinkEntry b previous e).chainOf keys b'
    = (t.chainOf keys b').filter (fun i => decide (i ≠ e)) := by
  have used : (t.unlinkEntry b previous e).entryUsed = t.entryUsed := rfl
  rw [chainOf, chainOf, List.filter_filter, used]
  congr 1
  funext i
  exact unlinkEntry_inBucket b' i

/-- The chain of the bucket loses the entry. -/
theorem unlinkEntry_chain {list : List Nat} (chain : Chain kInvalidMapEntry t.link (t.buckets b) list)
    (follows : Follows list previous e) :
    Chain kInvalidMapEntry (t.unlinkEntry b previous e).link
      ((t.unlinkEntry b previous e).buckets b) (list.filter (fun i => decide (i ≠ e))) := by
  obtain ⟨before, after, split, previous_⟩ := follows
  have distinct := chain.nodup
  rw [split] at chain distinct
  have notBefore : e ∉ before := fun member =>
    (List.nodup_append.mp distinct).2.2 e member e List.mem_cons_self rfl
  have notAfter : e ∉ after := (List.nodup_cons.mp distinct.of_append_right).1
  have rest : list.filter (fun i => decide (i ≠ e)) = before ++ after := by
    have keepBefore : before.filter (fun i => decide (i ≠ e)) = before :=
      List.filter_eq_self.mpr fun x member => decide_eq_true fun same => notBefore (same ▸ member)
    have keepAfter : after.filter (fun i => decide (i ≠ e)) = after :=
      List.filter_eq_self.mpr fun x member => decide_eq_true fun same => notAfter (same ▸ member)
    rw [split, List.filter_append, List.filter_cons, keepBefore, keepAfter]
    simp
  rw [rest]
  rcases List.eq_nil_or_concat before with none_ | ⟨earlier, p, some_⟩
  · -- the entry is the first of its bucket
    rw [none_] at chain previous_ ⊢
    have first : previous = kInvalidMapEntry := previous_
    obtain ⟨-, -, j, link, tail⟩ := Chain.cons_iff.mp chain
    have next : t.hashNext e = j := Option.some.inj link
    have head : (t.unlinkEntry b previous e).buckets b = j := by
      simp [unlinkEntry, relink, first, next]
    rw [head]
    apply tail.congr
    intro x member
    have differs : x ≠ e := fun same => notAfter (same ▸ member)
    simp [JSLinkedHashMap.link, unlinkEntry, relink, first, differs]
  · -- the entry before it gets its link
    have isP : previous = p := by
      rw [previous_, some_]
      simp
    rw [some_] at chain distinct notBefore ⊢
    rw [List.concat_eq_append] at chain distinct notBefore ⊢
    rw [List.append_assoc, List.singleton_append] at chain distinct ⊢
    have valid : p ≠ kInvalidMapEntry := by
      intro same
      apply chain.stop_notMem
      rw [same]
      simp
    have differs : p ≠ e := fun same => notBefore (by simp [same])
    have head : (t.unlinkEntry b previous e).buckets b = t.buckets b := by
      simp [unlinkEntry, relink, isP, valid]
    rw [head]
    have moved : Chain kInvalidMapEntry (Function.update t.link p (t.link e)) (t.buckets b)
        (earlier ++ p :: after) :=
      chain.unlink (by simp) fun q other => by simp [other]
    apply moved.congr
    intro x member
    have notE : x ≠ e := by
      intro same
      rw [same] at member
      rcases List.mem_append.mp member with early | late
      · exact notBefore (List.mem_append_left _ early)
      · rcases List.mem_cons.mp late with isP | later
        · exact differs isP.symm
        · exact notAfter later
    by_cases isX : x = p
    · simp [JSLinkedHashMap.link, unlinkEntry, relink, isP, valid, isX, differs]
    · simp [JSLinkedHashMap.link, unlinkEntry, relink, isP, valid, isX, notE]

theorem countP_range_split {n : Nat} (p p' : Nat → Bool) (inside : e < n) (was : p e = true)
    (now : p' e = false) (others : ∀ i, i ≠ e → p' i = p i) :
    (List.range n).countP p' + 1 = (List.range n).countP p := by
  have member : e ∈ List.range n := List.mem_range.mpr inside
  have perm := List.perm_cons_erase member
  have rest : ((List.range n).erase e).countP p' = ((List.range n).erase e).countP p := by
    apply List.countP_congr
    intro i there
    have differs : i ≠ e := (List.nodup_range.mem_erase_iff.mp there).1
    rw [others i differs]
  rw [perm.countP_eq p', perm.countP_eq p, List.countP_cons, List.countP_cons, rest, was, now]
  simp

theorem TableInv.unlinkEntry (inv : TableInv keys t) (here : t.entries e = some (key, value))
    (bucket : b = t.bucketOf keys key) (follows : Follows (t.chainOf keys b) previous e) :
    TableInv keys (t.unlinkEntry b previous e) := by
  have inside := inv.lt_used here
  have counted : (List.range t.entryUsed).countP (t.unlinkEntry b previous e).isLive + 1
      = (List.range t.entryUsed).countP t.isLive := by
    apply countP_range_split t.isLive _ inside
    · simp [isLive, here]
    · simp [isLive, unlinkEntry_entries]
    · intro i differs
      simp [isLive, unlinkEntry_entries, differs]
  have live := inv.counted
  have inBucket_ : b < t.bucketCount := bucket ▸ inv.bucketOf_lt key
  constructor
  case power => exact inv.power
  case used =>
    have used := inv.used
    show t.entryUsed = t.liveCount - 1 + (t.deletedCount + 1)
    omega
  case fits => exact inv.fits
  case small => exact inv.small
  case counted =>
    show t.liveCount - 1 = (List.range t.entryUsed).countP _
    omega
  case unused =>
    intro i beyond
    rw [unlinkEntry_entries, inv.unused i beyond]
    simp
  case linked =>
    intro b' inside'
    rw [unlinkEntry_chainOf]
    by_cases same : b' = b
    · rw [same]
      exact unlinkEntry_chain (inv.linked b inBucket_) follows
    · have elsewhere (x : Nat) (member : x ∈ t.chainOf keys b') : x ∉ t.chainOf keys b := by
        intro also
        obtain ⟨k, v, there, its⟩ := inv.mem_chainOf.mp member
        obtain ⟨k', v', there', its'⟩ := inv.mem_chainOf.mp also
        rw [there, Option.some.injEq, Prod.mk.injEq] at there'
        rw [there'.1, its'] at its
        exact same its.symm
      obtain ⟨before, after, split, previous_⟩ := follows
      have notE : ∀ x ∈ t.chainOf keys b', x ≠ e := by
        intro x member isE
        apply elsewhere x member
        rw [split, isE]
        simp
      have kept : (t.chainOf keys b').filter (fun i => decide (i ≠ e)) = t.chainOf keys b' :=
        List.filter_eq_self.mpr fun x member => decide_eq_true (notE x member)
      have head : (t.unlinkEntry b previous e).buckets b' = t.buckets b' := by
        by_cases first : previous = kInvalidMapEntry
        · simp [JSLinkedHashMap.unlinkEntry, relink, first, same]
        · simp [JSLinkedHashMap.unlinkEntry, relink, first]
      rw [kept, head]
      apply (inv.linked b' inside').congr
      intro x member
      have notPrevious : previous ≠ kInvalidMapEntry → x ≠ previous := by
        intro valid isPrevious
        apply elsewhere x member
        cases last : before.getLast? with
        | none =>
            rw [last] at previous_
            exact absurd previous_ valid
        | some p =>
            have isP : previous = p := by
              rw [previous_, last]
              rfl
            rw [split, isPrevious, isP]
            exact List.mem_append_left _ (List.mem_of_getLast? last)
      by_cases first : previous = kInvalidMapEntry
      · simp [JSLinkedHashMap.link, JSLinkedHashMap.unlinkEntry, relink, first, notE x member]
      · simp [JSLinkedHashMap.link, JSLinkedHashMap.unlinkEntry, relink, first, notE x member,
          notPrevious first]
  case recorded =>
    intro isWeak i k v there
    rw [unlinkEntry_entries] at there
    by_cases same : i = e
    · simp [same] at there
    · rw [if_neg same] at there
      exact inv.recorded isWeak i k v there

/-- The entry of a dead key leaves the chain of the bucket stored for it. -/
theorem TableInv.removeDeadWeakEntry (inv : TableInv keys t) (isWeak : t.isWeak = true)
    (here : t.entries e = some (key, value)) :
    ∃ previous, t.removeDeadWeakEntry e = some (t.unlinkEntry (t.bucketOf keys key) previous e)
      ∧ TableInv keys (t.unlinkEntry (t.bucketOf keys key) previous e) := by
  have inside := inv.lt_used here
  have stored := inv.recorded isWeak e key value here
  have inBucket_ := inv.bucketOf_lt key
  have member : e ∈ t.chainOf keys (t.bucketOf keys key) :=
    inv.mem_chainOf.mpr ⟨key, value, here, rfl⟩
  obtain ⟨before, after, split⟩ := List.append_of_mem member
  have distinct : (before ++ e :: after).Nodup := split ▸ chainOf_nodup
  have notBefore : e ∉ before := fun member =>
    (List.nodup_append.mp distinct).2.2 e member e List.mem_cons_self rfl
  have inUse : ∀ x ∈ t.chainOf keys (t.bucketOf keys key), x < t.entryUsed := by
    intro x member
    obtain ⟨k, v, there, -⟩ := inv.mem_chainOf.mp member
    exact inv.lt_used there
  have walk : t.walkTo e t.entryUsed kInvalidMapEntry (t.buckets (t.bucketOf keys key))
      = some (some (before.getLast?.getD kInvalidMapEntry)) :=
    walkTo_spec (inv.linked _ inBucket_) chainOf_length_le inUse split notBefore
  refine ⟨before.getLast?.getD kInvalidMapEntry, ?_,
    inv.unlinkEntry here rfl ⟨before, after, split, rfl⟩⟩
  have live : t.isLive e ≠ false := by
    simp [isLive, here]
  have weak : ¬ (t.isWeak = false ∨ e ≥ t.entryUsed) := by
    rw [isWeak]
    simp [inside]
  rw [JSLinkedHashMap.removeDeadWeakEntry, if_neg weak, if_neg live]
  simp only [stored, if_neg (Nat.not_le.mpr inBucket_), walk, Option.bind_eq_bind, Option.bind_some]

end Unlink

end PrimJs.LinkedHashMap
