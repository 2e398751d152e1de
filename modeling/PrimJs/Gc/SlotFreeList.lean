import Mathlib.Logic.Function.Basic
import PrimJs.Foundation.Chain

/-! `FreeList`: the free slots of a run, linked through their first words. An address is a number, and
0 is the null pointer. -/

namespace PrimJs

abbrev SlotWords := Nat → BitVec 64

namespace SlotWords

def getNext (mem : SlotWords) (slot : Nat) : Nat := (mem slot).toNat

def setNext (mem : SlotWords) (slot next : Nat) : SlotWords :=
  Function.update mem slot (BitVec.ofNat 64 next)

/-- The high half of the word has the allocated bit as its highest. -/
def isAllocatedByAllocator (mem : SlotWords) (slot : Nat) : Bool := (mem slot).getLsbD 63

end SlotWords

structure FreeList where
  head : Nat
  tail : Nat
  deriving DecidableEq, Repr

namespace FreeList

def empty : FreeList := ⟨0, 0⟩

def insert (f : FreeList) (mem : SlotWords) (addr : Nat) : FreeList × SlotWords :=
  (⟨addr, if f.tail = 0 then addr else f.tail⟩, mem.setNext addr f.head)

/-- The slot, or 0. -/
def fetch (f : FreeList) (mem : SlotWords) : Nat × FreeList :=
  if f.head = 0 then (0, f)
  else
    let next := mem.getNext f.head
    (f.head, ⟨next, if next = 0 then 0 else f.tail⟩)

/-- The other list, which must not be empty, comes first and is cleared. -/
def prepend (f other : FreeList) (mem : SlotWords) : Option (FreeList × SlotWords) :=
  if other.head = 0 then none
  else
    some (⟨other.head, if f.tail = 0 then other.tail else f.tail⟩, mem.setNext other.tail f.head)

/-- The loop of `Init`: the last slot is linked to as many others as are left. -/
def initLoop (slotSize : Nat) : Nat → SlotWords → Nat → SlotWords × Nat
  | 0, mem, last => (mem, last)
  | n + 1, mem, last => initLoop slotSize n (mem.setNext last (last + slotSize)) (last + slotSize)

def init (mem : SlotWords) (baseAddr slotSize slotCount : Nat) : Option (FreeList × SlotWords) :=
  if slotCount = 0 then none
  else
    let (mem, last) := initLoop slotSize (slotCount - 1) mem baseAddr
    some (⟨baseAddr, last⟩, mem.setNext last 0)

/-! What a list stands for. -/

def slotNext (mem : SlotWords) (slot : Nat) : Option Nat := some (mem.getNext slot)

/-- The slots of the list, in the order in which they are fetched. -/
structure Spells (f : FreeList) (mem : SlotWords) (slots : List Nat) : Prop where
  chain : Chain 0 (slotNext mem) f.head slots
  tail : f.tail = slots.getLastD 0

variable {f other : FreeList} {mem mem' : SlotWords} {slots rest : List Nat} {addr next slot : Nat}

theorem getNext_setNext_self (small : next < 2 ^ 64) : (mem.setNext addr next).getNext addr = next := by
  rw [SlotWords.getNext, SlotWords.setNext, Function.update_self, BitVec.toNat_ofNat,
    Nat.mod_eq_of_lt small]

theorem setNext_of_ne (other : slot ≠ addr) : mem.setNext addr next slot = mem slot :=
  Function.update_of_ne other _ _

theorem isAllocated_setNext_self (small : next < 2 ^ 63) :
    (mem.setNext addr next).isAllocatedByAllocator addr = false := by
  rw [SlotWords.isAllocatedByAllocator, SlotWords.setNext, Function.update_self, BitVec.getLsbD_ofNat,
    Nat.testBit_lt_two_pow small, Bool.and_false]

theorem isAllocated_setNext_of_ne (other : slot ≠ addr) :
    (mem.setNext addr next).isAllocatedByAllocator slot = mem.isAllocatedByAllocator slot := by
  rw [SlotWords.isAllocatedByAllocator, setNext_of_ne other, SlotWords.isAllocatedByAllocator]

theorem empty_spells : empty.Spells mem [] := ⟨.nil, rfl⟩

theorem Spells.congr (spells : f.Spells mem slots) (same : ∀ slot ∈ slots, mem' slot = mem slot) :
    f.Spells mem' slots where
  chain := spells.chain.congr fun slot member => by
    rw [slotNext, slotNext, SlotWords.getNext, same slot member, SlotWords.getNext]
  tail := spells.tail

theorem Spells.nil_iff (spells : f.Spells mem slots) : f.head = 0 ↔ slots = [] := by
  constructor
  · intro null
    have chain := spells.chain
    rw [null] at chain
    exact chain.unique .nil
  · intro none_
    have chain := spells.chain
    rw [none_] at chain
    exact Chain.nil_iff.mp chain

theorem slots_concat (some_ : slots ≠ []) : ∃ front last, slots = front ++ [last] := by
  rcases slots.eq_nil_or_concat with none_ | ⟨front, last, split_⟩
  · exact absurd none_ some_
  · exact ⟨front, last, by rw [split_, List.concat_eq_append]⟩

theorem Spells.tail_eq_zero_iff (spells : f.Spells mem slots) : f.tail = 0 ↔ slots = [] := by
  rw [spells.tail]
  rcases slots.eq_nil_or_concat with none_ | ⟨front, last, some_⟩
  · simp [none_]
  · have notNull : last ≠ 0 := by
      intro null
      have stop := spells.chain.stop_notMem
      rw [some_, null] at stop
      simp at stop
    simp [some_, notNull]

theorem Spells.head_lt (spells : f.Spells mem slots) (small : ∀ slot ∈ slots, slot < 2 ^ 63) :
    f.head < 2 ^ 63 := by
  cases slots with
  | nil => rw [spells.nil_iff.mpr rfl]; decide
  | cons first rest =>
      rw [(Chain.cons_iff.mp spells.chain).1]
      exact small first List.mem_cons_self

theorem insert_spells (spells : f.Spells mem slots) (some_ : addr ≠ 0) (fresh : addr ∉ slots)
    (small : f.head < 2 ^ 63) :
    (f.insert mem addr).1.Spells (f.insert mem addr).2 (addr :: slots) := by
  refine ⟨?_, ?_⟩
  · refine .cons some_ (j := f.head) ?_ ?_
    · rw [slotNext, insert, getNext_setNext_self (by omega)]
    · refine (spells.congr fun slot member => ?_).chain
      exact setNext_of_ne fun same => fresh (by rwa [← same])
  · rw [insert]
    by_cases none_ : slots = []
    · rw [if_pos (spells.tail_eq_zero_iff.mpr none_), none_]
      rfl
    · rw [if_neg (mt spells.tail_eq_zero_iff.mp none_), spells.tail]
      cases slots with
      | nil => exact absurd rfl none_
      | cons _ _ => rfl

theorem fetch_nil (spells : f.Spells mem []) : f.fetch mem = (0, f) := by
  rw [fetch, if_pos (spells.nil_iff.mpr rfl)]

theorem fetch_spells (spells : f.Spells mem (addr :: rest)) :
    ∃ f', f.fetch mem = (addr, f') ∧ f'.Spells mem rest := by
  have ⟨first, some_, next, link, tail⟩ := Chain.cons_iff.mp spells.chain
  rw [slotNext, Option.some.injEq] at link
  refine ⟨_, by rw [fetch, first, if_neg some_, link], tail, ?_⟩
  have last := spells.tail
  cases rest with
  | nil => rw [if_pos (Chain.nil_iff.mp tail)]; rfl
  | cons second rest =>
      have ⟨same, notNull, _⟩ := Chain.cons_iff.mp tail
      rw [if_neg (by rwa [same])]
      exact last

theorem prepend_spells (spells : f.Spells mem slots) (spells' : other.Spells mem rest)
    (some_ : rest ≠ []) (apart : ∀ slot ∈ slots, slot ∉ rest) (small : f.head < 2 ^ 63) :
    ∃ f' mem', f.prepend other mem = some (f', mem') ∧ f'.Spells mem' (rest ++ slots) ∧
      (∀ slot, slot ∉ rest → mem' slot = mem slot) ∧
      ∀ slot ∈ rest, mem.isAllocatedByAllocator slot = false →
        mem'.isAllocatedByAllocator slot = false := by
  have ⟨front, last, split_⟩ := slots_concat some_
  have tailIs : other.tail = last := by rw [spells'.tail, split_, List.getLastD_concat]
  have inRest : last ∈ rest := by
    rw [split_]
    exact List.mem_append_right _ List.mem_cons_self
  have chain := spells'.chain
  have distinct := chain.nodup
  rw [split_] at chain distinct
  have ⟨_, _, frontApart⟩ := List.nodup_append.mp distinct
  refine ⟨_, _, by rw [prepend, if_neg (mt spells'.nil_iff.mp some_)], ⟨?_, ?_⟩, ?_, ?_⟩
  · rw [tailIs, split_, List.append_assoc, List.singleton_append]
    refine chain.append_congr (.cons ?_ (j := f.head) ?_ ?_) fun slot member => ?_
    · intro null
      rw [null] at inRest
      exact spells'.chain.stop_notMem inRest
    · rw [slotNext, getNext_setNext_self (by omega)]
    · refine (spells.congr fun slot member => ?_).chain
      exact setNext_of_ne fun same => apart slot member (by rwa [same])
    · rw [slotNext, slotNext, SlotWords.getNext, SlotWords.getNext,
        setNext_of_ne (frontApart slot member last List.mem_cons_self)]
  · dsimp only
    by_cases none_ : slots = []
    · rw [if_pos (spells.tail_eq_zero_iff.mpr none_), none_, List.append_nil, spells'.tail]
    · obtain ⟨front', last', split'⟩ := slots_concat none_
      rw [if_neg (mt spells.tail_eq_zero_iff.mp none_), spells.tail, split', ← List.append_assoc,
        List.getLastD_concat, List.getLastD_concat]
  · intro slot outside
    rw [tailIs]
    exact setNext_of_ne fun same => outside (by rwa [same])
  · intro slot _ free
    rw [tailIs]
    by_cases same : slot = last
    · rw [same, isAllocated_setNext_self small]
    · rw [isAllocated_setNext_of_ne same, free]

/-! The slots of a new run. -/

/-- So many slots one after the other. -/
def slotAddrs (baseAddr slotSize : Nat) : Nat → List Nat
  | 0 => []
  | n + 1 => baseAddr :: slotAddrs (baseAddr + slotSize) slotSize n

theorem mem_slotAddrs {base size n : Nat} :
    addr ∈ slotAddrs base size n ↔ ∃ i < n, addr = base + i * size := by
  induction n generalizing base with
  | zero => simp [slotAddrs]
  | succ n ih =>
      rw [slotAddrs, List.mem_cons, ih]
      constructor
      · rintro (here | ⟨i, bound, here⟩)
        · exact ⟨0, Nat.succ_pos n, by rw [here, Nat.zero_mul, Nat.add_zero]⟩
        · exact ⟨i + 1, Nat.succ_lt_succ bound, by rw [here, Nat.succ_mul]; omega⟩
      · intro ⟨i, bound, here⟩
        cases i with
        | zero => exact .inl (by rw [here, Nat.zero_mul, Nat.add_zero])
        | succ i =>
            exact .inr ⟨i, Nat.lt_of_succ_lt_succ bound, by rw [here, Nat.succ_mul]; omega⟩

theorem slotAddrs_concat (base size n : Nat) :
    slotAddrs base size (n + 1) = slotAddrs base size n ++ [base + n * size] := by
  induction n generalizing base with
  | zero => simp [slotAddrs]
  | succ n ih =>
      have shift : base + size + n * size = base + (n + 1) * size := by
        rw [Nat.succ_mul]
        omega
      rw [slotAddrs, ih, shift]
      rfl

theorem slotAddrs_length (base size n : Nat) : (slotAddrs base size n).length = n := by
  induction n generalizing base with
  | zero => rfl
  | succ n ih => rw [slotAddrs, List.length_cons, ih]

theorem slotAddrs_nodup {size : Nat} (some_ : 0 < size) (base n : Nat) :
    (slotAddrs base size n).Nodup := by
  induction n generalizing base with
  | zero => exact List.nodup_nil
  | succ n ih =>
      refine List.nodup_cons.mpr ⟨fun again => ?_, ih _⟩
      have ⟨i, _, same⟩ := mem_slotAddrs.mp again
      omega

/-- The loop links each slot but the last to the next one. -/
theorem initLoop_spec {size : Nat} (some_ : 0 < size) (n : Nat) : ∀ (mem : SlotWords) (base : Nat),
    ∃ mem', initLoop size n mem base = (mem', base + n * size) ∧
      (∀ i < n, mem' (base + i * size) = BitVec.ofNat 64 (base + (i + 1) * size)) ∧
      ∀ slot, (∀ i < n, slot ≠ base + i * size) → mem' slot = mem slot := by
  induction n with
  | zero => exact fun mem base => ⟨mem, by simp [initLoop], by simp, by simp⟩
  | succ n ih =>
      intro mem base
      have ⟨mem', run, links, others⟩ := ih (mem.setNext base (base + size)) (base + size)
      have shift : ∀ i, base + size + i * size = base + (i + 1) * size := by
        intro i
        rw [Nat.succ_mul]
        omega
      refine ⟨mem', by rw [initLoop, run, shift], fun i bound => ?_, fun slot outside => ?_⟩
      · cases i with
        | zero =>
            rw [Nat.zero_mul, Nat.add_zero, others base fun i _ => by omega, SlotWords.setNext,
              Function.update_self, Nat.zero_add, Nat.one_mul]
        | succ i =>
            rw [← shift, links i (Nat.lt_of_succ_lt_succ bound), shift]
      · have first : slot ≠ base := by
          have apart := outside 0 (Nat.succ_pos n)
          rwa [Nat.zero_mul, Nat.add_zero] at apart
        rw [others slot fun i bound => ?_, setNext_of_ne first]
        rw [shift]
        exact outside (i + 1) (Nat.succ_lt_succ bound)

theorem chain_slotAddrs {size : Nat} (n : Nat) : ∀ base, 0 < base →
    (∀ i < n, mem.getNext (base + i * size) = base + (i + 1) * size) →
    mem.getNext (base + n * size) = 0 → Chain 0 (slotNext mem) base (slotAddrs base size (n + 1)) := by
  induction n with
  | zero =>
      intro base notNull _ last
      rw [Nat.zero_mul, Nat.add_zero] at last
      exact .cons (Nat.ne_of_gt notNull) (by rw [slotNext, last]) .nil
  | succ n ih =>
      intro base notNull links last
      have shift : ∀ i, base + size + i * size = base + (i + 1) * size := by
        intro i
        rw [Nat.succ_mul]
        omega
      have first := links 0 (Nat.succ_pos n)
      rw [Nat.zero_mul, Nat.add_zero, Nat.zero_add, Nat.one_mul] at first
      refine .cons (Nat.ne_of_gt notNull) (j := base + size) (by rw [slotNext, first]) ?_
      refine ih (base + size) (by omega) (fun i bound => ?_) (by rw [shift, last])
      rw [shift, shift, links (i + 1) (Nat.succ_lt_succ bound)]

theorem init_spells (mem : SlotWords) {size base n : Nat} (some_ : 0 < size) (notNull : 0 < base)
    (small : base + n * size ≤ 2 ^ 63) (slots : 0 < n) :
    ∃ f mem', init mem base size n = some (f, mem') ∧ f.Spells mem' (slotAddrs base size n) ∧
      (∀ slot ∈ slotAddrs base size n, mem'.isAllocatedByAllocator slot = false) ∧
      ∀ slot, slot ∉ slotAddrs base size n → mem' slot = mem slot := by
  obtain ⟨n, rfl⟩ := Nat.exists_eq_succ_of_ne_zero (Nat.ne_of_gt slots)
  have ⟨mem', run, links, others⟩ := initLoop_spec some_ n mem base
  have bound : ∀ i < n, base + (i + 1) * size < 2 ^ 63 := by
    intro i low
    have reach := Nat.mul_le_mul_right size (Nat.succ_le_of_lt low)
    rw [Nat.succ_mul n] at small
    simp only [Nat.succ_eq_add_one] at reach
    omega
  have apart : ∀ i < n, base + i * size ≠ base + n * size := by
    intro i low same
    exact Nat.ne_of_lt low (Nat.eq_of_mul_eq_mul_right some_ (Nat.add_left_cancel same))
  have link : ∀ i < n, (mem'.setNext (base + n * size) 0) (base + i * size) =
      BitVec.ofNat 64 (base + (i + 1) * size) := by
    intro i low
    rw [setNext_of_ne (apart i low), links i low]
  refine ⟨_, _, by rw [init, if_neg (Nat.succ_ne_zero n), Nat.succ_sub_one, run], ⟨?_, ?_⟩, ?_, ?_⟩
  · refine chain_slotAddrs n base notNull (fun i low => ?_) (getNext_setNext_self (by decide))
    rw [SlotWords.getNext, link i low, BitVec.toNat_ofNat, Nat.mod_eq_of_lt]
    have below := bound i low
    omega
  · rw [slotAddrs_concat, List.getLastD_concat]
  · intro slot member
    have ⟨i, low, same⟩ := mem_slotAddrs.mp member
    rw [same]
    by_cases last : i = n
    · rw [last]
      exact isAllocated_setNext_self (by decide)
    · have below : i < n := by omega
      rw [SlotWords.isAllocatedByAllocator, link i below, BitVec.getLsbD_ofNat,
        Nat.testBit_lt_two_pow (bound i below), Bool.and_false]
  · intro slot outside
    have outside' : ∀ i < n + 1, slot ≠ base + i * size := fun i low same =>
      outside (mem_slotAddrs.mpr ⟨i, low, same⟩)
    rw [setNext_of_ne (outside' n (Nat.lt_succ_self n)),
      others slot fun i low => outside' i (Nat.lt_succ_of_lt low)]

end FreeList

end PrimJs
