import Mathlib.Tactic
import Mathlib.Data.List.Basic
import Mathlib.Logic.Function.Basic

/-! `LocalDeque`: a fixed array on the stack, and a `SingleUseDeque` for what does not fit. -/

namespace PrimJs

variable {V : Type}

/-- The values at `start`, `start + 1`, and so on. -/
def window (mem : Nat → V) (start len : Nat) : List V := (List.range' start len).map mem

section Window

variable {mem mem' : Nat → V} {start len : Nat}

@[simp] theorem window_zero : window mem start 0 = [] := rfl

@[simp] theorem window_length : (window mem start len).length = len := by
  simp [window]

theorem window_succ : window mem start (len + 1) = mem start :: window mem (start + 1) len := by
  simp [window, List.range'_succ]

theorem window_concat : window mem start (len + 1) = window mem start len ++ [mem (start + len)] := by
  simp [window, List.range'_concat]

theorem window_congr (same : ∀ i, start ≤ i → i < start + len → mem i = mem' i) :
    window mem start len = window mem' start len := by
  refine List.map_congr_left fun i member => ?_
  obtain ⟨low, high⟩ := List.mem_range'_1.mp member
  exact same i low high

end Window

/-- The region is an array of values: `top` is `(topAddr - beginAddr) / kValSize`. The region is
large enough for every `Push`, which asserts it. -/
structure SingleUseDeque (V : Type) where
  mem : Nat → V
  front : Nat
  top : Int

namespace SingleUseDeque

def empty (d : SingleUseDeque V) : Bool := d.top < d.front

def push (d : SingleUseDeque V) (v : V) : SingleUseDeque V :=
  { d with top := d.top + 1, mem := Function.update d.mem (d.top + 1).toNat v }

def getTop (d : SingleUseDeque V) : V := d.mem d.top.toNat

def pop (d : SingleUseDeque V) : SingleUseDeque V := { d with top := d.top - 1 }

def getFront (d : SingleUseDeque V) : V := d.mem d.front

def popFront (d : SingleUseDeque V) : SingleUseDeque V := { d with front := d.front + 1 }

def clear (d : SingleUseDeque V) : SingleUseDeque V := { d with front := 0, top := -1 }

def count (d : SingleUseDeque V) : Nat := (d.top + 1 - d.front).toNat

def content (d : SingleUseDeque V) : List V := window d.mem d.front d.count

def Inv (d : SingleUseDeque V) : Prop := (d.front : Int) ≤ d.top + 1

variable {d : SingleUseDeque V}

@[simp] theorem content_length : d.content.length = d.count := window_length

theorem inv_clear : d.clear.Inv := by
  simp [Inv, clear]

@[simp] theorem content_clear : d.clear.content = [] := by
  simp [content, count, clear]

theorem inv_push (inv : d.Inv) (v : V) : (d.push v).Inv := by
  unfold Inv push at *
  dsimp only
  omega

@[simp] theorem content_push (inv : d.Inv) (v : V) : (d.push v).content = d.content ++ [v] := by
  unfold Inv at inv
  have more : (d.push v).count = d.count + 1 := by
    unfold count push
    dsimp only
    omega
  have place : d.front + d.count = (d.top + 1).toNat := by
    unfold count
    omega
  unfold content
  rw [more, window_concat]
  unfold push
  dsimp only
  rw [place, Function.update_self]
  refine congrArg (· ++ [v]) (window_congr fun i low high => ?_)
  exact Function.update_of_ne (by omega) _ _

theorem empty_iff (inv : d.Inv) : d.empty = true ↔ d.content = [] := by
  rw [← List.length_eq_zero_iff, content_length]
  unfold Inv at inv
  unfold empty count
  rw [decide_eq_true_iff]
  omega

/-- The last value, at `Top`. -/
theorem content_pop (some_ : 0 < d.count) : d.content = d.pop.content ++ [d.getTop] := by
  have more : d.count = d.pop.count + 1 := by
    unfold count pop at *
    dsimp only at *
    omega
  have place : d.front + d.pop.count = d.top.toNat := by
    unfold count pop at *
    dsimp only at *
    omega
  unfold content
  rw [more, window_concat]
  exact congrArg (fun v => _ ++ [v]) (congrArg d.mem place)

/-- The first value, at `Front`. -/
theorem content_popFront (some_ : 0 < d.count) :
    d.content = d.getFront :: d.popFront.content := by
  have more : d.count = d.popFront.count + 1 := by
    unfold count popFront at *
    dsimp only at *
    omega
  unfold content
  rw [more, window_succ]
  rfl

end SingleUseDeque

/-- `ALLOCUTIL_PAGE_SIZE / sizeof(ValType)`. -/
def kLocalLength : Nat := 0x4000 / 8

theorem kLocalLength_pos : 0 < kLocalLength := by decide

/-- A deque with its overflow store; `top = kLocalLength` says that the store is in use. -/
structure LocalDeque (V : Type) where
  front : Nat
  top : Int
  sud : SingleUseDeque V
  array : Nat → V

namespace LocalDeque

def empty (d : LocalDeque V) : Bool :=
  decide (d.top < d.front) || (decide (d.front = kLocalLength) && d.sud.empty)

def push (d : LocalDeque V) (v : V) : LocalDeque V :=
  if d.top < kLocalLength - 1 then
    { d with top := d.top + 1, array := Function.update d.array (d.top + 1).toNat v }
  else if d.top = kLocalLength - 1 then
    { d with top := d.top + 1, sud := d.sud.clear.push v }
  else { d with sud := d.sud.push v }

def getTop (d : LocalDeque V) : V :=
  if d.top < kLocalLength then d.array d.top.toNat else d.sud.getTop

def pop (d : LocalDeque V) : LocalDeque V :=
  if d.top < kLocalLength then { d with top := d.top - 1 }
  -- if front is already in sud, there is no need to dec top
  else if d.front < kLocalLength then { d with top := d.top - 1, sud := d.sud.pop }
  else { d with sud := d.sud.pop }

def getFront (d : LocalDeque V) : V :=
  if d.front < kLocalLength then d.array d.front else d.sud.getFront

def popFront (d : LocalDeque V) : LocalDeque V :=
  if d.front < kLocalLength then { d with front := d.front + 1 }
  else { d with sud := d.sud.popFront }

/-- The constructor's deque, over a store that may have been used before. -/
def ofSud (sud : SingleUseDeque V) (array : Nat → V) : LocalDeque V := ⟨0, -1, sud, array⟩

def localCount (d : LocalDeque V) : Nat := (min (d.top + 1) kLocalLength - d.front).toNat

def content (d : LocalDeque V) : List V :=
  window d.array d.front d.localCount ++ if d.top < kLocalLength then [] else d.sud.content

/-- The overflow store is used once the array is full, and it is not empty while the front is
still in the array. -/
structure Inv (d : LocalDeque V) : Prop where
  front_le : d.front ≤ kLocalLength
  front_top : (d.front : Int) ≤ d.top + 1
  top_le : d.top ≤ kLocalLength
  store : d.top = kLocalLength → d.sud.Inv
  used : d.top = kLocalLength → d.front < kLocalLength → 0 < d.sud.count

/-- A `Pop` does not leave elements in the store while the front is still in the array. -/
def PopFits (d : LocalDeque V) : Prop :=
  d.top = kLocalLength → d.front < kLocalLength → d.sud.count ≤ 1

instance (d : LocalDeque V) : Decidable d.PopFits :=
  inferInstanceAs (Decidable (_ → _ → _))

section Operations

variable {d : LocalDeque V}

theorem inv_ofSud (sud : SingleUseDeque V) (array : Nat → V) : (ofSud sud array).Inv :=
  ⟨Nat.zero_le _, by simp [ofSud], by simp [ofSud], fun wrong => by simp [ofSud] at wrong,
    fun wrong => by simp [ofSud] at wrong⟩

theorem content_ofSud (sud : SingleUseDeque V) (array : Nat → V) :
    (ofSud sud array).content = [] := by
  have none_ : (ofSud sud array).localCount = 0 := by
    unfold localCount ofSud
    dsimp only
    omega
  have unused : (ofSud sud array).top < kLocalLength := by
    unfold ofSud
    dsimp only
    omega
  rw [content, none_, window_zero, if_pos unused, List.append_nil]

/-- While the store is not in use, the elements are those of the array. -/
theorem content_local (inside : d.top < kLocalLength) :
    d.content = window d.array d.front (d.top + 1 - d.front).toNat := by
  have few : d.localCount = (d.top + 1 - d.front).toNat := by
    unfold localCount
    omega
  rw [content, few, if_pos inside, List.append_nil]

theorem content_stored (outside : d.top = kLocalLength) :
    d.content = window d.array d.front (kLocalLength - d.front) ++ d.sud.content := by
  have all : d.localCount = kLocalLength - d.front := by
    unfold localCount
    omega
  rw [content, all, if_neg (by omega)]

theorem push_spec (inv : d.Inv) (v : V) : (d.push v).Inv ∧ (d.push v).content = d.content ++ [v] := by
  obtain ⟨front_le, front_top, top_le, store, used⟩ := inv
  unfold push
  by_cases inside : d.top < kLocalLength - 1
  · rw [if_pos inside]
    refine ⟨⟨front_le, by dsimp only; omega, by dsimp only; omega, fun wrong => by
      dsimp only at wrong; omega, fun wrong => by dsimp only at wrong; omega⟩, ?_⟩
    rw [content_local (by dsimp only; omega), content_local (by omega)]
    dsimp only
    have more : (d.top + 1 + 1 - d.front).toNat = (d.top + 1 - d.front).toNat + 1 := by omega
    have place : d.front + (d.top + 1 - d.front).toNat = (d.top + 1).toNat := by omega
    rw [more, window_concat, place, Function.update_self]
    refine congrArg (· ++ [v]) (window_congr fun i low high => ?_)
    exact Function.update_of_ne (by omega) _ _
  · rw [if_neg inside]
    by_cases full : d.top = kLocalLength - 1
    · rw [if_pos full]
      have fresh := SingleUseDeque.inv_push (SingleUseDeque.inv_clear (d := d.sud)) v
      have one := SingleUseDeque.content_push (SingleUseDeque.inv_clear (d := d.sud)) v
      rw [SingleUseDeque.content_clear, List.nil_append] at one
      have single : (d.sud.clear.push v).count = 1 := by
        rw [← SingleUseDeque.content_length, one]
        rfl
      refine ⟨⟨front_le, by dsimp only; omega, by dsimp only; omega, fun _ => fresh,
        fun _ _ => by rw [single]; exact Nat.one_pos⟩, ?_⟩
      rw [content_stored (by dsimp only; omega), content_local (by omega), one]
      dsimp only
      have same : (d.top + 1 - d.front).toNat = kLocalLength - d.front := by omega
      rw [same]
    · rw [if_neg full]
      have used_ : d.top = kLocalLength := by omega
      have more := SingleUseDeque.content_push (store used_) v
      refine ⟨⟨front_le, front_top, top_le, fun _ => SingleUseDeque.inv_push (store used_) v,
        fun _ _ => ?_⟩, ?_⟩
      · rw [← SingleUseDeque.content_length, more, List.length_append]
        exact Nat.succ_pos _
      · rw [content_stored (by exact used_), content_stored used_, more, List.append_assoc]

theorem empty_iff (inv : d.Inv) : d.empty = true ↔ d.content = [] := by
  obtain ⟨front_le, front_top, top_le, store, used⟩ := inv
  unfold empty
  rw [Bool.or_eq_true, Bool.and_eq_true, decide_eq_true_iff, decide_eq_true_iff]
  by_cases inside : d.top < kLocalLength
  · rw [content_local inside, ← List.length_eq_zero_iff, window_length]
    constructor
    · rintro (before | ⟨ends, -⟩)
      · omega
      · omega
    · intro none_
      exact .inl (by omega)
  · have full : d.top = kLocalLength := by omega
    rw [content_stored full, List.append_eq_nil_iff, ← List.length_eq_zero_iff, window_length,
      ← SingleUseDeque.empty_iff (store full)]
    constructor
    · rintro (before | ⟨ends, none_⟩)
      · omega
      · exact ⟨by omega, none_⟩
    · exact fun ⟨ends, none_⟩ => .inr ⟨by omega, none_⟩

section

variable (inv : d.Inv) (some_ : d.content ≠ [])

include inv some_

/-- A store in use has elements, unless the deque has none. -/
theorem store_used (full : d.top = kLocalLength) : 0 < d.sud.count := by
  by_cases front : d.front < kLocalLength
  · exact inv.used full front
  · have atEnd : kLocalLength - d.front = 0 := by omega
    rw [content_stored full, atEnd, window_zero, List.nil_append, ← List.length_pos_iff,
      SingleUseDeque.content_length] at some_
    exact some_

theorem getLast?_content : d.content.getLast? = some d.getTop := by
  unfold getTop
  by_cases inside : d.top < kLocalLength
  · have more : 0 < (d.top + 1 - d.front).toNat := by
      rw [← List.length_pos_iff, content_local inside, window_length] at some_
      exact some_
    have last : (d.top + 1 - d.front).toNat = (d.top - d.front).toNat + 1 := by omega
    have place : d.front + (d.top - d.front).toNat = d.top.toNat := by omega
    rw [if_pos inside, content_local inside, last, window_concat, place, List.getLast?_concat]
  · have top_le := inv.top_le
    have full : d.top = kLocalLength := by omega
    rw [if_neg inside, content_stored full, SingleUseDeque.content_pop (store_used inv some_ full),
      ← List.append_assoc, List.getLast?_concat]

/-- The value at `Top`, and what a `Pop` that fits leaves. -/
theorem pop_spec (fits : d.PopFits) : d.pop.Inv ∧ d.content = d.pop.content ++ [d.getTop] := by
  have ⟨front_le, front_top, top_le, store, used⟩ := inv
  unfold pop getTop
  by_cases inside : d.top < kLocalLength
  · rw [if_pos inside, if_pos inside]
    have more : 0 < (d.top + 1 - d.front).toNat := by
      rw [← List.length_pos_iff, content_local inside, window_length] at some_
      exact some_
    refine ⟨⟨front_le, by dsimp only; omega, by dsimp only; omega, fun wrong => by
      dsimp only at wrong; omega, fun wrong => by dsimp only at wrong; omega⟩, ?_⟩
    rw [content_local inside, content_local (by dsimp only; omega)]
    dsimp only
    have last : (d.top + 1 - d.front).toNat = (d.top - 1 + 1 - d.front).toNat + 1 := by omega
    have place : d.front + (d.top - 1 + 1 - d.front).toNat = d.top.toNat := by omega
    rw [last, window_concat, place]
  · have full : d.top = kLocalLength := by omega
    rw [if_neg inside, if_neg inside]
    have sudInv := store full
    by_cases front : d.front < kLocalLength
    · rw [if_pos front]
      have one : d.sud.count = 1 := Nat.le_antisymm (fits full front) (used full front)
      have last := SingleUseDeque.content_pop (d := d.sud) (by omega)
      have rest : d.sud.pop.content = [] := by
        have lengths := congrArg List.length last
        rw [SingleUseDeque.content_length, one, List.length_append, List.length_singleton] at lengths
        exact List.length_eq_zero_iff.mp (by omega)
      refine ⟨⟨front_le, by dsimp only; omega, by dsimp only; omega, fun wrong => by
        dsimp only at wrong; omega, fun wrong => by dsimp only at wrong; omega⟩, ?_⟩
      rw [content_stored full, content_local (by dsimp only; omega), last, rest, List.nil_append]
      dsimp only
      have same : (d.top - 1 + 1 - d.front).toNat = kLocalLength - d.front := by omega
      rw [same]
    · rw [if_neg front]
      have atEnd : kLocalLength - d.front = 0 := by omega
      have last := SingleUseDeque.content_pop (store_used inv some_ full)
      have more := store_used inv some_ full
      refine ⟨⟨front_le, front_top, top_le, fun _ => ?_, fun _ wrong => absurd wrong front⟩, ?_⟩
      · unfold SingleUseDeque.Inv SingleUseDeque.count SingleUseDeque.pop at *
        dsimp only
        omega
      · rw [content_stored full, content_stored (by exact full), atEnd, window_zero,
          List.nil_append, List.nil_append]
        exact last

end

@[simp] theorem push_front (v : V) : (d.push v).front = d.front := by
  unfold push
  split
  · rfl
  · split <;> rfl

@[simp] theorem pop_front : d.pop.front = d.front := by
  unfold pop
  split
  · rfl
  · split <;> rfl

/-- One element more than the array has room for is no harm on a stack. -/
theorem popFits_of_length (front : d.front = 0) (few : d.content.length ≤ kLocalLength + 1) :
    d.PopFits := by
  intro full _
  rw [content_stored full, List.length_append, window_length, SingleUseDeque.content_length] at few
  omega

theorem length_of_popFits (inv : d.Inv) (front : d.front = 0) (fits : d.PopFits) :
    d.content.length ≤ kLocalLength + 1 := by
  have some_ := kLocalLength_pos
  have top_le := inv.top_le
  by_cases full : d.top = kLocalLength
  · have few := fits full (by omega)
    rw [content_stored full, List.length_append, window_length, SingleUseDeque.content_length]
    omega
  · rw [content_local (by omega), window_length]
    omega

/-- A `Pop` that does not fit drops more than one element. -/
theorem pop_loses (unfit : ¬ d.PopFits) :
    d.pop.content.length + 1 < d.content.length := by
  unfold PopFits at unfit
  push Not at unfit
  obtain ⟨full, front, more⟩ := unfit
  unfold pop
  rw [if_neg (by omega), if_pos front, content_stored full, content_local (by dsimp only; omega),
    List.length_append, window_length, window_length, SingleUseDeque.content_length]
  dsimp only
  omega

/-- What any `Pop` leaves is there before, and is less. -/
theorem pop_prefix (inv : d.Inv) (some_ : d.content ≠ []) :
    d.pop.Inv ∧ d.pop.content <+: d.content ∧ d.pop.content.length < d.content.length := by
  by_cases fits : d.PopFits
  · have ⟨inv', last⟩ := pop_spec inv some_ fits
    rw [last]
    exact ⟨inv', List.prefix_append _ _, by simp⟩
  · have fewer := pop_loses fits
    have ⟨full, front, _⟩ : d.top = kLocalLength ∧ d.front < kLocalLength ∧ d.sud.count ≠ 1 := by
      unfold PopFits at fits
      push Not at fits
      obtain ⟨full, front, more⟩ := fits
      exact ⟨full, front, by omega⟩
    have popped : d.pop = { d with top := d.top - 1, sud := d.sud.pop } := by
      unfold pop
      rw [if_neg (by omega), if_pos front]
    refine ⟨?_, ?_, by omega⟩
    · rw [popped]
      exact ⟨inv.front_le, by dsimp only; omega, by dsimp only; omega, fun wrong => by
        dsimp only at wrong; omega, fun wrong => by dsimp only at wrong; omega⟩
    · have same : (d.top - 1 + 1 - d.front).toNat = kLocalLength - d.front := by omega
      rw [popped, content_local (by dsimp only; omega), content_stored full]
      dsimp only
      rw [same]
      exact List.prefix_append _ _

/-- The value at `Front`, and what `PopFront` leaves. -/
theorem popFront_spec (inv : d.Inv) (some_ : d.content ≠ []) :
    d.popFront.Inv ∧ d.content = d.getFront :: d.popFront.content := by
  have ⟨front_le, front_top, top_le, store, used⟩ := inv
  unfold popFront getFront
  by_cases front : d.front < kLocalLength
  · rw [if_pos front, if_pos front]
    by_cases inside : d.top < kLocalLength
    · have more : 0 < (d.top + 1 - d.front).toNat := by
        rw [← List.length_pos_iff, content_local inside, window_length] at some_
        exact some_
      refine ⟨⟨by dsimp only; omega, by dsimp only; omega, top_le, fun wrong => by
        dsimp only at wrong; omega, fun wrong => by dsimp only at wrong; omega⟩, ?_⟩
      rw [content_local inside, content_local (by exact inside)]
      dsimp only
      have first : (d.top + 1 - d.front).toNat = (d.top + 1 - (d.front + 1 : Nat)).toNat + 1 := by
        omega
      rw [first, window_succ]
    · have full : d.top = kLocalLength := by omega
      refine ⟨⟨by dsimp only; omega, by dsimp only; omega, top_le, store, fun full _ =>
        used full front⟩, ?_⟩
      rw [content_stored full, content_stored (by exact full)]
      dsimp only
      have first : kLocalLength - d.front = kLocalLength - (d.front + 1) + 1 := by omega
      rw [first, window_succ]
      rfl
  · have full : d.top = kLocalLength := by
      by_contra wrong
      rw [content_local (by omega), ← List.length_pos_iff, window_length] at some_
      omega
    rw [if_neg front, if_neg front]
    have atEnd : kLocalLength - d.front = 0 := by omega
    have more := store_used inv some_ full
    have first := SingleUseDeque.content_popFront more
    refine ⟨⟨front_le, front_top, top_le, fun _ => ?_, fun _ wrong => absurd wrong front⟩, ?_⟩
    · unfold SingleUseDeque.Inv SingleUseDeque.count SingleUseDeque.popFront at *
      dsimp only
      omega
    · rw [content_stored full, content_stored (by exact full), atEnd, window_zero,
        List.nil_append, List.nil_append]
      exact first

end Operations

/-! Runs. -/

inductive Op (V : Type) where
  | push (v : V)
  | pop
  | top
  | front
  | popFront
  | empty

inductive Result (V : Type) where
  | none
  | value (v : V)
  | bool (b : Bool)
  deriving DecidableEq

def Op.apply (d : LocalDeque V) : Op V → Result V × LocalDeque V
  | .push v => (.none, d.push v)
  | .pop => (.none, d.pop)
  | .top => (.value d.getTop, d)
  | .front => (.value d.getFront, d)
  | .popFront => (.none, d.popFront)
  | .empty => (.bool d.empty, d)

/-- What the operation does to a list; `none` where it must not be called. -/
def Op.onList (xs : List V) : Op V → Option (Result V × List V)
  | .push v => some (.none, xs ++ [v])
  | .pop => if xs = [] then none else some (.none, xs.dropLast)
  | .top => xs.getLast?.map fun v => (.value v, xs)
  | .front => xs.head?.map fun v => (.value v, xs)
  | .popFront => if xs = [] then none else some (.none, xs.tail)
  | .empty => some (.bool xs.isEmpty, xs)

/-- The preconditions of the calls hold, from a list with these elements on. -/
def Legal (xs : List V) : List (Op V) → Prop
  | [] => True
  | op :: ops =>
      match op.onList xs with
      | some (_, rest) => Legal rest ops
      | none => False

instance decidableLegal : ∀ (xs : List V) (ops : List (Op V)), Decidable (Legal xs ops)
  | _, [] => .isTrue trivial
  | xs, op :: ops =>
      match allowed : op.onList xs with
      | some (_, rest) =>
          have := decidableLegal rest ops
          decidable_of_iff (Legal rest ops) (by rw [Legal, allowed])
      | none => .isFalse (by rw [Legal, allowed]; exact id)

theorem Legal.cons {xs : List V} {op : Op V} {ops : List (Op V)} (legal : Legal xs (op :: ops)) :
    ∃ result rest, op.onList xs = some (result, rest) ∧ Legal rest ops := by
  rw [Legal] at legal
  split at legal
  next result rest found => exact ⟨result, rest, found, legal⟩
  next => exact legal.elim

/-- The deque holds the elements of the list all along, and every call returns what it returns on
the list. -/
def Refines (d : LocalDeque V) (xs : List V) : List (Op V) → Prop
  | [] => d.content = xs
  | op :: ops => d.content = xs ∧ ∃ rest, op.onList xs = some ((op.apply d).1, rest) ∧
      Refines (op.apply d).2 rest ops

def Op.Fits (d : LocalDeque V) : Op V → Prop
  | .pop => d.PopFits
  | _ => True

instance (d : LocalDeque V) : (op : Op V) → Decidable (op.Fits d)
  | .pop => inferInstanceAs (Decidable d.PopFits)
  | .push _ | .top | .front | .popFront | .empty => .isTrue trivial

/-- Every `Pop` of the run fits. -/
def Fits (d : LocalDeque V) : List (Op V) → Prop
  | [] => True
  | op :: ops => op.Fits d ∧ Fits (op.apply d).2 ops

instance decidableFits : ∀ (d : LocalDeque V) (ops : List (Op V)), Decidable (Fits d ops)
  | _, [] => .isTrue trivial
  | d, op :: ops =>
      have := decidableFits (op.apply d).2 ops
      inferInstanceAs (Decidable (op.Fits d ∧ Fits (op.apply d).2 ops))

section Runs

variable {d : LocalDeque V} {xs rest : List V}

/-- One call that fits. -/
theorem apply_spec (inv : d.Inv) {op : Op V} (fits : op.Fits d) {result : Result V}
    (legal : op.onList d.content = some (result, rest)) :
    (op.apply d).2.Inv ∧ (op.apply d).1 = result ∧ (op.apply d).2.content = rest := by
  cases op with
  | push v =>
      obtain ⟨rfl, rfl⟩ := Prod.mk.inj (Option.some.inj legal)
      obtain ⟨inv', more⟩ := push_spec inv v
      exact ⟨inv', rfl, more⟩
  | pop =>
      rw [Op.onList] at legal
      split at legal
      · cases legal
      next some_ =>
        obtain ⟨rfl, rfl⟩ := Prod.mk.inj (Option.some.inj legal)
        obtain ⟨inv', last⟩ := pop_spec inv some_ fits
        exact ⟨inv', rfl, by rw [last, List.dropLast_concat]; rfl⟩
  | top =>
      obtain ⟨v, found, same⟩ := Option.map_eq_some_iff.mp legal
      obtain ⟨rfl, rfl⟩ := Prod.mk.inj same
      have some_ : d.content ≠ [] := fun none_ => by simp [none_] at found
      rw [getLast?_content inv some_] at found
      exact ⟨inv, congrArg Result.value (Option.some.inj found), rfl⟩
  | front =>
      obtain ⟨v, found, same⟩ := Option.map_eq_some_iff.mp legal
      obtain ⟨rfl, rfl⟩ := Prod.mk.inj same
      have some_ : d.content ≠ [] := fun none_ => by simp [none_] at found
      rw [(popFront_spec inv some_).2, List.head?_cons] at found
      exact ⟨inv, congrArg Result.value (Option.some.inj found), rfl⟩
  | popFront =>
      rw [Op.onList] at legal
      split at legal
      · cases legal
      next some_ =>
        obtain ⟨rfl, rfl⟩ := Prod.mk.inj (Option.some.inj legal)
        obtain ⟨inv', first⟩ := popFront_spec inv some_
        exact ⟨inv', rfl, by rw [first]; rfl⟩
  | empty =>
      obtain ⟨rfl, rfl⟩ := Prod.mk.inj (Option.some.inj legal)
      refine ⟨inv, congrArg Result.bool ?_, rfl⟩
      rw [Bool.eq_iff_iff, List.isEmpty_iff]
      exact empty_iff inv

/-- A call that does not fit holds fewer elements than the list afterwards. -/
theorem apply_loses {op : Op V} (unfit : ¬ op.Fits d) {result : Result V}
    (legal : op.onList d.content = some (result, rest)) : (op.apply d).2.content ≠ rest := by
  cases op with
  | pop =>
      rw [Op.onList] at legal
      split at legal
      · cases legal
      next some_ =>
        obtain ⟨rfl, rfl⟩ := Prod.mk.inj (Option.some.inj legal)
        intro same
        have fewer := pop_loses unfit
        have lengths := congrArg List.length same
        rw [List.length_dropLast] at lengths
        have popped : (Op.apply d .pop).2 = d.pop := rfl
        rw [popped] at lengths
        omega
  | push v => exact absurd trivial unfit
  | top => exact absurd trivial unfit
  | front => exact absurd trivial unfit
  | popFront => exact absurd trivial unfit
  | empty => exact absurd trivial unfit

theorem Refines.first {ops : List (Op V)} (refines : Refines d xs ops) : d.content = xs := by
  cases ops with
  | nil => exact refines
  | cons op ops => exact refines.1

theorem refines_iff (ops : List (Op V)) : ∀ (d : LocalDeque V), d.Inv → Legal d.content ops →
    (Refines d d.content ops ↔ Fits d ops) := by
  induction ops with
  | nil => exact fun d _ _ => ⟨fun _ => trivial, fun _ => rfl⟩
  | cons op ops ih =>
      intro d inv legal
      obtain ⟨result, rest, allowed, later⟩ := legal.cons
      constructor
      · rintro ⟨-, rest', run, refines⟩
        obtain ⟨-, rfl⟩ := Prod.mk.inj (Option.some.inj (allowed.symm.trans run))
        have fits : op.Fits d := by
          by_contra unfit
          exact apply_loses unfit allowed refines.first
        obtain ⟨inv', -, same⟩ := apply_spec inv fits allowed
        subst same
        exact ⟨fits, (ih _ inv' later).mp refines⟩
      · rintro ⟨fits, following⟩
        obtain ⟨inv', returned, same⟩ := apply_spec inv fits allowed
        subst same returned
        exact ⟨rfl, _, allowed, (ih _ inv' later).mpr following⟩

end Runs

/-- Over any legal run the deque is the list it stands for exactly when no `Pop` takes one of two
or more elements of the store while the front is still in the array. -/
theorem run_refines_iff (sud : SingleUseDeque V) (array : Nat → V) (ops : List (Op V))
    (legal : Legal [] ops) :
    Refines (ofSud sud array) [] ops ↔ Fits (ofSud sud array) ops := by
  have none_ := content_ofSud sud array
  rw [← none_] at legal ⊢
  exact refines_iff ops _ (inv_ofSud sud array) legal

def emptyDeque : LocalDeque Nat := ofSud ⟨fun _ => 0, 0, -1⟩ fun _ => 0

theorem run_refines_iff_bothEnds :
    Refines emptyDeque [] [.push 1, .push 2, .popFront, .top, .pop, .empty] ↔
      Fits emptyDeque [.push 1, .push 2, .popFront, .top, .pop, .empty] :=
  run_refines_iff _ _ _ (by decide)

section Pushes

variable {d : LocalDeque V} {v : V} {ops : List (Op V)}

theorem legal_pushes (n : Nat) : ∀ xs : List V, Legal (xs ++ List.replicate n v) ops →
    Legal xs (List.replicate n (.push v) ++ ops) := by
  induction n with
  | zero =>
      intro xs legal
      rwa [List.replicate_zero, List.append_nil] at legal
  | succ n ih =>
      intro xs legal
      rw [List.replicate_succ, List.append_cons] at legal
      exact ih (xs ++ [v]) legal

theorem legal_pop {xs : List V} (some_ : xs ≠ []) : Legal xs [.pop] := by
  rw [Legal, Op.onList, if_neg some_]
  trivial

theorem legal_pushes_pop {n : Nat} (some_ : 0 < n) :
    Legal [] (List.replicate n (.push v) ++ [.pop]) := by
  refine legal_pushes n [] (legal_pop fun none_ => ?_)
  have length := congrArg List.length none_
  rw [List.nil_append, List.length_replicate, List.length_nil] at length
  omega

theorem fits_pushes (n : Nat) : ∀ d : LocalDeque V, d.Inv →
    Fits d (List.replicate n (.push v) ++ ops) →
      ∃ d' : LocalDeque V, d'.Inv ∧ d'.front = d.front ∧
        d'.content.length = d.content.length + n ∧ Fits d' ops := by
  induction n with
  | zero => exact fun d inv fits => ⟨d, inv, rfl, rfl, fits⟩
  | succ n ih =>
      intro d inv fits
      have ⟨inv', more⟩ := push_spec inv v
      have ⟨d', invLast, front, length, rest⟩ := ih (d.push v) inv' fits.2
      refine ⟨d', invLast, front.trans (push_front v), ?_, rest⟩
      rw [length, more, List.length_append, List.length_singleton]
      omega

/-- A `Pop` loses elements once two or more are stored. -/
theorem not_refines_pushes_pop (sud : SingleUseDeque V) (array : Nat → V) {n : Nat}
    (stored : kLocalLength + 1 < n) :
    ¬ Refines (ofSud sud array) [] (List.replicate n (.push v) ++ [.pop]) := by
  intro refines
  have fits := (run_refines_iff sud array _ (legal_pushes_pop (by omega))).mp refines
  have ⟨d, inv, front, length, popFits, _⟩ := fits_pushes n _ (inv_ofSud _ _) fits
  have few := length_of_popFits inv front popFits
  rw [length, content_ofSud, List.length_nil] at few
  omega

end Pushes

/-- Two elements are stored when one is popped. -/
theorem run_loses_stored : ¬ ∀ (sud : SingleUseDeque Nat) (array : Nat → Nat) (ops : List (Op Nat)),
    Legal [] ops → Refines (ofSud sud array) [] ops := fun claim =>
  not_refines_pushes_pop ⟨fun _ => 0, 0, -1⟩ (fun _ => 0) (Nat.lt_succ_self _)
    (claim _ _ (List.replicate (kLocalLength + 2) (.push 7) ++ [.pop])
      (legal_pushes_pop (Nat.succ_pos _)))

end LocalDeque

end PrimJs
