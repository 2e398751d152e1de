import Mathlib.Tactic
import Mathlib.Data.Rat.Defs
import Mathlib.Algebra.Order.Ring.Unbundled.Rat
import Mathlib.Logic.Function.Basic

/-! `ThreeTierList`: the runs of one size that are not full, in one list of three parts. A node is
put into a part by its value at that time; values are finite, so that they are rational numbers. -/

namespace PrimJs

/-- The links and the flag of the nodes are those in memory, of any node. -/
structure ThreeTierList (α : Type) where
  firstTierHead : Option α
  secondTierHead : Option α
  secondTierTail : Option α
  thirdTierHead : Option α
  next : α → Option α
  prev : α → Option α
  isInList : α → Bool

namespace ThreeTierList

/-- `0.6` and `0.3` as `float`. -/
def kFirstTierBar : Rat := 10066330 / 2 ^ 24

def kSecondTierBar : Rat := 10066330 / 2 ^ 25

variable {α : Type} [DecidableEq α]

def setNext (l : ThreeTierList α) (n : α) (target : Option α) : ThreeTierList α :=
  { l with next := Function.update l.next n target }

def setPrev (l : ThreeTierList α) (n : α) (target : Option α) : ThreeTierList α :=
  { l with prev := Function.update l.prev n target }

def setInList (l : ThreeTierList α) (n : α) (val : Bool) : ThreeTierList α :=
  { l with isInList := Function.update l.isInList n val }

/-! `none` is an assertion that fails or a null pointer that is followed. -/

def insertFirst (l : ThreeTierList α) (n : α) : Option (ThreeTierList α) :=
  match l.firstTierHead with
  | some first =>
      let l := ((l.setNext n (some first)).setPrev n none).setPrev first (some n)
      some { l with firstTierHead := some n }
  | none => do
      let second ← l.secondTierHead
      let l := ((l.setNext n (some second)).setPrev n none).setPrev second (some n)
      some { l with firstTierHead := some n }

def insertSecond (l : ThreeTierList α) (n : α) : Option (ThreeTierList α) := do
  let second ← l.secondTierHead
  let before := l.prev second
  let l := (l.setNext n (some second)).setPrev n before
  let l := match before with
    | none => l
    | some p => l.setNext p (some n)
  let l := l.setPrev second (some n)
  some { l with secondTierHead := some n }

def insertThird (l : ThreeTierList α) (n : α) : Option (ThreeTierList α) :=
  match l.thirdTierHead with
  | some third => do
      let before ← l.prev third
      let l := (l.setNext n (some third)).setPrev n (some before)
      let l := (l.setNext before (some n)).setPrev third (some n)
      some { l with thirdTierHead := some n }
  | none => do
      let tail ← l.secondTierTail
      let l := ((l.setNext n none).setPrev n (some tail)).setNext tail (some n)
      some { l with thirdTierHead := some n }

def insert (l : ThreeTierList α) (n : α) (value : Rat) : Option (ThreeTierList α) :=
  if l.isInList n then none
  else if l.secondTierHead.isNone then
    if l.firstTierHead.isSome || l.thirdTierHead.isSome || l.secondTierTail.isSome then none
    else
      let l := (l.setNext n none).setPrev n none
      some ({ l with secondTierHead := some n, secondTierTail := some n }.setInList n true)
  else if value > kFirstTierBar then
    if value ≤ 1 then (l.insertFirst n).map fun l => l.setInList n true else none
  else if value > kSecondTierBar then (l.insertSecond n).map fun l => l.setInList n true
  else if value ≥ 0 then (l.insertThird n).map fun l => l.setInList n true
  else none

/-- `EraseSecond`, with `kPreferFirstTier` false. -/
def eraseSecond (l : ThreeTierList α) : Option (ThreeTierList α) := do
  let second ← l.secondTierHead
  if l.secondTierHead ≠ l.secondTierTail then some { l with secondTierHead := l.next second }
  else
    match l.next second with
    | some newHead =>
        let thirdTierHead := if l.thirdTierHead = some newHead then l.next newHead
          else l.thirdTierHead
        some { l with
          secondTierHead := some newHead
          secondTierTail := some newHead
          thirdTierHead := thirdTierHead }
    | none =>
        let newHead := l.prev second
        let firstTierHead := if newHead = l.firstTierHead then none else l.firstTierHead
        some { l with
          secondTierHead := newHead
          secondTierTail := newHead
          firstTierHead := firstTierHead }

/-- The end of `Fetch` and of `Erase`. -/
def unlink (l : ThreeTierList α) (n : α) : ThreeTierList α :=
  let l := match l.next n with
    | none => l
    | some after => l.setPrev after (l.prev n)
  let l := match l.prev n with
    | none => l
    | some before => l.setNext before (l.next n)
  ((l.setNext n none).setPrev n none).setInList n false

def fetch (l : ThreeTierList α) : Option (Option α × ThreeTierList α) :=
  match l.secondTierHead with
  | none =>
      if l.firstTierHead.isSome || l.thirdTierHead.isSome || l.secondTierTail.isSome then none
      else some (none, l)
  | some n => l.eraseSecond.map fun l => (some n, l.unlink n)

def eraseEnds (l : ThreeTierList α) (n : α) : Option (ThreeTierList α) :=
  if l.firstTierHead = some n then
    let first := l.next n
    some { l with firstTierHead := if first = l.secondTierHead then none else first }
  else if l.secondTierHead = some n then l.eraseSecond
  else if l.secondTierTail = some n then some { l with secondTierTail := l.prev n }
  else if l.thirdTierHead = some n then some { l with thirdTierHead := l.next n }
  else some l

def erase (l : ThreeTierList α) (n : α) : Option (ThreeTierList α) :=
  if l.isInList n then (l.eraseEnds n).map fun l => l.unlink n else none

end ThreeTierList

end PrimJs
