import PrimJs.Gc.Space

/-! `PageMap`: the labels of the pages of one group. Addresses are those of the pages; a page of the
map is its index. -/

namespace PrimJs

/-- The map of a group and the memory it describes. -/
structure PageMap where
  spaceBeginAddr : Nat
  spaceEndAddr : Nat
  maxMapSize : Nat
  pageMapSize : Nat
  map : Nat → PageLabel

namespace PageMap

/-- `Init`; the memory of the labels is zero. -/
def init (baseAddr maxSize size : Nat) : PageMap where
  spaceBeginAddr := baseAddr
  spaceEndAddr := baseAddr + size
  maxMapSize := maxSize / allocUtilPageSize
  pageMapSize := size / allocUtilPageSize
  map := fun _ => .released

def getPageIndex (m : PageMap) (addr : Nat) : Nat := (addr - m.spaceBeginAddr) / allocUtilPageSize

def getPageAddr (m : PageMap) (idx : Nat) : Nat :=
  m.spaceBeginAddr + idxInGroup idx * allocUtilPageSize

def containsAddr (m : PageMap) (addr : Nat) : Bool :=
  decide (m.spaceBeginAddr ≤ addr) && decide (addr < m.spaceEndAddr)

def setType (map : Nat → PageLabel) (i : Nat) (label : PageLabel) : Nat → PageLabel :=
  Function.update map i label

/-- `SetRange` of the `pageCnt` pages from `idx` on. -/
def setRange (m : PageMap) (idx pageCnt : Nat) (label : PageLabel) : PageMap :=
  { m with map := Space.setLabels m.map idx pageCnt label }

/-- The loop of `SetRangeAndCount` over the pages from `i` on. -/
def setRangeLoop (label : PageLabel) :
    Nat → Nat → (Nat → PageLabel) → Nat → Option (Nat × (Nat → PageLabel))
  | 0, _, map, count => some (count, map)
  | left + 1, i, map, count =>
      if label = .released ∧ map i ≠ .released then
        if map i = .free then setRangeLoop label left (i + 1) (setType map i label) (count + 1)
        else none
      else if label ≠ .released ∧ map i = .released then
        setRangeLoop label left (i + 1) (setType map i label) (count + 1)
      else setRangeLoop label left (i + 1) (setType map i label) count

def setRangeAndCount (m : PageMap) (idx1 idx2 : Nat) (label : PageLabel) : Option (Nat × PageMap) :=
  let idx1 := idxInGroup idx1
  let idx2 := idxInGroup idx2
  if idx1 < idx2 ∧ idx2 ≤ m.maxMapSize then
    (setRangeLoop label (idx2 - idx1) idx1 m.map 0).map fun (count, map) =>
      (count, { m with map := map })
  else none

/-- The common body of `SetAsRunPage` and `SetAsLargeObjPage`. -/
def setAsObjPage (head rem : PageLabel) (m : PageMap) (addr pageCnt : Nat) :
    Option (Nat × PageMap) :=
  let index := m.getPageIndex addr
  if !m.containsAddr addr then none
  else if index ≥ m.pageMapSize then none
  else if m.map index ≠ .free ∧ m.map index ≠ .released then none
  else
    let count := if m.map index = .released then 1 else 0
    let m := { m with map := setType m.map index head }
    if pageCnt > 1 then
      (m.setRangeAndCount (index + 1) (index + pageCnt) rem).map fun (more, m) => (count + more, m)
    else some (count, m)

def setAsRunPage : PageMap → Nat → Nat → Option (Nat × PageMap) := setAsObjPage .run .runRem

def setAsLargeObjPage : PageMap → Nat → Nat → Option (Nat × PageMap) :=
  setAsObjPage .largeObj .largeObjRem

/-- How many pages from `i` on have the label `rem`, of those left in the map. -/
def remCount (map : Nat → PageLabel) (rem : PageLabel) : Nat → Nat → Nat
  | 0, _ => 0
  | left + 1, i => if map i ≠ rem then 0 else remCount map rem left (i + 1) + 1

/-- The common body of `RunPageCount` and `LargeObjPageCount`. -/
def objPageCount (head rem : PageLabel) (m : PageMap) (addr : Nat) : Option Nat :=
  let index := m.getPageIndex addr
  if m.containsAddr addr ∧ m.map index = head then
    some (1 + remCount m.map rem (m.pageMapSize - (index + 1)) (index + 1))
  else none

def runPageCount : PageMap → Nat → Option Nat := objPageCount .run .runRem

def largeObjPageCount : PageMap → Nat → Option Nat := objPageCount .largeObj .largeObjRem

/-- The search for the first page back from `i`; the page 0 is not looked at. -/
def startIndex (map : Nat → PageLabel) (head : PageLabel) : Nat → Nat
  | 0 => 0
  | i + 1 => if map (i + 1) = head then i + 1 else startIndex map head i

/-- The common body of `GetRunStartFromAddr` and `GetLargeObjStartFromAddr`. -/
def getObjStartFromAddr (head : PageLabel) (m : PageMap) (addr : Nat) : Option Nat :=
  let pageIndex := startIndex m.map head (m.getPageIndex addr)
  if m.containsAddr addr ∧ m.map pageIndex = head then some (m.getPageAddr pageIndex) else none

def getRunStartFromAddr : PageMap → Nat → Option Nat := getObjStartFromAddr .run

def getLargeObjStartFromAddr : PageMap → Nat → Option Nat := getObjStartFromAddr .largeObj

def clearedLabel (isReleased : Bool) : PageLabel := if isReleased then .released else .free

/-- The loop of `ClearRunPage`. -/
def clearRunLoop (label : PageLabel) :
    Nat → Nat → (Nat → PageLabel) → Option (Nat → PageLabel)
  | 0, _, map => some map
  | left + 1, i, map =>
      if map i = .run ∨ map i = .runRem then clearRunLoop label left (i + 1) (setType map i label)
      else none

def clearRunPage (m : PageMap) (addr pageCnt : Nat) (isReleased : Bool) : Option PageMap :=
  if m.containsAddr addr then
    (clearRunLoop (clearedLabel isReleased) pageCnt (m.getPageIndex addr) m.map).map fun map =>
      { m with map := map }
  else none

/-- The loop of `ClearLargeObjPageAndCount`. -/
def clearLargeLoop (label : PageLabel) :
    Nat → Nat → (Nat → PageLabel) → Nat → Nat × (Nat → PageLabel)
  | 0, _, map, cnt => (cnt, map)
  | left + 1, i, map, cnt =>
      if map i ≠ .largeObjRem then (cnt, map)
      else clearLargeLoop label left (i + 1) (setType map i label) (cnt + 1)

def clearLargeObjPageAndCount (m : PageMap) (addr : Nat) (isReleased : Bool) :
    Option (Nat × PageMap) :=
  let index := m.getPageIndex addr
  if m.containsAddr addr ∧ m.map index = .largeObj then
    let label := clearedLabel isReleased
    let (cnt, map) := clearLargeLoop label (m.pageMapSize - (index + 1)) (index + 1)
      (setType m.map index label) 1
    some (cnt, { m with map := map })
  else none

end PageMap

end PrimJs
