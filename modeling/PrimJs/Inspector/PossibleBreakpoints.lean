import PrimJs.Inspector.AdjustBreakpoint

/-! `Debugger.getPossibleBreakpoints`: which positions of a script the range of a request gives. -/

namespace PrimJs

def inRange (p start end_ : LineCol) : Bool :=
  if p.line = start.line ∧ p.line ≠ end_.line then start.column ≤ p.column
  else if p.line = end_.line ∧ p.line ≠ start.line then end_.column ≠ 0 && p.column ≤ end_.column
  else if p.line = start.line ∧ p.line = end_.line then
    start.column ≤ p.column && p.column ≤ end_.column
  else start.line < p.line && p.line < end_.line

/-- A `start` or `end` of the request, with its values converted -/
structure LocationParam where
  lineNumber : Int
  columnNumber : Option Int
  scriptId : Option Int
  scriptHash : Option String
  deriving DecidableEq, Repr

def LocationParam.position (param : LocationParam) : LineCol :=
  ⟨param.lineNumber, param.columnNumber.getD (-1)⟩

namespace LEPUSDebuggerInfo

variable (info : LEPUSDebuggerInfo)

/-- The script id of `GetBreakpointLineAndColumn`; `scriptId` is the one known before. -/
def locationScriptId (param : LocationParam) (scriptId : Int) : Int :=
  let scriptId := param.scriptId.getD scriptId
  if scriptId = -1 then
    ((param.scriptHash.bind info.getScriptByHash).map LEPUSScriptSource.id).getD (-1)
  else scriptId

/-- `GetRange`: the start, the end and the script id -/
def getRange (start : LocationParam) (end_ : Option LocationParam) : LineCol × LineCol × Int :=
  let scriptId := info.locationScriptId start (-1)
  match end_ with
  | none => (start.position, ⟨-1, -1⟩, scriptId)
  | some end_ => (start.position, end_.position, info.locationScriptId end_ scriptId)

def outsideFunction (b : DebuggerBytecode) (start end_ : LineCol) : Bool :=
  (end_.line ≠ -1 && end_.line < b.lineNum - 1) || (b.endLineNum ≠ 0 && b.endLineNum - 1 < start.line)

def addLocation (start end_ : LineCol) (locations : List LineCol) (p : LineCol) : List LineCol :=
  if p.line = -1 ∧ p.column = -1 then locations
  else if inRange p start end_ = true ∧ p ∉ locations then locations ++ [p]
  else locations

/-- The `locations` of the answer -/
def getPossibleBreakpointsByScriptId (scriptId : Int) (start end_ : LineCol) : List LineCol :=
  info.bytecodeList.foldl (fun locations b =>
    if !b.hasDebug || b.script ≠ some scriptId || outsideFunction b start end_ then locations
    else b.lines.foldl (fun locations round => addLocation start end_ locations round.2) locations) []

end LEPUSDebuggerInfo

section Positions

theorem computeLineCol_known (lineColNum : Int) (old : LineCol) :
    (computeLineCol lineColNum old).known = true := by
  rw [computeLineCol]
  generalize (if lineColNum / 2^lineColumnTypeShift = 1 then _ else _ : LineCol) = packed
  by_cases outside : packed.line - 1 < 0 ∨ packed.column - 1 < 0
  · rw [if_pos outside]
    rfl
  · rw [if_neg outside, LineCol.known, Bool.and_eq_true, decide_eq_true_eq, decide_eq_true_eq]
    dsimp only
    omega

theorem pcLineRounds_known {fuel : Nat} {w : PcLineWalk}
    (before : w.at_ = ⟨-1, -1⟩ ∨ w.at_.known = true) :
    ∀ round ∈ pcLineRounds fuel w, round.2 = ⟨-1, -1⟩ ∨ round.2.known = true := by
  induction fuel generalizing w with
  | zero =>
      intro round inside
      cases inside
  | succ fuel ih =>
      have next : (getPCLineColumn w).at_ = ⟨-1, -1⟩ ∨ (getPCLineColumn w).at_.known = true := by
        unfold getPCLineColumn
        dsimp only
        split
        · exact Or.inr (computeLineCol_known _ _)
        · split
          · split
            · exact before
            · split
              · exact before
              · exact Or.inr (computeLineCol_known _ _)
          · exact Or.inr (computeLineCol_known _ _)
      intro round inside
      rw [pcLineRounds] at inside
      rcases List.mem_cons.mp inside with rfl | later
      · exact next
      · split at later
        · cases later
        · exact ih next round later

theorem lines_known (b : DebuggerBytecode) {round : Int × LineCol} (inside : round ∈ b.lines) :
    round.2 = ⟨-1, -1⟩ ∨ round.2.known = true := by
  rw [DebuggerBytecode.lines, pcLines] at inside
  split at inside
  · cases inside
  · exact pcLineRounds_known (Or.inl rfl) round inside

end Positions

namespace LEPUSDebuggerInfo

variable (info : LEPUSDebuggerInfo) (scriptId : Int) (start : LineCol)

def breakablePositions (functions : List DebuggerBytecode) : List LineCol :=
  (functions.flatMap fun b => b.lines.map Prod.snd).filter LineCol.known

def scriptFunctions : List DebuggerBytecode :=
  info.bytecodeList.filter fun b => b.hasDebug && b.script = some scriptId

/-- The functions of the script that the lines of the request do not rule out -/
def keptFunctions (end_ : LineCol) : List DebuggerBytecode :=
  (info.scriptFunctions scriptId).filter fun b => !outsideFunction b start end_

/-- From the start on and before the end, if there is one -/
def Requested (end_ : Option LineCol) (p : LineCol) : Prop :=
  start.position ≤ p.position ∧ ∀ e ∈ end_, p.position < e.position

/-- Each breakable position of the script in the range is given once, and no other position. -/
def ExactlyRequested (end_ : Option LineCol) (locations : List LineCol) : Prop :=
  locations.Nodup ∧ ∀ p, p ∈ locations ↔
    p ∈ breakablePositions (info.scriptFunctions scriptId) ∧ Requested start end_ p

/-- What keeps a range from its four flaws: without an end only the start line is searched, the
column of the end is in the range, a range from back to front is not empty, and functions are left
out by their lines. -/
structure RangeExact (end_ : Option LineCol) : Prop where
  openEnd : end_ = none →
    ∀ p ∈ breakablePositions (info.keptFunctions scriptId start ⟨-1, -1⟩), p.line ≤ start.line
  endColumn : ∀ e, end_ = some e → start.line ≤ e.line →
    e ∈ breakablePositions (info.keptFunctions scriptId start e) →
    start.position ≤ e.position → start.line < e.line ∧ e.column = 0
  forward : ∀ e, end_ = some e → e.line < start.line →
    ∀ p ∈ breakablePositions (info.keptFunctions scriptId start e),
      ¬ (p.line = start.line ∧ start.column ≤ p.column)
        ∧ ¬ (p.line = e.line ∧ e.column ≠ 0 ∧ p.column ≤ e.column)
  functions : ∀ p ∈ breakablePositions (info.scriptFunctions scriptId), Requested start end_ p →
    p ∈ breakablePositions (info.keptFunctions scriptId start (end_.getD ⟨-1, -1⟩))

variable {p : LineCol}

theorem addLocation_spec (end_ : LineCol) {locations : List LineCol} (nodup : locations.Nodup)
    (shape : p = ⟨-1, -1⟩ ∨ p.known = true) :
    (addLocation start end_ locations p).Nodup
      ∧ ∀ q, q ∈ addLocation start end_ locations p
        ↔ q ∈ locations ∨ q = p ∧ p.known = true ∧ inRange p start end_ = true := by
  rw [addLocation]
  by_cases unknown : p.line = -1 ∧ p.column = -1
  · have notKnown : ¬ p.known = true := by
      rw [LineCol.known, Bool.and_eq_true, decide_eq_true_eq]
      omega
    rw [if_pos unknown]
    exact ⟨nodup, fun q => by simp [notKnown]⟩
  · have known : p.known = true := by
      apply shape.resolve_left
      intro same
      exact unknown (same ▸ ⟨rfl, rfl⟩)
    rw [if_neg unknown]
    by_cases added : inRange p start end_ = true ∧ p ∉ locations
    · rw [if_pos added]
      constructor
      · apply List.nodup_append.mpr
        refine ⟨nodup, by simp, fun a old b new same => added.2 ?_⟩
        rw [← List.mem_singleton.mp new, ← same]
        exact old
      · intro q
        simp [known, added.1]
    · rw [if_neg added]
      refine ⟨nodup, fun q => ?_⟩
      constructor
      · exact Or.inl
      · rintro (old | ⟨rfl, -, inside⟩)
        · exact old
        · by_contra fresh
          exact added ⟨inside, fresh⟩

theorem addLocations_spec (end_ : LineCol) {positions locations : List LineCol}
    (nodup : locations.Nodup) (shape : ∀ p ∈ positions, p = ⟨-1, -1⟩ ∨ p.known = true) :
    (positions.foldl (addLocation start end_) locations).Nodup
      ∧ ∀ p, p ∈ positions.foldl (addLocation start end_) locations
        ↔ p ∈ locations ∨ p ∈ positions.filter LineCol.known ∧ inRange p start end_ = true := by
  induction positions generalizing locations with
  | nil => exact ⟨nodup, fun p => by simp⟩
  | cons at_ positions ih =>
      have first := addLocation_spec start end_ nodup (shape at_ List.mem_cons_self)
      have rest := ih first.1 fun p inside => shape p (List.mem_cons_of_mem at_ inside)
      refine ⟨rest.1, fun p => ?_⟩
      rw [List.foldl_cons, rest.2 p, first.2 p, List.mem_filter, List.mem_filter, List.mem_cons]
      constructor
      · rintro ((old | ⟨rfl, known, inside⟩) | ⟨⟨later, known⟩, inside⟩)
        · exact Or.inl old
        · exact Or.inr ⟨⟨Or.inl rfl, known⟩, inside⟩
        · exact Or.inr ⟨⟨Or.inr later, known⟩, inside⟩
      · rintro (old | ⟨⟨rfl | later, known⟩, inside⟩)
        · exact Or.inl (Or.inl old)
        · exact Or.inl (Or.inr ⟨rfl, known, inside⟩)
        · exact Or.inr ⟨⟨later, known⟩, inside⟩

theorem locations_eq (end_ : LineCol) :
    info.getPossibleBreakpointsByScriptId scriptId start end_
      = ((info.keptFunctions scriptId start end_).flatMap fun b => b.lines.map Prod.snd).foldl
          (addLocation start end_) [] := by
  rw [keptFunctions, scriptFunctions, List.filter_filter, List.foldl_flatMap, List.foldl_filter,
    getPossibleBreakpointsByScriptId]
  apply List.foldl_ext
  intro locations b _
  rw [List.foldl_map]
  by_cases left_ : (!b.hasDebug || b.script ≠ some scriptId || outsideFunction b start end_) = true
  · have dropped : ¬ (!outsideFunction b start end_
        && (b.hasDebug && b.script = some scriptId)) = true := by
      simp only [Bool.or_eq_true, Bool.not_eq_true', Bool.and_eq_true, decide_eq_true_eq] at left_ ⊢
      rintro ⟨inside, debug, script⟩
      simp [inside, debug, script] at left_
    rw [if_pos left_, if_neg dropped]
  · have kept : (!outsideFunction b start end_
        && (b.hasDebug && b.script = some scriptId)) = true := by
      simp only [Bool.or_eq_true, Bool.not_eq_true', Bool.and_eq_true, decide_eq_true_eq, not_or,
        Bool.not_eq_false, Bool.not_eq_true, not_not, ne_eq] at left_ ⊢
      exact ⟨left_.2, left_.1.1, left_.1.2⟩
    rw [if_neg left_, if_pos kept]

theorem locations_spec (end_ : LineCol) :
    (info.getPossibleBreakpointsByScriptId scriptId start end_).Nodup
      ∧ ∀ p, p ∈ info.getPossibleBreakpointsByScriptId scriptId start end_
        ↔ p ∈ breakablePositions (info.keptFunctions scriptId start end_)
          ∧ inRange p start end_ = true := by
  rw [locations_eq]
  have shape : ∀ p ∈ (info.keptFunctions scriptId start end_).flatMap
      (fun b => b.lines.map Prod.snd), p = ⟨-1, -1⟩ ∨ p.known = true := by
    intro p inside
    obtain ⟨b, -, listed⟩ := List.mem_flatMap.mp inside
    obtain ⟨round, member, rfl⟩ := List.mem_map.mp listed
    exact lines_known b member
  have added := addLocations_spec start end_ List.nodup_nil shape
  refine ⟨added.1, fun p => ?_⟩
  rw [added.2 p, breakablePositions]
  simp

theorem known_iff (p : LineCol) : p.known = true ↔ 0 ≤ p.line ∧ 0 ≤ p.column := by
  rw [LineCol.known, Bool.and_eq_true, decide_eq_true_eq, decide_eq_true_eq]

/-- The range of the code, by cases on the lines -/
theorem inRange_iff (p end_ : LineCol) : inRange p start end_ = true ↔
    (p.line = start.line ∧ p.line ≠ end_.line ∧ start.column ≤ p.column)
      ∨ (p.line = end_.line ∧ p.line ≠ start.line ∧ end_.column ≠ 0 ∧ p.column ≤ end_.column)
      ∨ (p.line = start.line ∧ p.line = end_.line
        ∧ start.column ≤ p.column ∧ p.column ≤ end_.column)
      ∨ (p.line ≠ start.line ∧ p.line ≠ end_.line ∧ start.line < p.line ∧ p.line < end_.line) := by
  rw [inRange]
  split_ifs <;> simp only [Bool.and_eq_true, decide_eq_true_eq] <;> omega

theorem requested_none :
    Requested start none p ↔ start.line < p.line ∨ start.line = p.line ∧ start.column ≤ p.column := by
  rw [Requested, LineCol.position_le]
  simp

theorem requested_some {e : LineCol} :
    Requested start (some e) p ↔
      (start.line < p.line ∨ start.line = p.line ∧ start.column ≤ p.column)
        ∧ (p.line < e.line ∨ p.line = e.line ∧ p.column < e.column) := by
  rw [Requested, LineCol.position_le]
  have order : p.position < e.position ↔
      p.line < e.line ∨ p.line = e.line ∧ p.column < e.column := Prod.Lex.toLex_lt_toLex
  simp [order]

theorem kept_subset {end_ : LineCol}
    (inside : p ∈ breakablePositions (info.keptFunctions scriptId start end_)) :
    p ∈ breakablePositions (info.scriptFunctions scriptId) := by
  obtain ⟨listed, known⟩ := List.mem_filter.mp inside
  obtain ⟨b, kept, position⟩ := List.mem_flatMap.mp listed
  exact List.mem_filter.mpr
    ⟨List.mem_flatMap.mpr ⟨b, (List.mem_filter.mp kept).1, position⟩, known⟩

/-- The two ranges agree on the positions of the functions that are kept, and no position is lost
with the others. -/
theorem exactlyRequested_iff_agree (end_ : Option LineCol) :
    info.ExactlyRequested scriptId start end_
        (info.getPossibleBreakpointsByScriptId scriptId start (end_.getD ⟨-1, -1⟩))
      ↔ (∀ p ∈ breakablePositions (info.keptFunctions scriptId start (end_.getD ⟨-1, -1⟩)),
          inRange p start (end_.getD ⟨-1, -1⟩) = true ↔ Requested start end_ p)
        ∧ ∀ p ∈ breakablePositions (info.scriptFunctions scriptId), Requested start end_ p →
          p ∈ breakablePositions (info.keptFunctions scriptId start (end_.getD ⟨-1, -1⟩)) := by
  obtain ⟨nodup, members⟩ := info.locations_spec scriptId start (end_.getD ⟨-1, -1⟩)
  constructor
  · rintro ⟨-, exactly⟩
    constructor
    · intro p kept
      have listed := (members p).symm.trans (exactly p)
      constructor
      · exact fun inside => (listed.mp ⟨kept, inside⟩).2
      · exact fun requested => (listed.mpr ⟨info.kept_subset scriptId start kept, requested⟩).2
    · intro p position requested
      exact ((members p).mp ((exactly p).mpr ⟨position, requested⟩)).1
  · rintro ⟨agree, complete⟩
    refine ⟨nodup, fun p => ?_⟩
    rw [members p]
    constructor
    · rintro ⟨kept, inside⟩
      exact ⟨info.kept_subset scriptId start kept, (agree p kept).mp inside⟩
    · rintro ⟨position, requested⟩
      have kept := complete p position requested
      exact ⟨kept, (agree p kept).mpr requested⟩

theorem lineCol_eq_iff (p q : LineCol) : p = q ↔ p.line = q.line ∧ p.column = q.column := by
  cases p
  cases q
  simp

theorem agree_none_iff (known : p.known = true) :
    (inRange p start ⟨-1, -1⟩ = true ↔ Requested start none p) ↔ p.line ≤ start.line := by
  rw [known_iff] at known
  rw [inRange_iff, requested_none]
  dsimp only
  omega

theorem agree_some_iff {e : LineCol} (known : p.known = true) :
    (inRange p start e = true ↔ Requested start (some e) p) ↔
      (start.line ≤ e.line → p = e → start.position ≤ e.position →
        start.line < e.line ∧ e.column = 0)
      ∧ (e.line < start.line → ¬ (p.line = start.line ∧ start.column ≤ p.column)
        ∧ ¬ (p.line = e.line ∧ e.column ≠ 0 ∧ p.column ≤ e.column)) := by
  rw [known_iff] at known
  rw [inRange_iff, requested_some, LineCol.position_le, lineCol_eq_iff]
  omega

theorem rangeExact_iff_agree (end_ : Option LineCol) :
    info.RangeExact scriptId start end_
      ↔ (∀ p ∈ breakablePositions (info.keptFunctions scriptId start (end_.getD ⟨-1, -1⟩)),
          inRange p start (end_.getD ⟨-1, -1⟩) = true ↔ Requested start end_ p)
        ∧ ∀ p ∈ breakablePositions (info.scriptFunctions scriptId), Requested start end_ p →
          p ∈ breakablePositions (info.keptFunctions scriptId start (end_.getD ⟨-1, -1⟩)) := by
  have known {functions : List DebuggerBytecode} {p : LineCol}
      (inside : p ∈ breakablePositions functions) : p.known = true := (List.mem_filter.mp inside).2
  cases end_ with
  | none =>
      constructor
      · intro exact_
        exact ⟨fun p kept => (agree_none_iff start (known kept)).mpr (exact_.openEnd rfl p kept),
          exact_.functions⟩
      · rintro ⟨agree, complete⟩
        constructor
        case openEnd => exact fun _ p kept => (agree_none_iff start (known kept)).mp (agree p kept)
        case endColumn => exact fun e impossible => nomatch impossible
        case forward => exact fun e impossible => nomatch impossible
        case functions => exact complete
  | some e =>
      constructor
      · intro exact_
        refine ⟨fun p kept => (agree_some_iff start (known kept)).mpr ⟨?_, ?_⟩, exact_.functions⟩
        · rintro ordered rfl after
          exact exact_.endColumn _ rfl ordered kept after
        · intro inverted
          exact exact_.forward e rfl inverted p kept
      · rintro ⟨agree, complete⟩
        constructor
        case openEnd => exact fun impossible => nomatch impossible
        case endColumn =>
          intro e' same ordered kept after
          obtain rfl : e = e' := Option.some.inj same
          exact ((agree_some_iff start (known kept)).mp (agree e kept)).1 ordered rfl after
        case forward =>
          intro e' same inverted p kept
          obtain rfl : e = e' := Option.some.inj same
          exact ((agree_some_iff start (known kept)).mp (agree p kept)).2 inverted
        case functions => exact complete

/-- The answer is exact unless one of the four flaws shows. -/
theorem exactlyRequested_iff (startParam : LocationParam) (endParam : Option LocationParam) :
    let (start, end_, scriptId) := info.getRange startParam endParam
    info.ExactlyRequested scriptId startParam.position (endParam.map LocationParam.position)
        (info.getPossibleBreakpointsByScriptId scriptId start end_)
      ↔ info.RangeExact scriptId startParam.position (endParam.map LocationParam.position) := by
  cases endParam with
  | none =>
      exact (info.exactlyRequested_iff_agree _ _ none).trans
        (info.rangeExact_iff_agree _ _ none).symm
  | some endParam =>
      exact (info.exactlyRequested_iff_agree _ _ (some endParam.position)).trans
        (info.rangeExact_iff_agree _ _ (some endParam.position)).symm

/-- Without an end, the positions on the lines after the start are not given. -/
theorem openRange_misses : ¬ backwardInfo.ExactlyRequested 1 ⟨2, 0⟩ none
    (backwardInfo.getPossibleBreakpointsByScriptId 1 ⟨2, 0⟩ ⟨-1, -1⟩) := by
  intro exactly
  have listed : (⟨5, 3⟩ : LineCol) ∈ backwardInfo.getPossibleBreakpointsByScriptId 1 ⟨2, 0⟩ ⟨-1, -1⟩ := by
    apply (exactly.2 ⟨5, 3⟩).mpr
    exact ⟨by decide, (requested_none _).mpr (by decide)⟩
  exact absurd listed (by decide)

end LEPUSDebuggerInfo

end PrimJs
