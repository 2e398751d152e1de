import Mathlib.Data.List.Induction
import Mathlib.Data.Prod.Lex
import Mathlib.Order.Bounds.Basic
import PrimJs.Inspector.Breakpoint

/-! `AdjustBreakpoint` moves a breakpoint to the nearest position, up to the order of the functions. -/

namespace PrimJs

namespace LineCol

def position (p : LineCol) : Int ×ₗ Int := toLex (p.line, p.column)

/-- A line table whose first entry cannot be read gives -1 and -1. -/
def known (p : LineCol) : Bool := 0 ≤ p.line && 0 ≤ p.column

theorem position_le (p q : LineCol) :
    p.position ≤ q.position ↔ p.line < q.line ∨ p.line = q.line ∧ p.column ≤ q.column :=
  Prod.Lex.toLex_le_toLex

/-- The positions at or after the request, in the order in which they are listed -/
def following (request : LineCol) (positions : List LineCol) : List LineCol :=
  positions.filter fun p => request.position ≤ p.position

theorem mem_following {request p : LineCol} {positions : List LineCol} :
    p ∈ request.following positions ↔ p ∈ positions ∧ request.position ≤ p.position := by
  simp [following]

end LineCol

section Rounds

variable {request : LineCol}

/-- A round on a function that can hold the request, whose start line is no further bound -/
def closerRound (request closed at_ : LineCol) : LineCol :=
  if request.position ≤ at_.position ∧ (closed.line = -1 ∨ at_.line ≤ closed.line)
      ∧ adjustSatisfy at_ request closed = true then at_
  else closed

theorem adjustRound_eq {b : DebuggerBytecode} (starts : b.lineNum - 1 ≤ request.line)
    (closed at_ : LineCol) : adjustRound b request closed at_ = closerRound request closed at_ := by
  rw [adjustRound, closerRound]
  have order := LineCol.position_le request at_
  by_cases follows : request.position ≤ at_.position
  · have after := order.mp follows
    by_cases past : closed.line ≠ -1 ∧ closed.line < at_.line
    · rw [if_pos (by simp [past]), if_neg (by omega)]
    · have filter : ¬ (at_.line < request.line || at_.line < b.lineNum - 1
          || (closed.line ≠ -1 && closed.line < at_.line)
          || (at_.line = request.line && at_.column < request.column)) = true := by
        simp only [Bool.or_eq_true, Bool.and_eq_true, decide_eq_true_eq]
        omega
      rw [if_neg filter]
      by_cases satisfied : adjustSatisfy at_ request closed = true
      · rw [if_pos satisfied, if_pos ⟨follows, by omega, satisfied⟩]
      · rw [if_neg satisfied, if_neg (fun all => satisfied all.2.2)]
  · have before : ¬ (request.line < at_.line ∨ request.line = at_.line
        ∧ request.column ≤ at_.column) := fun after => follows (order.mpr after)
    have filter : (at_.line < request.line || at_.line < b.lineNum - 1
        || (closed.line ≠ -1 && closed.line < at_.line)
        || (at_.line = request.line && at_.column < request.column)) = true := by
      simp only [Bool.or_eq_true, Bool.and_eq_true, decide_eq_true_eq]
      omega
    rw [if_pos filter, if_neg (fun all => follows all.1)]

/-- What the rounds have found: nothing, or a position on the least line; on the requested line it
has the least column, on a later one it is the first that was listed. -/
inductive Closest (request : LineCol) (candidates : List LineCol) : LineCol → Prop
  | none : candidates = [] → Closest request candidates ⟨-1, -1⟩
  | some {closed : LineCol} : closed ∈ candidates →
      (∀ p ∈ candidates, closed.line ≤ p.line) →
      (closed.line = request.line →
        ∀ p ∈ candidates, p.line = request.line → closed.column ≤ p.column) →
      (closed.line ≠ request.line →
        candidates.find? (fun p => p.line = closed.line) = Option.some closed) →
      Closest request candidates closed

theorem following_singleton (at_ : LineCol) :
    request.following [at_] = if request.position ≤ at_.position then [at_] else [] := by
  by_cases follows : request.position ≤ at_.position <;> simp [LineCol.following, follows]

/-- When a later position replaces the one found so far -/
theorem adjustSatisfy_iff (request at_ : LineCol) {closed : LineCol} (found : closed.line ≠ -1) :
    adjustSatisfy at_ request closed = true ↔
      (at_.line ≠ request.line ∧ at_.line < closed.line)
        ∨ (at_.line = request.line ∧ at_.line = closed.line ∧ at_.column < closed.column)
        ∨ (at_.line = request.line ∧ request.line ≠ closed.line) := by
  simp only [adjustSatisfy, Bool.or_eq_true, Bool.and_eq_true, decide_eq_true_eq]
  omega

theorem closerRound_closest {candidates : List LineCol} {closed at_ : LineCol}
    (known : ∀ p ∈ candidates, p.known = true)
    (after : ∀ p ∈ candidates, request.position ≤ p.position)
    (closest : Closest request candidates closed) :
    Closest request (candidates ++ request.following [at_]) (closerRound request closed at_) := by
  rw [following_singleton, closerRound]
  by_cases follows : request.position ≤ at_.position
  · rw [if_pos follows]
    cases closest with
    | none empty =>
        have satisfied : adjustSatisfy at_ request ⟨-1, -1⟩ = true := by simp [adjustSatisfy]
        rw [if_pos ⟨follows, Or.inl rfl, satisfied⟩, empty, List.nil_append]
        apply Closest.some
        · simp
        · simp
        · simp
        · intro _
          simp
    | some member least nearest first =>
        have found : closed.line ≠ -1 := by
          have nonneg := known closed member
          rw [LineCol.known, Bool.and_eq_true, decide_eq_true_eq] at nonneg
          omega
        have order := (LineCol.position_le request at_).mp follows
        have closedOrder := (LineCol.position_le request closed).mp (after closed member)
        have satisfy := adjustSatisfy_iff request at_ found
        by_cases replaced : at_.line ≤ closed.line ∧ adjustSatisfy at_ request closed = true
        · have better := satisfy.mp replaced.2
          rw [if_pos ⟨follows, Or.inr replaced.1, replaced.2⟩]
          apply Closest.some
          · simp
          · intro p inside
            rcases List.mem_append.mp inside with old | new
            · have bound := least p old
              omega
            · rw [List.mem_singleton.mp new]
          · intro onLine p inside pLine
            rcases List.mem_append.mp inside with old | new
            · have bound := least p old
              have closedLine : closed.line = request.line := by omega
              have column := nearest closedLine p old pLine
              omega
            · rw [List.mem_singleton.mp new]
          · intro later
            rw [List.find?_append]
            have fresh : candidates.find? (fun p => p.line = at_.line) = none := by
              apply List.find?_eq_none.mpr
              intro p old
              have bound := least p old
              rw [decide_eq_true_eq]
              omega
            rw [fresh]
            simp
        · have kept : ¬ (at_.line ≤ closed.line) ∨ ¬ ((at_.line ≠ request.line
                ∧ at_.line < closed.line)
              ∨ (at_.line = request.line ∧ at_.line = closed.line ∧ at_.column < closed.column)
              ∨ (at_.line = request.line ∧ request.line ≠ closed.line)) := by
            rw [← satisfy]
            exact not_and_or.mp replaced
          rw [if_neg (fun all => replaced ⟨all.2.1.resolve_left found, all.2.2⟩)]
          apply Closest.some
          · exact List.mem_append_left _ member
          · intro p inside
            rcases List.mem_append.mp inside with old | new
            · exact least p old
            · rw [List.mem_singleton.mp new]
              omega
          · intro onLine p inside pLine
            rcases List.mem_append.mp inside with old | new
            · exact nearest onLine p old pLine
            · rw [List.mem_singleton.mp new] at pLine ⊢
              omega
          · intro later
            rw [List.find?_append, first later]
            rfl
  · rw [if_neg follows, if_neg (fun all => follows all.1), List.append_nil]
    exact closest

theorem closerRounds_closest {positions : List LineCol}
    (known : ∀ p ∈ positions, p.known = true) :
    Closest request (request.following positions)
      (positions.foldl (closerRound request) ⟨-1, -1⟩) := by
  induction positions using List.reverseRecOn with
  | nil => exact Closest.none rfl
  | append_singleton positions at_ ih =>
      have earlier := ih fun p inside => known p (List.mem_append_left _ inside)
      have split : request.following (positions ++ [at_])
          = request.following positions ++ request.following [at_] := List.filter_append ..
      rw [List.foldl_append, split]
      apply closerRound_closest _ _ earlier
      · intro p inside
        exact known p (List.mem_append_left _ (LineCol.mem_following.mp inside).1)
      · intro p inside
        exact (LineCol.mem_following.mp inside).2

end Rounds

namespace LEPUSDebuggerInfo

variable (info : LEPUSDebuggerInfo) (url : String) (hash : Option String) (bp : LEPUSBreakpoint)

/-- The functions whose line tables `AdjustBreakpoint` reads -/
def consideredFunctions : List DebuggerBytecode :=
  match info.breakpointSource url hash with
  | none => []
  | some bsrc => info.bytecodeList.filter fun b =>
      b.hasDebug && b.script = some bsrc.id && !b.notInCurrentFunc bp.scriptId bp.line

def sourcePositions : List LineCol :=
  (info.consideredFunctions url hash bp).flatMap fun b => b.lines.map Prod.snd

/-- The breakpoint gets the least of the source positions at or after the request; it stays where
it is when there is none. -/
def MovesToNearest : Prop :=
  let moved := info.adjustBreakpoint url hash bp
  let request : LineCol := ⟨bp.line, bp.column⟩
  IsLeast {p | ∃ at_ ∈ request.following (info.sourcePositions url hash bp), at_.position = p}
      (LineCol.position ⟨moved.line, moved.column⟩)
    ∨ request.following (info.sourcePositions url hash bp) = []
      ∧ moved.line = bp.line ∧ moved.column = bp.column

/-- The request is read as a 32-bit column, and on a later line the first position is taken. -/
structure NearestFirst : Prop where
  sameColumn : ∀ p ∈ info.sourcePositions url hash bp, p.line = bp.line →
    (wrapInt32 bp.column ≤ p.column ↔ bp.column ≤ p.column)
  firstOnLine : ∀ p ∈ LineCol.following ⟨bp.line, bp.column⟩ (info.sourcePositions url hash bp),
    (∀ q ∈ LineCol.following ⟨bp.line, bp.column⟩ (info.sourcePositions url hash bp),
      p.line ≤ q.line) → p.line ≠ bp.line →
    ∀ first, (LineCol.following ⟨bp.line, bp.column⟩ (info.sourcePositions url hash bp)).find?
      (fun q => q.line = p.line) = some first → first.column ≤ p.column

def closedPosition : LineCol :=
  (info.sourcePositions url hash bp).foldl (closerRound ⟨bp.line, wrapInt32 bp.column⟩) ⟨-1, -1⟩

theorem foldl_rounds {request closed : LineCol} {functions : List DebuggerBytecode}
    (starts : ∀ b ∈ functions, b.lineNum - 1 ≤ request.line) :
    functions.foldl (fun closed b =>
        b.lines.foldl (fun closed round => adjustRound b request closed round.2) closed) closed
      = (functions.flatMap fun b => b.lines.map Prod.snd).foldl (closerRound request) closed := by
  rw [List.foldl_flatMap]
  apply List.foldl_ext
  intro closed b inside
  rw [List.foldl_map]
  apply List.foldl_ext
  intro closed round _
  exact adjustRound_eq (starts b inside) closed round.2

theorem adjustBreakpoint_position :
    ((info.adjustBreakpoint url hash bp).line, (info.adjustBreakpoint url hash bp).column)
      = if 0 ≤ (info.closedPosition url hash bp).column ∧ 0 ≤ (info.closedPosition url hash bp).line
        then ((info.closedPosition url hash bp).line, (info.closedPosition url hash bp).column)
        else (bp.line, bp.column) := by
  rw [adjustBreakpoint, closedPosition, sourcePositions, consideredFunctions]
  cases info.breakpointSource url hash with
  | none => rfl
  | some bsrc =>
      dsimp only
      have starts : ∀ b ∈ info.bytecodeList.filter (fun b =>
          b.hasDebug && b.script = some bsrc.id && !b.notInCurrentFunc bp.scriptId bp.line),
          b.lineNum - 1 ≤ bp.line := by
        intro b inside
        have considered := (List.mem_filter.mp inside).2
        simp only [DebuggerBytecode.notInCurrentFunc, Bool.and_eq_true, Bool.not_eq_true',
          Bool.or_eq_false_iff, decide_eq_false_iff_not] at considered
        omega
      rw [foldl_rounds starts]
      split_ifs <;> rfl

theorem lt_wrapInt32 {column : Int} (more : column < wrapInt32 column) : column < 0 := by
  rw [wrapInt32, toInt32, ofInt32] at more
  split_ifs at more <;> omega

theorem following_congr (request request' : LineCol) {positions : List LineCol}
    (line : request.line = request'.line)
    (column : ∀ p ∈ positions, p.line = request.line →
      (request'.column ≤ p.column ↔ request.column ≤ p.column)) :
    request'.following positions = request.following positions := by
  apply List.filter_congr
  intro p inside
  rw [decide_eq_decide, LineCol.position_le, LineCol.position_le]
  by_cases onLine : p.line = request.line
  · have same := column p inside onLine
    omega
  · omega

section Nearest

variable {info} {url} {hash} {bp}
variable (readable : ∀ p ∈ info.sourcePositions url hash bp, p.known = true)
include readable

theorem closedPosition_closest :
    Closest ⟨bp.line, wrapInt32 bp.column⟩
      (LineCol.following ⟨bp.line, wrapInt32 bp.column⟩ (info.sourcePositions url hash bp))
      (info.closedPosition url hash bp) :=
  closerRounds_closest readable

theorem moved_of_closest {closed : LineCol} (same : info.closedPosition url hash bp = closed)
    (member : closed ∈ LineCol.following ⟨bp.line, wrapInt32 bp.column⟩
      (info.sourcePositions url hash bp)) :
    (info.adjustBreakpoint url hash bp).line = closed.line
      ∧ (info.adjustBreakpoint url hash bp).column = closed.column := by
  have known := readable closed (LineCol.mem_following.mp member).1
  rw [LineCol.known, Bool.and_eq_true, decide_eq_true_eq, decide_eq_true_eq] at known
  have moved := info.adjustBreakpoint_position url hash bp
  rw [same, if_pos ⟨known.2, known.1⟩] at moved
  exact Prod.mk.inj moved

omit readable in
theorem unmoved_of_none (same : info.closedPosition url hash bp = ⟨-1, -1⟩) :
    (info.adjustBreakpoint url hash bp).line = bp.line
      ∧ (info.adjustBreakpoint url hash bp).column = bp.column := by
  have moved := info.adjustBreakpoint_position url hash bp
  rw [same, if_neg (by decide)] at moved
  exact Prod.mk.inj moved

theorem movesToNearest_of_nearestFirst (nearestFirst : info.NearestFirst url hash bp) :
    info.MovesToNearest url hash bp := by
  have closest := closedPosition_closest readable
  have candidates := following_congr ⟨bp.line, bp.column⟩
    ⟨bp.line, wrapInt32 bp.column⟩ rfl nearestFirst.sameColumn
  generalize closedEq : info.closedPosition url hash bp = closed at closest
  cases closest with
  | none empty =>
      right
      exact ⟨candidates ▸ empty, unmoved_of_none closedEq⟩
  | some member least nearest first =>
      obtain ⟨line, column⟩ := moved_of_closest readable closedEq member
      rw [candidates] at member least nearest first
      left
      rw [line, column]
      refine ⟨⟨closed, member, rfl⟩, ?_⟩
      rintro _ ⟨p, inside, rfl⟩
      apply (LineCol.position_le closed p).mpr
      rcases Int.lt_or_eq_of_le (least p inside) with below | same
      · exact Or.inl below
      · right
        refine ⟨same, ?_⟩
        by_cases onLine : closed.line = bp.line
        · exact nearest onLine p inside (same ▸ onLine)
        · apply nearestFirst.firstOnLine p inside
          · intro q member'
            exact same ▸ least q member'
          · exact same ▸ onLine
          · rw [← same]
            exact first onLine

theorem sameColumn_of_movesToNearest (moves : info.MovesToNearest url hash bp) {p : LineCol}
    (inside : p ∈ info.sourcePositions url hash bp) (onLine : p.line = bp.line) :
    wrapInt32 bp.column ≤ p.column ↔ bp.column ≤ p.column := by
  have closest := closedPosition_closest readable
  generalize closedEq : info.closedPosition url hash bp = closed at closest
  constructor
  · intro above
    by_contra before
    have member : p ∈ LineCol.following ⟨bp.line, wrapInt32 bp.column⟩
        (info.sourcePositions url hash bp) :=
      LineCol.mem_following.mpr ⟨inside, (LineCol.position_le _ _).mpr (Or.inr ⟨onLine.symm, above⟩)⟩
    cases closest with
    | none empty =>
        rw [empty] at member
        cases member
    | some found least nearest first =>
        have order := (LineCol.position_le _ _).mp (LineCol.mem_following.mp found).2
        dsimp only at order
        have bound := least p member
        have closedLine : closed.line = bp.line := by omega
        have closer := nearest closedLine p member onLine
        obtain ⟨line, column⟩ := moved_of_closest readable closedEq found
        rcases moves with isLeast | ⟨-, -, stays⟩
        · obtain ⟨q, follows, position⟩ := isLeast.1
          have after := (LineCol.mem_following.mp follows).2
          rw [position, LineCol.position_le] at after
          rw [line, column] at after
          dsimp only at after
          omega
        · omega
  · intro above
    by_contra before
    have member : p ∈ LineCol.following ⟨bp.line, bp.column⟩ (info.sourcePositions url hash bp) :=
      LineCol.mem_following.mpr ⟨inside, (LineCol.position_le _ _).mpr (Or.inr ⟨onLine.symm, above⟩)⟩
    rcases moves with isLeast | ⟨empty, -, -⟩
    · have bound := (LineCol.position_le _ p).mp (isLeast.2 ⟨p, member, rfl⟩)
      obtain ⟨q, follows, position⟩ := isLeast.1
      have after := (LineCol.mem_following.mp follows).2
      rw [position, LineCol.position_le] at after
      dsimp only at bound after
      cases closest with
      | none _ =>
          obtain ⟨line, column⟩ := unmoved_of_none closedEq
          have negative := lt_wrapInt32 (show bp.column < wrapInt32 bp.column by omega)
          have known := readable q (LineCol.mem_following.mp follows).1
          rw [LineCol.known, Bool.and_eq_true, decide_eq_true_eq, decide_eq_true_eq] at known
          have coordinates := Prod.mk.inj (toLex.injective position)
          dsimp only at coordinates
          omega
      | some found _ _ _ =>
          obtain ⟨line, column⟩ := moved_of_closest readable closedEq found
          have order := (LineCol.position_le _ _).mp (LineCol.mem_following.mp found).2
          dsimp only at order
          omega
    · rw [empty] at member
      cases member

/-- `AdjustBreakpoint` finds the nearest position exactly when the column of the request is not
cut in a way that matters, and the first position listed on a later line is its least one. -/
theorem movesToNearest_iff :
    info.MovesToNearest url hash bp ↔ info.NearestFirst url hash bp := by
  constructor
  · intro moves
    have sameColumn : ∀ p ∈ info.sourcePositions url hash bp, p.line = bp.line →
        (wrapInt32 bp.column ≤ p.column ↔ bp.column ≤ p.column) :=
      fun p inside onLine => sameColumn_of_movesToNearest readable moves inside onLine
    refine ⟨sameColumn, ?_⟩
    intro p inside least later first listed
    have closest := closedPosition_closest readable
    have candidates := following_congr ⟨bp.line, bp.column⟩
      ⟨bp.line, wrapInt32 bp.column⟩ rfl sameColumn
    generalize closedEq : info.closedPosition url hash bp = closed at closest
    rw [candidates] at closest
    cases closest with
    | none empty =>
        rw [empty] at inside
        cases inside
    | some found least' nearest first' =>
        have line : closed.line = p.line := le_antisymm (least' p inside) (least closed found)
        have same := first' (line ▸ later)
        rw [line, listed] at same
        obtain ⟨movedLine, movedColumn⟩ := moved_of_closest readable closedEq (candidates ▸ found)
        rcases moves with isLeast | ⟨empty, -, -⟩
        · have bound := (LineCol.position_le _ p).mp (isLeast.2 ⟨p, inside, rfl⟩)
          rw [movedLine, movedColumn] at bound
          dsimp only at bound
          have firstEq : first = closed := Option.some.inj same
          rw [firstEq]
          omega
        · rw [empty] at inside
          cases inside
  · exact movesToNearest_of_nearestFirst readable

end Nearest

section Example

/-- A function whose code visits line 5 first at column 9 and then at column 3 -/
def backwardFunction : DebuggerBytecode :=
  ⟨some 1, true, 1, 0, [0, 1, 0x8A, 0x80, 0x05, 0, 1, 0xFF, 0xFF, 0x02], 0⟩

def backwardInfo : LEPUSDebuggerInfo :=
  ⟨[⟨1, some "a.js", none⟩], [backwardFunction], [], 0, 1, [], true, 1⟩

def backwardRequest : LEPUSBreakpoint := ⟨⟨0, ""⟩, "a.js", 1, 2, 0, none, none, false, none⟩

theorem backward_positions :
    backwardInfo.sourcePositions "a.js" none backwardRequest = [⟨0, 0⟩, ⟨5, 9⟩, ⟨5, 3⟩] := by
  decide

theorem movesToNearest_iff_backward :
    backwardInfo.MovesToNearest "a.js" none backwardRequest
      ↔ backwardInfo.NearestFirst "a.js" none backwardRequest :=
  movesToNearest_iff (by
    rw [backward_positions]
    decide)

/-- The breakpoint for line 2 is put at the later of two columns. -/
theorem laterColumn_taken : ¬ backwardInfo.MovesToNearest "a.js" none backwardRequest := by
  have moved : ((backwardInfo.adjustBreakpoint "a.js" none backwardRequest).line,
      (backwardInfo.adjustBreakpoint "a.js" none backwardRequest).column) = (5, 9) := by decide
  have nearer : (⟨5, 3⟩ : LineCol) ∈ LineCol.following ⟨2, 0⟩
      (backwardInfo.sourcePositions "a.js" none backwardRequest) := by
    rw [backward_positions]
    decide
  rintro (isLeast | ⟨empty, -⟩)
  · have bound := (LineCol.position_le _ _).mp (isLeast.2 ⟨_, nearer, rfl⟩)
    rw [(Prod.mk.inj moved).1, (Prod.mk.inj moved).2] at bound
    exact absurd bound (by decide)
  · exact List.ne_nil_of_mem nearer empty

end Example

end LEPUSDebuggerInfo

end PrimJs
