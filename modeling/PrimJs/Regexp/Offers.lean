import PrimJs.Regexp.Copying

/-! What a piece of the code offers to the code after it: the points where the machine leaves the
piece, one after the other as what follows them fails. -/

namespace PrimJs.Regexp

/-- A position in the input with the captures there. -/
structure Point where
  cptr : Nat
  capture : List Word
  deriving DecidableEq, Repr

/-- The machine at `pc` and at a point, with the counters below those of the code that runs. -/
structure Arrived (size : Nat) (counters : List Word) (pc : Nat) (p : Point) (s : CopyState) :
    Prop where
  pc : s.pc = pc
  cptr : s.cptr = p.cptr
  stack_len : s.stack_len = counters.length
  capture : s.slots.capture = p.capture
  size : s.slots.stack.length = size
  counters : counters <+: s.slots.stack

def NoLookahead (frames : List CopyFrame) : Prop := ∀ f ∈ frames, f.kind.isLookahead = false

/-- The turns of the code from `entry` to `exit`, up to the failure that goes back to `below`. -/
inductive Offers (x : ExecContext) (base : Slots) (size entry exit : Nat) (counters : List Word)
    (below : List CopyFrame) : Except ExecResult CopyState → List Point → Prop where
  | fail {turn : Except ExecResult CopyState} : turn = backtrack x base below →
      Offers x base size entry exit counters below turn []
  | step {s : CopyState} {outs : List Point} : entry ≤ s.pc → s.pc < exit →
      Offers x base size entry exit counters below (copyStep x base s) outs →
      Offers x base size entry exit counters below (.ok s) outs
  | out {s : CopyState} {p : Point} {own : List CopyFrame} {outs : List Point} :
      Arrived size counters exit p s → s.frames = own ++ below → NoLookahead own →
      Offers x base size entry exit counters below (backtrack x base s.frames) outs →
      Offers x base size entry exit counters below (.ok s) (p :: outs)

variable {x : ExecContext} {base : Slots} {size : Nat}

theorem NoLookahead.append {front back : List CopyFrame} (h : NoLookahead front)
    (h' : NoLookahead back) : NoLookahead (front ++ back) :=
  fun f member => (List.mem_append.mp member).elim (h f) (h' f)

variable {turn : Except ExecResult CopyState}

/-- What comes after a failure that goes back to the frames of another piece. -/
theorem Offers.over {entry exit : Nat} {counters : List Word} {own below : List CopyFrame}
    {outs outs' : List Point}
    (first : Offers x base size entry exit counters (own ++ below) turn outs)
    (plain : NoLookahead own)
    (second : Offers x base size entry exit counters below (backtrack x base (own ++ below)) outs') :
    Offers x base size entry exit counters below turn (outs ++ outs') := by
  induction first with
  | fail back =>
      rw [back]
      exact second
  | step low high _ ih => exact .step low high ih
  | out arrived frames plain' _ ih =>
      exact .out arrived (by rw [frames, List.append_assoc]) (plain'.append plain) ih

/-- A piece and the code after it. -/
theorem Offers.bind {entry mid exit : Nat} {counters counters' : List Word}
    {below : List CopyFrame} {outs : List Point}
    (first : Offers x base size entry mid counters below turn outs) {entry' : Nat}
    (low : entry' ≤ entry) (high : mid ≤ exit) (f : Point → List Point)
    (second : ∀ p ∈ outs, ∀ s, Arrived size counters mid p s →
      Offers x base size entry' exit counters' s.frames (.ok s) (f p)) :
    Offers x base size entry' exit counters' below turn (outs.flatMap f) := by
  induction first with
  | fail back => exact .fail back
  | step low' high' _ ih =>
      exact .step (Nat.le_trans low low') (Nat.lt_of_lt_of_le high' high) (ih second)
  | @out s p own outs arrived frames plain later ih =>
      rw [List.flatMap_cons]
      have here := second p List.mem_cons_self s arrived
      rw [frames] at here
      refine here.over plain ?_
      rw [← frames]
      exact ih fun q member => second q (List.mem_cons_of_mem _ member)

/-! ### Pieces -/

/-- The code from `pc` on leaves the range from `low` to `exit` at the points `outs`. -/
def Runs (x : ExecContext) (base : Slots) (size low pc exit : Nat) (counters counters' : List Word)
    (p : Point) (outs : List Point) : Prop :=
  ∀ s, Arrived size counters pc p s → Offers x base size low exit counters' s.frames (.ok s) outs

variable {low pc exit : Nat} {counters counters' : List Word} {p : Point} {outs : List Point}

theorem Runs.here (x : ExecContext) (base : Slots) (size low pc : Nat) (counters : List Word)
    (p : Point) : Runs x base size low pc pc counters counters p [p] :=
  fun _ arrived => .out arrived (List.nil_append _).symm (by rintro f ⟨⟩) (.fail rfl)

theorem Runs.bind {mid low' : Nat} {counters₁ : List Word}
    (first : Runs x base size low pc mid counters counters₁ p outs) (wide : low' ≤ low)
    (high : mid ≤ exit) {f : Point → List Point}
    (second : ∀ q ∈ outs, Runs x base size low' mid exit counters₁ counters' q (f q)) :
    Runs x base size low' pc exit counters counters' p (outs.flatMap f) :=
  fun s arrived => (first s arrived).bind wide high f second

theorem Runs.weaken {low' : Nat} (run : Runs x base size low pc exit counters counters' p outs)
    (wide : low' ≤ low) : Runs x base size low' pc exit counters counters' p outs := by
  have whole := run.bind wide (le_refl _) fun q _ => Runs.here x base size low' exit counters' q
  rwa [List.flatMap_singleton'] at whole

theorem Runs.next {pc' : Nat} {counters₁ : List Word} {p' : Point} (within : low ≤ pc ∧ pc < exit)
    (turn : ∀ s, Arrived size counters pc p s →
      ∃ t, copyStep x base s = .ok t ∧ t.frames = s.frames ∧ Arrived size counters₁ pc' p' t)
    (rest : Runs x base size low pc' exit counters₁ counters' p' outs) :
    Runs x base size low pc exit counters counters' p outs := by
  intro s arrived
  obtain ⟨t, step, frames, arrived'⟩ := turn s arrived
  refine .step (by rw [arrived.pc]; exact within.1) (by rw [arrived.pc]; exact within.2) ?_
  rw [step, ← frames]
  exact rest t arrived'

theorem Runs.fails (within : low ≤ pc ∧ pc < exit)
    (turn : ∀ s, Arrived size counters pc p s → copyStep x base s = backtrack x base s.frames) :
    Runs x base size low pc exit counters counters' p [] :=
  fun s arrived => .step (by rw [arrived.pc]; exact within.1) (by rw [arrived.pc]; exact within.2)
    (.fail (turn s arrived))

/-- The first way and, after it, the one that the frame keeps. -/
theorem Runs.split {pc₁ pc₂ : Nat} {outs' : List Point} (within : low ≤ pc ∧ pc < exit)
    (turn : ∀ s, Arrived size counters pc p s →
      action x s.slots s.stack_len s.pc s.cptr = .push .split pc₂ pc₁ s.cptr)
    (first : Runs x base size low pc₁ exit counters counters' p outs)
    (second : Runs x base size low pc₂ exit counters counters' p outs') :
    Runs x base size low pc exit counters counters' p (outs ++ outs') := by
  intro s arrived
  refine .step (by rw [arrived.pc]; exact within.1) (by rw [arrived.pc]; exact within.2) ?_
  rw [copyStep, turn s arrived]
  have way : Offers x base size low exit counters'
      ([⟨.split, pc₂, s.cptr, s.stack_len, s.slots⟩] ++ s.frames) _ outs :=
    first { s with
      pc := pc₁
      frames := [⟨.split, pc₂, s.cptr, s.stack_len, s.slots⟩] ++ s.frames }
      ⟨rfl, arrived.cptr, arrived.stack_len, arrived.capture, arrived.size, arrived.counters⟩
  refine way.over ?_ (second { s with pc := pc₂ }
    ⟨rfl, arrived.cptr, arrived.stack_len, arrived.capture, arrived.size, arrived.counters⟩)
  rintro f (_ | ⟨_, ⟨⟩⟩)
  rfl

theorem enclosingLookahead_own {own : List CopyFrame} (plain : NoLookahead own) {f : CopyFrame}
    (lookahead : f.kind.isLookahead = true) (below : List CopyFrame) :
    enclosingLookahead (own ++ f :: below) = some (f, below) := by
  induction own with
  | nil => rw [List.nil_append, enclosingLookahead, if_pos lookahead]
  | cons g own ih =>
      rw [List.cons_append, enclosingLookahead, plain g List.mem_cons_self,
        if_neg Bool.false_ne_true]
      exact ih fun f member => plain f (List.mem_cons_of_mem _ member)

def lookOuts (is_neg : Bool) (p : Point) (outs : List Point) : List Point :=
  if is_neg then (if outs = [] then [p] else [])
  else outs.head?.toList.map fun q => { q with cptr := p.cptr }

theorem Offers.look {entry stop : Nat} {frame : CopyFrame} {below : List CopyFrame}
    {is_neg : Bool} (kind : frame.kind = if is_neg then .negative_lookahead else .lookahead)
    (fetched : fetch x.code stop = some .match) (arrived : Arrived size counters exit p
      ⟨frame.pc, frame.cptr, frame.stack_len, frame.saved, below⟩)
    (wide : low ≤ entry ∧ entry ≤ stop ∧ stop < exit)
    (body : Offers x base size entry stop counters (frame :: below) turn outs) :
    Offers x base size low exit counters below turn (lookOuts is_neg p outs) := by
  have here : ∀ s : CopyState, Arrived size counters exit p s → s.frames = below →
      Offers x base size low exit counters below (.ok s) [p] := by
    rintro s there rfl
    exact Runs.here x base size low exit counters p s there
  induction body with
  | fail back =>
      rw [back, backtrack, kind]
      cases is_neg with
      | true => exact here _ arrived rfl
      | false => exact .fail rfl
  | step low' high' _ ih => exact .step (by omega) (by omega) ih
  | @out s q own outs arrived' frames plain later ih =>
      refine .step (by rw [arrived'.pc]; omega) (by rw [arrived'.pc]; omega) ?_
      have matched : action x s.slots s.stack_len s.pc s.cptr = .matched := by
        rw [action, arrived'.pc, fetched]
      have lookahead : frame.kind.isLookahead = true := by
        rw [kind]
        cases is_neg <;> rfl
      rw [copyStep, matched]
      dsimp only
      rw [succeed, frames, enclosingLookahead_own plain lookahead]
      dsimp only
      rw [kind]
      cases is_neg with
      | true => exact .fail rfl
      | false =>
          exact Runs.here x base size low exit counters { q with cptr := p.cptr }
            ⟨frame.pc, frame.cptr, frame.stack_len, s.slots, below⟩
            ⟨arrived.pc, arrived.cptr, arrived.stack_len, arrived'.capture, arrived'.size,
              arrived'.counters⟩

/-- A lookahead whose body ends in the match at `stop`. -/
theorem Runs.look {is_neg : Bool} {pc₁ stop : Nat} (within : low ≤ pc ∧ pc < exit)
    (fetched : fetch x.code stop = some .match)
    (turn : ∀ s, Arrived size counters pc p s → action x s.slots s.stack_len s.pc s.cptr =
      .push (if is_neg then .negative_lookahead else .lookahead) exit pc₁ s.cptr)
    (wide : low ≤ pc₁ ∧ pc₁ ≤ stop ∧ stop < exit)
    (body : Runs x base size pc₁ pc₁ stop counters counters p outs) :
    Runs x base size low pc exit counters counters p (lookOuts is_neg p outs) := by
  intro s arrived
  refine .step (by rw [arrived.pc]; exact within.1) (by rw [arrived.pc]; exact within.2) ?_
  rw [copyStep, turn s arrived]
  generalize hkind : (if is_neg then FrameKind.negative_lookahead else .lookahead) = kind
  have same : ∀ pc, Arrived size counters pc p { s with pc := pc } := fun pc =>
    ⟨rfl, arrived.cptr, arrived.stack_len, arrived.capture, arrived.size, arrived.counters⟩
  have inside := body { s with
      pc := pc₁
      frames := ⟨kind, exit, s.cptr, s.stack_len, s.slots⟩ :: s.frames }
    ⟨rfl, arrived.cptr, arrived.stack_len, arrived.capture, arrived.size, arrived.counters⟩
  exact Offers.look hkind.symm fetched (same exit) wide inside

end PrimJs.Regexp
