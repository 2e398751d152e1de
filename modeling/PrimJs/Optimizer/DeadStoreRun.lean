import PrimJs.Optimizer.DeadStore

/-! Which stores the prescan takes for dead, and that nobody misses them. -/

namespace PrimJs.DeadStore

open CheckedStore TraceSimulation

section Prescan

/-- What keeps the scan from taking a variable for one that is never read -/
def FunctionDef.Guarded (f : FunctionDef) (n : Nat) : Prop :=
  f.isCaptured n = true ∨ (n : Int) ∈ f.specialVars ∨ f.hasEvalCall = true ∨
    ∃ i ∈ f.instrs, i.scanRead? = some n

theorem set_true_unread (bits : List Bool) (idx n : Nat) :
    (bits.set idx true)[n]? = some false ↔ bits[n]? = some false ∧ idx ≠ n := by
  rw [List.getElem?_set]
  split
  · rename_i same
    split <;> simp [same]
  · rename_i other
    simp [other]

theorem markSpecial_unread (bits : List Bool) (idx : Int) (n : Nat) :
    (markSpecial bits idx)[n]? = some false ↔ bits[n]? = some false ∧ idx ≠ n := by
  unfold markSpecial
  split
  · rw [set_true_unread]
    have same : idx.toNat ≠ n ↔ idx ≠ n := by omega
    rw [same]
  · have other : idx ≠ n := by omega
    simp [other]

theorem markSpecials_unread (vars : List Int) (bits : List Bool) (n : Nat) :
    (vars.foldl markSpecial bits)[n]? = some false ↔
      bits[n]? = some false ∧ (n : Int) ∉ vars := by
  induction vars generalizing bits with
  | nil => simp
  | cons idx vars ih =>
      rw [List.foldl_cons, ih, markSpecial_unread, List.mem_cons, not_or, and_assoc]
      exact Iff.rfl.and (Iff.and ⟨Ne.symm, Ne.symm⟩ Iff.rfl)

theorem scan_unread (instrs : List Instr) (s : Scan) (n : Nat) :
    (instrs.foldl Scan.instr s).varIsRead[n]? = some false ↔
      s.varIsRead[n]? = some false ∧ ∀ i ∈ instrs, i.scanRead? ≠ some n := by
  induction instrs generalizing s with
  | nil => simp
  | cons i instrs ih =>
      have here : (s.instr i).varIsRead[n]? = some false ↔
          s.varIsRead[n]? = some false ∧ i.scanRead? ≠ some n := by
        cases read : i.scanRead? with
        | none => simp [Scan.instr, read]
        | some idx => simp [Scan.instr, read, set_true_unread]
      rw [List.foldl_cons, ih, here, List.forall_mem_cons, and_assoc]

theorem neverRead_iff (f : FunctionDef) (allocated : Bool) (n : Nat) :
    f.neverRead allocated n = true ↔ allocated = true ∧ n < f.varCount ∧ ¬f.Guarded n := by
  cases allocated with
  | false => simp [FunctionDef.neverRead, optPrescanTdzDse, OptCtx.neverRead]
  | true =>
      have start : (List.replicate f.varCount false)[n]? = some false ↔ n < f.varCount := by
        simp [List.getElem?_replicate]
      have eval : (List.replicate f.varCount true)[n]? ≠ some false := by
        simp [List.getElem?_replicate]
      by_cases direct : f.hasEvalCall = true
      · simp [FunctionDef.neverRead, optPrescanTdzDse, OptCtx.neverRead, direct,
          FunctionDef.Guarded, eval]
      · have captured (bits : List Bool) :
            (bits.mapIdx fun i read => if f.isCaptured i then true else read)[n]? = some false ↔
              bits[n]? = some false ∧ ¬f.isCaptured n = true := by
          rw [List.getElem?_mapIdx]
          cases bits[n]? <;> simp
          grind
        simp only [FunctionDef.neverRead, optPrescanTdzDse, OptCtx.neverRead, direct,
          FunctionDef.Guarded, Bool.not_true, Bool.false_eq_true, if_false, Bool.and_eq_true,
          decide_eq_true_eq, markSpecials_unread, captured, scan_unread, start]
        grind

end Prescan

section Elimination

variable {never : Nat → Bool} {i : Instr} {n : Nat}

theorem isDeadPut_iff : i.isDeadPut never = true ↔ ∃ n, i.loc? = some (.put, n) ∧ never n = true := by
  unfold Instr.isDeadPut
  split <;> simp_all

theorem isDeadSlu_iff :
    i.isDeadSlu never = true ↔ ∃ n, i.loc? = some (.setUninitialized, n) ∧ never n = true := by
  unfold Instr.isDeadSlu
  split <;> simp_all

theorem isDeadPutCheck_loc (dead : i.isDeadPutCheck never = true) :
    ∃ n, (i.loc? = some (.putCheck, n) ∨ i.loc? = some (.putCheckInit, n)) ∧ never n = true := by
  unfold Instr.isDeadPutCheck at dead
  split at dead <;> simp_all

inductive Eliminated (never : Nat → Bool) : List Instr → List Instr → Prop where
  | nil : Eliminated never [] []
  | dupStore {i j : Instr} {rest out : List Instr} (dup : i.op = opDup)
      (dead : j.isDeadPut never = true ∨ j.isDeadPutCheck never = true)
      (later : Eliminated never rest out) : Eliminated never (i :: j :: rest) out
  | store {i : Instr} {rest out : List Instr}
      (dead : i.isDeadPut never = true ∨ i.isDeadPutCheck never = true)
      (later : Eliminated never rest out) : Eliminated never (i :: rest) (drop :: out)
  | slu {i : Instr} {rest out : List Instr} (dead : i.isDeadSlu never = true)
      (later : Eliminated never rest out) : Eliminated never (i :: rest) out
  | dropped {i : Instr} {rest out : List Instr} (op : i.op = opDrop)
      (later : Eliminated never rest out) : Eliminated never (i :: rest) (drop :: out)
  | kept {i : Instr} {rest out : List Instr} (later : Eliminated never rest out) :
      Eliminated never (i :: rest) (i :: out)

theorem eliminated_eliminate (never : Nat → Bool) (code : List Instr) :
    Eliminated never code (eliminate never code) := by
  fun_induction eliminate never code with
  | case1 => exact .nil
  | case2 i dup => exact .kept .nil
  | case3 i dup j dead => exact .dupStore dup (.inl dead) .nil
  | case4 i dup j dead k rest op ih => exact .dupStore dup (.inl dead) (.dropped op ih)
  | case5 i dup j dead k rest op ih => exact .dupStore dup (.inl dead) ih
  | case6 i dup j _ dead ih => exact .kept ih
  | case7 i dup j _ dead k rest op ih => exact .dupStore dup (.inr dead) (.dropped op ih)
  | case8 i dup j _ dead k rest op ih => exact .kept ih
  | case9 i dup j rest _ _ ih => exact .kept ih
  | case10 i rest _ dead ih => exact .store (Bool.or_eq_true_iff.mp dead) ih
  | case11 i rest _ _ dead ih => exact .slu dead ih
  | case12 i rest _ _ _ ih => exact .kept ih

/-- Control goes on only after instructions that stay. -/
def Stays (p : Instr → Bool) : Prop := ∀ i, p i = true → i.op = opLabel ∨ i.op = opGosub

theorem stays_label (l : Nat) : Stays (Instr.isLabel l) := by
  intro i found
  exact .inl (eq_of_beq (Bool.and_eq_true_iff.mp found).1)

theorem stays_gosub : Stays Instr.isGosub := fun _ found => .inr (eq_of_beq found)

variable {p : Instr → Bool}

theorem loc?_of_stays (stays : Stays p) (found : p i = true) : i.loc? = none := by
  rcases stays i found with op | op
  all_goals
    unfold Instr.loc?
    rw [op]
    rfl

theorem Stays.false_of_loc (stays : Stays p) (loc : i.loc? ≠ none) : p i = false :=
  Bool.eq_false_iff.mpr fun found => loc (loc?_of_stays stays found)

theorem Stays.false_of_op (stays : Stays p) (op : i.op = opDup ∨ i.op = opDrop) : p i = false := by
  refine Bool.eq_false_iff.mpr fun found => ?_
  have := stays i found
  simp only [opDup, opDrop, opLabel, opGosub] at *
  omega

theorem Stays.false_of_store (stays : Stays p)
    (dead : i.isDeadPut never = true ∨ i.isDeadPutCheck never = true) : p i = false := by
  refine stays.false_of_loc ?_
  rcases dead with dead | dead
  · have ⟨n, loc, _⟩ := isDeadPut_iff.mp dead
    simp [loc]
  · have ⟨n, loc, _⟩ := isDeadPutCheck_loc dead
    rcases loc with loc | loc <;> simp [loc]

theorem Stays.false_of_slu (stays : Stays p) (dead : i.isDeadSlu never = true) : p i = false := by
  have ⟨n, loc, _⟩ := isDeadSlu_iff.mp dead
  exact stays.false_of_loc (by simp [loc])

theorem after_skip {k : Nat} {rest : List Instr} (other : p i = false) :
    after p k (i :: rest) = after p k rest := by
  simp [after, other]

/-- Jumps find the same place in what is left of the code. -/
theorem Eliminated.after {code out : List Instr} (stays : Stays p)
    (eliminated : Eliminated never code out) (k : Nat) :
    Option.Rel (Eliminated never) (after p k code) (after p k out) := by
  have isDrop : p drop = false := stays.false_of_op (.inr rfl)
  induction eliminated generalizing k with
  | nil => exact .none
  | dupStore dup dead _ ih =>
      rw [after_skip (stays.false_of_op (.inl dup)), after_skip (stays.false_of_store dead)]
      exact ih k
  | store dead _ ih =>
      rw [after_skip (stays.false_of_store dead), after_skip isDrop]
      exact ih k
  | slu dead _ ih =>
      rw [after_skip (stays.false_of_slu dead)]
      exact ih k
  | dropped op _ ih =>
      rw [after_skip (stays.false_of_op (.inr op)), after_skip isDrop]
      exact ih k
  | @kept i rest out later ih =>
      by_cases found : p i = true
      · cases k with
        | zero => simpa [DeadStore.after, found] using Option.Rel.some later
        | succ k => simpa [DeadStore.after, found] using ih k
      · simpa [DeadStore.after, found] using ih k

theorem Eliminated.countP {code out : List Instr} (eliminated : Eliminated never code out) :
    out.countP Instr.isGosub = code.countP Instr.isGosub := by
  have isDrop : drop.isGosub = false := rfl
  have stays := stays_gosub
  induction eliminated with
  | nil => rfl
  | dupStore dup dead _ ih => simp [stays.false_of_op (.inl dup), stays.false_of_store dead, ih]
  | store dead _ ih => simp [stays.false_of_store dead, isDrop, ih]
  | slu dead _ ih => simp [stays.false_of_slu dead, ih]
  | dropped op _ ih => simp [stays.false_of_op (.inr op), isDrop, ih]
  | kept _ ih => rw [List.countP_cons, List.countP_cons, ih]

theorem after_suffix {k : Nat} {code rest : List Instr} (found : after p k code = some rest) :
    rest <:+ code := by
  induction code generalizing k with
  | nil => simp [after] at found
  | cons i code ih =>
      have later : ∀ k, after p k code = some rest → rest <:+ i :: code :=
        fun k found => (ih found).trans (List.suffix_cons i code)
      by_cases here : p i = true
      · cases k with
        | zero =>
            have same : code = rest := by simpa [after, here] using found
            exact same ▸ List.suffix_cons i code
        | succ k => exact later k (by simpa [after, here] using found)
      · exact later k (by simpa [after, here] using found)

end Elimination

section Simulation

variable {V W ε ρ : Type} (M : Interpreter V W ε ρ) {shared never : Nat → Bool}
  {code out : List Instr}

variable {s s' : State V W} {rest : List Instr}

theorem Eliminated.resume {rest' : List Instr} (whole : Eliminated never code out)
    (later : Eliminated never rest rest') (target : Target) :
    Option.Rel (Eliminated never) (resume code rest target) (resume out rest' target) := by
  cases target with
  | next => exact .some later
  | label l => exact whole.after (stays_label l) 0
  | afterGosub k => exact whole.after stays_gosub k

theorem resume_suffix {next : List Instr} {target : Target} (within : rest <:+ code)
    (found : resume code rest target = some next) : next <:+ code := by
  cases target with
  | next =>
      cases found
      exact within
  | label l => exact after_suffix found
  | afterGosub k => exact after_suffix found

/-- The local variables agree, up to those whose stores are dropped. -/
def Agree (never : Nat → Bool) (code : List Instr) (varBuf varBuf' : Nat → JSValue V) : Prop :=
  ∀ n, ¬Dropped never code n → varBuf' n = varBuf n

structure Related (never : Nat → Bool) (code : List Instr) (s s' : State V W) : Prop where
  rest : Eliminated never s.rest s'.rest
  within : s.rest <:+ code
  varBuf : Agree never code s.varBuf s'.varBuf
  stack : s'.stack = s.stack
  world : s'.world = s.world

/-- What the instructions of the function and the others do not read -/
structure Unread (shared never : Nat → Bool) (code : List Instr) : Prop where
  here : ∀ i ∈ code, ∀ op n, i.loc? = some (op, n) → op.reads = true → never n = false
  elsewhere : ∀ n, shared n = true → ¬Dropped never code n

theorem Agree.setLoc (agree : Agree never code s.varBuf s'.varBuf) (n : Nat) (v : JSValue V) :
    Agree never code (s.setLoc n v) (s'.setLoc n v) := by
  intro m kept
  by_cases same : m = n
  · simp [State.setLoc, same]
  · simpa [State.setLoc, same] using agree m kept

theorem Agree.dropped {varBuf' : Nat → JSValue V} {n : Nat}
    (agree : Agree never code s.varBuf varBuf') (dead : Dropped never code n) (v : JSValue V) :
    Agree never code (s.setLoc n v) varBuf' := by
  intro m kept
  have other : m ≠ n := fun same => kept (same ▸ dead)
  simpa [State.setLoc, other] using agree m kept

theorem Agree.view (unread : Unread shared never code)
    (agree : Agree never code s.varBuf s'.varBuf) : s'.view shared = s.view shared := by
  funext n
  unfold State.view
  split
  · rename_i others
    rw [agree n (unread.elsewhere n others)]
  · rfl

def left (s _ : State V W) : Nat := s.rest.length

theorem advances_apply {rest' : List Instr} (effect : Effect V W ε ρ)
    (whole : Eliminated never code out) (later : Eliminated never rest rest')
    (within : rest <:+ code) (agree : Agree never code s.varBuf s'.varBuf)
    (here : step M shared code s = apply M shared code s rest effect)
    (here' : step M shared out s' = apply M shared out s' rest' effect) :
    Advances (step M shared code) (step M shared out) (Related never code) left s s' := by
  cases effect with
  | finish events result => exact .of_halt here here'
  | goOn events world stack vars target =>
      have places := whole.resume later target
      rw [apply] at here here'
      cases found : DeadStore.resume code rest target with
      | none =>
          cases found' : DeadStore.resume out rest' target with
          | none =>
              rw [found] at here
              rw [found'] at here'
              exact .of_halt here here'
          | some next' =>
              rw [found, found'] at places
              cases places
      | some next =>
          cases found' : DeadStore.resume out rest' target with
          | none =>
              rw [found, found'] at places
              cases places
          | some next' =>
              rw [found] at here
              rw [found'] at here'
              rw [found, found'] at places
              refine .of_steps here here' ⟨?_, resume_suffix within found, fun n kept => ?_, rfl, rfl⟩
              · cases places with
                | some places => exact places
              · show (if _ then _ else _) = if _ then _ else _
                rw [agree n kept]

/-- A failed check throws on both sides. -/
theorem advances_checked {t t' : State V W} {rest' : List Instr} (effect : Effect V W ε ρ)
    (failed : Bool) (whole : Eliminated never code out) (related : Related never code t t')
    (first : t.rest = rest) (first' : t'.rest = rest')
    (agree : Agree never code s.varBuf s'.varBuf) (here : step M shared code s =
      if failed then apply M shared code s rest effect else .running [] t)
    (here' : step M shared out s' =
      if failed then apply M shared out s' rest' effect else .running [] t') :
    Advances (step M shared code) (step M shared out) (Related never code) left s s' := by
  cases failed with
  | false => exact .of_steps here here' related
  | true =>
      have later : Eliminated never rest rest' := first ▸ first' ▸ related.rest
      exact advances_apply M effect whole later (first ▸ related.within) agree here here'

section

variable {i : Instr} {rest' : List Instr} (unread : Unread shared never code)
  (whole : Eliminated never code out) (related : Related never code s s')
  (first : s.rest = i :: rest) (first' : s'.rest = i :: rest')
  (later : Eliminated never rest rest')

include unread whole related first first' later

theorem advances_loc {op : LocOp} {n : Nat} (loc : i.loc? = some (op, n)) :
    Advances (step M shared code) (step M shared out) (Related never code) left s s' := by
  have inside : i ∈ code := related.within.subset (first ▸ List.mem_cons_self)
  have within : rest <:+ code := by
    have tail := related.within
    rw [first] at tail
    exact (List.suffix_cons i rest).trans tail
  have here : step M shared code s = stepLoc M shared code s i rest n op := step_loc first loc
  have here' : step M shared out s' = stepLoc M shared out s' i rest' n op := step_loc first' loc
  have view := related.varBuf.view unread
  have read : op.reads = true → s'.varBuf n = s.varBuf n := by
    intro reads
    have live := unread.here i inside op n loc reads
    exact related.varBuf n fun dropped => Bool.false_ne_true (live ▸ dropped.1)
  have ⟨_, _, agree, stack, world⟩ := related
  have got (stack : List (JSValue V)) : Related never code
      ⟨rest, s.varBuf, stack, s.world⟩ ⟨rest', s'.varBuf, stack, s.world⟩ :=
    ⟨later, within, agree, rfl, rfl⟩
  have put (v : JSValue V) (stack : List (JSValue V)) : Related never code
      ⟨rest, s.setLoc n v, stack, s.world⟩ ⟨rest', s'.setLoc n v, stack, s.world⟩ :=
    ⟨later, within, agree.setLoc n v, rfl, rfl⟩
  cases op with
  | get =>
      simp only [stepLoc, stack, world, read rfl] at here here'
      exact .of_steps here here' (got _)
  | getCheck =>
      simp only [stepLoc, stack, world, view, read rfl] at here here'
      exact advances_checked M _ _ whole (got _) rfl rfl agree here here'
  | put =>
      simp only [stepLoc, stack, world] at here here'
      exact .of_steps here here' (put _ _)
  | set =>
      simp only [stepLoc, stack, world] at here here'
      exact .of_steps here here' (put _ _)
  | putCheck =>
      simp only [stepLoc, stack, world, view, read rfl] at here here'
      exact advances_checked M _ _ whole (put _ _) rfl rfl agree here here'
  | putCheckInit =>
      simp only [stepLoc, stack, world, view, read rfl] at here here'
      exact advances_checked M _ _ whole (put _ _) rfl rfl agree here here'
  | setUninitialized =>
      simp only [stepLoc, stack, world] at here here'
      exact .of_steps here here' (put _ _)

/-- An instruction that stays does the same on both sides. -/
theorem advances_kept :
    Advances (step M shared code) (step M shared out) (Related never code) left s s' := by
  cases loc : i.loc? with
  | some access => exact advances_loc M unread whole related first first' later loc
  | none =>
      have within : rest <:+ code := (List.suffix_cons i rest).trans (first ▸ related.within)
      have ⟨_, _, agree, stack, world⟩ := related
      by_cases plain : i.op = opLabel ∨ i.op = opDup ∨ i.op = opDrop
      · rcases plain with label | dup | isDrop
        · exact .of_steps (step_label first label) (step_label first' label)
            ⟨later, within, agree, stack, world⟩
        · refine .of_steps (step_dup first dup) (step_dup first' dup) ⟨later, within, agree, ?_, world⟩
          show top s'.stack :: s'.stack = _
          rw [stack]
        · exact .of_steps (step_drop first isDrop) (step_drop first' isDrop)
            ⟨later, within, agree, congrArg List.tail stack, world⟩
      · have ordinal : gosubsBefore out rest' = gosubsBefore code rest := by
          rw [gosubsBefore, gosubsBefore, whole.countP, later.countP]
        have here : step M shared code s = apply M shared code s rest
            (M.exec i (gosubsBefore code rest) s.world s.stack (s.view shared)) :=
          step_exec first loc plain
        have here' : step M shared out s' = apply M shared out s' rest'
            (M.exec i (gosubsBefore out rest') s'.world s'.stack (s'.view shared)) :=
          step_exec first' loc plain
        rw [ordinal, stack, world, agree.view unread] at here'
        exact advances_apply M _ whole later within agree here here'

end

/-- Wherever the run is, the run of what is left of the code follows. -/
theorem advances_of_related (unread : Unread shared never code) (whole : Eliminated never code out)
    (s s' : State V W) (related : Related never code s s') :
    Advances (step M shared code) (step M shared out) (Related never code) left s s' := by
  have ⟨here, within, agree, stack, world⟩ := related
  have put {i : Instr} (inside : i ∈ s.rest)
      (dead : i.isDeadPut never = true ∨ i.isDeadPutCheck never = true) :
      ∃ n, i.loc? = some (.put, n) ∧ Dropped never code n := by
    rcases dead with dead | dead
    · have ⟨n, loc, unread⟩ := isDeadPut_iff.mp dead
      exact ⟨n, loc, unread, i, within.subset inside, .inl loc⟩
    · -- a checked store is itself a read
      have ⟨n, loc, never'⟩ := isDeadPutCheck_loc dead
      rcases loc with loc | loc
      all_goals
        have live := unread.here i (within.subset inside) _ n loc rfl
        exact (Bool.false_ne_true (live ▸ never')).elim
  generalize first : s.rest = xs at here within put
  generalize first' : s'.rest = ys at here
  cases here with
  | nil => exact .of_halt (step_end first) (step_end first')
  | kept later => exact advances_kept M unread whole related first first' later
  | @dropped i rest out op later =>
      have tail : rest <:+ code := (List.suffix_cons i rest).trans within
      exact .of_steps (step_drop first op) (step_drop first' rfl)
        ⟨later, tail, agree, congrArg List.tail stack, world⟩
  | @slu i rest out dead later =>
      have tail : rest <:+ code := (List.suffix_cons i rest).trans within
      have ⟨n, loc, never'⟩ := isDeadSlu_iff.mp dead
      have gone : Dropped never code n :=
        ⟨never', i, within.subset List.mem_cons_self, .inr loc⟩
      refine .of_paths (.free (step_loc first loc)) (.refl s')
        ⟨first' ▸ later, tail, agree.dropped gone _, stack, world⟩ fun _ => ?_
      simp [left, first]
  | @store i rest out dead later =>
      have tail : rest <:+ code := (List.suffix_cons i rest).trans within
      have ⟨n, loc, gone⟩ := put List.mem_cons_self dead
      exact .of_steps (step_loc first loc) (step_drop first' rfl)
        ⟨later, tail, agree.dropped gone _, congrArg List.tail stack, world⟩
  | @dupStore i j rest out dup dead later =>
      have tail : rest <:+ code :=
        ((List.suffix_cons j rest).trans (List.suffix_cons i (j :: rest))).trans within
      have ⟨n, loc, gone⟩ := put (List.mem_cons_of_mem i List.mem_cons_self) dead
      have pushed : Path (step M shared code) (fun _ => True) 1 s [] _ := .free (step_dup first dup)
      refine .of_paths (pushed.append (.free (step_loc rfl loc))) (.refl s')
        ⟨first' ▸ later, tail, agree.dropped gone _, stack, world⟩ fun _ => ?_
      simp only [left, first, List.length_cons]
      omega

/-- Nobody reads the variables whose stores are dropped, and every run of the function goes on
without these stores as it did with them. -/
structure Unobservable (f : FunctionDef) (allocated : Bool) : Prop where
  unread : ∀ n, Dropped (f.neverRead allocated) f.code n →
    (∀ i ∈ f.code, i.readsLoc n = false) ∧ f.captures n = false ∧ f.hasEvalCall = false
  sameRuns : ∀ (V W ε ρ : Type) (M : Interpreter V W ε ρ) (varBuf : Nat → JSValue V)
    (stack : List (JSValue V)) (world : W),
    SameRuns (step M f.shared f.code) ⟨f.code, varBuf, stack, world⟩
      (step M f.shared (eliminate (f.neverRead allocated) f.code))
      ⟨eliminate (f.neverRead allocated) f.code, varBuf, stack, world⟩

end Simulation

section Function

variable {f : FunctionDef} {allocated : Bool} {i : Instr} {n : Nat}

theorem scanRead?_of_loc {op : LocOp} (loc : i.loc? = some (op, n)) (reads : op.reads = true) :
    i.scanRead? = some n := by
  unfold Instr.loc? at loc
  unfold Instr.scanRead?
  grind [LocOp.reads]

theorem scanRead?_of_makeLocRef (ref : i.op = opMakeLocRef) :
    i.scanRead? = some (getU16 i.operands 4) := by
  unfold Instr.scanRead?
  rw [ref]
  rfl

theorem mem_instrs (inside : i ∈ f.code) : i ∈ f.instrs := (List.mem_filter.mp inside).1

theorem not_never_of_scan (inside : i ∈ f.code) (read : i.scanRead? = some n) :
    f.neverRead allocated n = false := by
  refine Bool.eq_false_iff.mpr fun never => ?_
  have ⟨_, _, bare⟩ := (neverRead_iff f allocated n).mp never
  exact bare (.inr (.inr (.inr ⟨i, mem_instrs inside, read⟩)))

/-- No instruction reads a variable that the scan takes for one that is never read. -/
theorem readsLoc_of_never (never : f.neverRead allocated n = true) (inside : i ∈ f.code) :
    i.readsLoc n = false := by
  refine Bool.eq_false_iff.mpr fun reads => ?_
  have scanned : i.scanRead? ≠ some n := fun scanned =>
    Bool.false_ne_true ((not_never_of_scan inside scanned).symm.trans never)
  unfold Instr.readsLoc at reads
  split at reads
  · rename_i op idx loc
    have ⟨reading, same⟩ := Bool.and_eq_true_iff.mp reads
    exact scanned (eq_of_beq same ▸ scanRead?_of_loc loc reading)
  · rcases Bool.or_eq_true_iff.mp reads with ref | fused
    · have ⟨op, same⟩ := Bool.and_eq_true_iff.mp ref
      exact scanned (eq_of_beq same ▸ scanRead?_of_makeLocRef (eq_of_beq op))
    · have known := (Bool.and_eq_true_iff.mp fused).1
      exact f.unfused i (mem_instrs inside) (by simpa using known)

theorem unread_of_guarded
    (guarded : allocated = true → ∀ n < f.varCount, Stored f.code n → f.captures n = true →
      f.Guarded n) : Unread f.shared (f.neverRead allocated) f.code where
  here _ inside _ _ loc reads := not_never_of_scan inside (scanRead?_of_loc loc reads)
  elsewhere n others := by
    intro ⟨never, stored⟩
    have ⟨allocated, bound, bare⟩ := (neverRead_iff f allocated n).mp never
    simp only [FunctionDef.shared, Bool.or_eq_true, List.any_eq_true, Bool.and_eq_true,
      beq_iff_eq] at others
    rcases others with (direct | captured) | ⟨i, inside, ref, same⟩
    · exact bare (.inr (.inr (.inl direct)))
    · exact bare (guarded allocated n bound stored captured)
    · have scanned : i.scanRead? = some n := same ▸ scanRead?_of_makeLocRef ref
      exact bare (.inr (.inr (.inr ⟨i, mem_instrs inside, scanned⟩)))

/-- Dropping the stores is unobservable exactly when every stored variable that a closure of a
child refers to is flagged as captured or kept for another reason. -/
theorem unobservable_iff (f : FunctionDef) (allocated : Bool) :
    Unobservable f allocated ↔ (allocated = true → ∀ n < f.varCount, Stored f.code n →
      f.captures n = true → f.Guarded n) := by
  constructor
  · intro unobservable isAllocated n bound stored captured
    by_contra bare
    have never := (neverRead_iff f allocated n).mpr ⟨isAllocated, bound, bare⟩
    have ⟨_, free, _⟩ := unobservable.unread n ⟨never, stored⟩
    exact Bool.false_ne_true (free.symm.trans captured)
  · intro guarded
    have unread := unread_of_guarded guarded
    constructor
    · intro n dropped
      refine ⟨fun i inside => readsLoc_of_never dropped.1 inside, ?_, ?_⟩
      · refine Bool.eq_false_iff.mpr fun captured => unread.elsewhere n ?_ dropped
        simp [FunctionDef.shared, captured]
      · refine Bool.eq_false_iff.mpr fun direct => unread.elsewhere n ?_ dropped
        simp [FunctionDef.shared, direct]
    · intro V W ε ρ M varBuf stack world
      have whole := eliminated_eliminate (f.neverRead allocated) f.code
      exact sameRuns_of_advances (advances_of_related M unread whole)
        ⟨whole, List.suffix_refl f.code, fun _ _ => rfl, rfl, rfl⟩

end Function

/-! A caller of a function that calls `eval`. -/

/-- `function f() { var x = 5; function g() { return eval("x"); } return g(); }`: `x` is the
variable 0 and `g` the variable 1, and `add_eval_variables` has put both in the closure of `g`. -/
def evalCaller : FunctionDef where
  varCount := 2
  isCaptured _ := false
  thisVarIdx := -1
  isDerivedClassConstructor := false
  varObjectIdx := -1
  argVarObjectIdx := -1
  argumentsVarIdx := -1
  newTargetVarIdx := -1
  homeObjectVarIdx := -1
  thisActiveFuncVarIdx := -1
  funcVarIdx := -1
  hasEvalCall := false
  childClosureVars := [[⟨true, false, 0⟩, ⟨true, false, 1⟩]]
  bcBuf := [3, 0, 0, 0, 0, 88, 1, 0, 1, 5, 0, 0, 0, 88, 0, 0, 87, 1, 0, 34, 0, 0, 40]
  unfused := by decide

/-- A call evaluates `x`: it returns what the variable 0 holds. -/
def evalInterpreter : Interpreter Nat Unit Unit (Option (JSValue Nat)) where
  exec i _ world stack view :=
    let push (v : JSValue Nat) : Effect Nat Unit Unit (Option (JSValue Nat)) :=
      .goOn [] world (v :: stack) (fun n => (view n).getD (.plain 0)) .next
    if i.op = opPushI32 then push (.plain (getU32 i.operands 0))
    else if i.op = opFclosure then push (.plain 1)
    else if i.op = opCall then push ((view 0).getD (.plain 0))
    else .finish [] stack.head?
  throwReferenceError _ _ _ _ := .finish [] none
  lost := none

/-- The store to `x` is dropped, and `f` returns `undefined`. -/
theorem eval_misses_store : ¬Unobservable evalCaller true := by
  intro unobservable
  have same := unobservable.sameRuns Nat Unit Unit (Option (JSValue Nat)) evalInterpreter
    (fun _ => .plain 0) [] ()
  have before := ends_of_runFor (show runFor (step evalInterpreter evalCaller.shared evalCaller.code)
    8 ⟨evalCaller.code, fun _ => .plain 0, [], ()⟩ = some ([], some (.plain 5)) by rfl)
  have after := ends_of_runFor (show runFor (step evalInterpreter evalCaller.shared
    (eliminate (evalCaller.neverRead true) evalCaller.code)) 8
    ⟨eliminate (evalCaller.neverRead true) evalCaller.code, fun _ => .plain 0, [], ()⟩ =
      some ([], some (.plain 0)) by rfl)
  have ⟨_, result⟩ := ((same.ends _ _).mp before).functional after
  cases result

end PrimJs.DeadStore
