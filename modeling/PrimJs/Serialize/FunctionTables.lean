import Mathlib.Data.List.Range
import PrimJs.Foundation.Chain
import PrimJs.Serialize.ReaderFrame

/-! The consumers of a function's variable and constant tables, and when they stay inside the
tables the reader built. -/

namespace PrimJs

open StateReader

def jsAtomThis : Nat := 8
def jsAtomRet : Nat := 80
def jsAtomNewTarget : Nat := 111
def jsAtomThisActiveFunc : Nat := 112
def jsAtomHomeObject : Nat := 113

def jsVarNormal : Nat := 0
def jsVarFunctionName : Nat := 4

def argScopeEnd : Int := -2
def debugScopeIndex : Int := -3

namespace LEPUSFunctionBytecode

variable (b : LEPUSFunctionBytecode)

/-- `vardefs[arg_count + i]`; nothing is past the table's last entry. -/
def localVarDef (i : Nat) : Option JSBytecodeVarDef := b.vardefs[b.argCount + i]?

def readVarDefs : Option (List JSBytecodeVarDef) :=
  if b.vardefs = [] then pure []
  else (List.range (b.argCount + b.varCount)).mapM (b.vardefs[·]?)

def readConstants (cpool : List BCValue) : Option (List BCValue) :=
  if cpool = [] then pure [] else (List.range b.cpoolCount).mapM (cpool[·]?)

/-- The atoms and constants `free_function_bytecode` releases, besides those of the code. -/
def freeFunctionBytecode (cpool : List BCValue) : Option (List Nat × List BCValue) := do
  let varDefs ← b.readVarDefs
  let constants ← b.readConstants cpool
  let closureVars ← (List.range b.closureVarCount).mapM (b.closureVar[·]?)
  let filename := b.debug.toList.map JSDebugInfo.filename
  pure (varDefs.map JSBytecodeVarDef.varName ++ closureVars.map LEPUSClosureVar.varName ++
    b.funcName :: filename, constants)

/-- The entry the debugger's `GetFunctionVarDef...` functions read; `some none` is their default. -/
def functionVarDef (idx : Nat) : Option (Option JSBytecodeVarDef) :=
  if b.vardefs = [] ∨ b.argCount + b.varCount ≤ idx then some none
  else (b.vardefs[idx]?).map some

def getFunctionVarDefCount : Nat := if b.vardefs = [] then 0 else b.argCount + b.varCount

def getFunctionVarDefName (idx : Nat) : Option (Option Nat) :=
  (b.functionVarDef idx).map fun vd => vd.map JSBytecodeVarDef.varName

def getFunctionVarDefScopeLevel (idx : Nat) : Option Int :=
  (b.functionVarDef idx).map fun vd => vd.elim (-1) fun vd => vd.scopeLevel

def getFunctionVarDefScopeNext (idx : Nat) : Option Int :=
  (b.functionVarDef idx).map fun vd => vd.elim (-1) JSBytecodeVarDef.scopeNext

def getFunctionVarDefFlags (idx : Nat) : Option Nat :=
  (b.functionVarDef idx).map fun vd => vd.elim 0 fun vd =>
    vd.varKind % 16 + 16 * vd.isConst.toNat + 32 * vd.isLexical.toNat + 64 * vd.isCaptured.toNat

/-- The `closure_var_size` of a direct `eval`. -/
def closureVarSize : Nat := b.argCount + b.varCount + b.closureVarCount

/-- `s->closure_var[s->closure_var_count++] = cv`. -/
def pushClosureVar (vars : List LEPUSClosureVar) (cv : LEPUSClosureVar) :
    Option (List LEPUSClosureVar) := do
  guard (vars.length < b.closureVarSize)
  pure (vars ++ [cv])

def setClosureFromVar (vd : JSBytecodeVarDef) (varIdx : Nat) : LEPUSClosureVar where
  isLocal := true
  isArg := false
  isConst := vd.isConst
  isLexical := vd.isLexical
  varKind := vd.varKind
  varIdx
  varName := vd.varName

/-- Adds the local variable `i` when `keep` holds. -/
def pushLocalIf (keep : Bool) (vars : List LEPUSClosureVar) (vd : JSBytecodeVarDef) (i : Nat) :
    Option (List LEPUSClosureVar) :=
  if keep then b.pushClosureVar vars (setClosureFromVar vd i) else pure vars

/-- The loops over the local variables that add those satisfying `keep`. -/
def addLocals (keep : JSBytecodeVarDef → Bool) :
    List Nat → List LEPUSClosureVar → Option (List LEPUSClosureVar)
  | [], vars => pure vars
  | i :: rest, vars => do
      let vd ← b.localVarDef i
      let vars ← b.pushLocalIf (keep vd) vars vd i
      addLocals keep rest vars

def setClosureFromArg (vd : JSBytecodeVarDef) (varIdx : Nat) : LEPUSClosureVar where
  isLocal := true
  isArg := true
  isConst := false
  isLexical := false
  varKind := jsVarNormal
  varIdx
  varName := vd.varName

def addArgs : List Nat → List LEPUSClosureVar → Option (List LEPUSClosureVar)
  | [], vars => pure vars
  | i :: rest, vars => do
      let vd ← b.vardefs[i]?
      let vars ← b.pushClosureVar vars (setClosureFromArg vd i)
      addArgs rest vars

def addOuterVars : List (LEPUSClosureVar × Nat) → List LEPUSClosureVar →
    Option (List LEPUSClosureVar)
  | [], vars => pure vars
  | (cv, i) :: rest, vars => do
      let vars ← b.pushClosureVar vars { cv with isLocal := false, varIdx := i }
      addOuterVars rest vars

def hasScope (vd : JSBytecodeVarDef) : Bool := 0 < vd.scopeLevel

/-- The lexical variables from `i` on along `scope_next`; the walk gives the negative index it
ends with. -/
def addScopeChain : Nat → Int → List LEPUSClosureVar → Option (Int × List LEPUSClosureVar)
  | 0, _, _ => none
  | fuel + 1, i, vars =>
      if i < 0 then pure (i, vars)
      else do
        let vd ← b.localVarDef i.toNat
        let vars ← b.pushLocalIf (hasScope vd) vars vd i.toNat
        addScopeChain fuel vd.scopeNext vars

/-- `argVar` is the atom of `"<arg_var>"`. -/
def isVarInArgScope (argVar : Nat) (vd : JSBytecodeVarDef) : Bool :=
  vd.varName = jsAtomHomeObject || vd.varName = jsAtomThisActiveFunc ||
    vd.varName = jsAtomNewTarget || vd.varName = jsAtomThis || vd.varName = argVar ||
    vd.varKind = jsVarFunctionName

def isUnscoped (vd : JSBytecodeVarDef) : Bool := vd.scopeLevel = 0 && vd.varName ≠ jsAtomRet

def isPseudo (argVar : Nat) (vd : JSBytecodeVarDef) : Bool :=
  vd.scopeLevel = 0 && isVarInArgScope argVar vd

def addScoped (fuel : Nat) (scopeIdx : Int) : Option (Int × List LEPUSClosureVar) :=
  if scopeIdx = debugScopeIndex then do
    let vars ← b.addLocals hasScope (List.range b.varCount) []
    pure (b.varCount, vars)
  else b.addScopeChain fuel scopeIdx []

def addVisible (fuel argVar : Nat) (scopeIdx : Int) : Option (List LEPUSClosureVar) := do
  let (i, vars) ← b.addScoped fuel scopeIdx
  if i ≠ argScopeEnd then do
    let vars ← b.addArgs (List.range b.argCount) vars
    b.addLocals isUnscoped (List.range b.varCount) vars
  else b.addLocals (isPseudo argVar) (List.range b.varCount) vars

def addVarDefs (fuel argVar : Nat) (scopeIdx : Int) : Option (List LEPUSClosureVar) :=
  if b.vardefs = [] then pure [] else b.addVisible fuel argVar scopeIdx

/-- `add_closure_variables`; `none` is a read past `vardefs`, a write past `closure_var`, or a
walk along `scope_next` that takes more than `fuel` rounds. -/
def addClosureVariables (fuel argVar : Nat) (scopeIdx : Int) :
    Option (List LEPUSClosureVar) :=
  if b.closureVarSize = 0 then pure []
  else do
    let vars ← b.addVarDefs fuel argVar scopeIdx
    b.addOuterVars b.closureVar.zipIdx vars

def scopeTarget (i : Int) : Option Nat := if i < 0 then none else some i.toNat

def scopeLink : Option Nat → Option (Option Nat)
  | none => none
  | some i => (b.localVarDef i).map fun vd => scopeTarget vd.scopeNext

/-- Following `scope_next` from `i` meets a negative link after at most `fuel` local variables. -/
def scopeChainEnds : Nat → Int → Bool
  | 0, i => i < 0
  | fuel + 1, i => i < 0 || (i < b.varCount &&
      (b.localVarDef i.toNat).any fun vd => scopeChainEnds fuel vd.scopeNext)

/-- Every chain of scopes of the local variables ends within the table. -/
def ScopeChainsEnd : Prop := ∀ i < b.varCount, b.scopeChainEnds b.varCount i = true

instance : Decidable b.ScopeChainsEnd :=
  inferInstanceAs (Decidable (∀ i < b.varCount, b.scopeChainEnds b.varCount i = true))

variable {i : Int}

theorem scopeTarget_neg (negative : i < 0) : scopeTarget i = none := if_pos negative

theorem scopeTarget_nat (natural : ¬ i < 0) : scopeTarget i = some i.toNat :=
  if_neg natural

/-- The local variables met by following `scope_next` from `i` to its end. -/
abbrev ScopeChain (i : Int) (visited : List (Option Nat)) : Prop :=
  Chain none b.scopeLink (scopeTarget i) visited

variable {b}

theorem ScopeChain.head {visited : List (Option Nat)} (natural : ¬ i < 0)
    (chain : b.ScopeChain i visited) : ∃ vd rest, b.localVarDef i.toNat = some vd ∧
      visited = some i.toNat :: rest ∧ b.ScopeChain vd.scopeNext rest := by
  rw [ScopeChain, scopeTarget_nat natural] at chain
  cases chain with
  | cons some_ link tail =>
      obtain ⟨vd, found, target⟩ := Option.map_eq_some_iff.mp link
      rw [← target] at tail
      exact ⟨vd, _, found, rfl, tail⟩

theorem ScopeChain.cons {vd : JSBytecodeVarDef} {visited : List (Option Nat)} (natural : ¬ i < 0)
    (found : b.localVarDef i.toNat = some vd) (chain : b.ScopeChain vd.scopeNext visited) :
    b.ScopeChain i (some i.toNat :: visited) := by
  rw [ScopeChain, scopeTarget_nat natural]
  refine .cons (Option.some_ne_none _) ?_ chain
  simp only [scopeLink, found, Option.map_some]

theorem ScopeChain.stop (negative : i < 0) : b.ScopeChain i [] := by
  rw [ScopeChain, scopeTarget_neg negative]
  exact .nil

/-- A walk that comes to its end has followed a chain. -/
theorem scopeChain_of_addScopeChain {fuel : Nat} {j : Int} {vars out : List LEPUSClosureVar}
    (walked : b.addScopeChain fuel i vars = some (j, out)) : ∃ visited, b.ScopeChain i visited := by
  induction fuel generalizing i vars with
  | zero => cases walked
  | succ fuel ih =>
      rw [addScopeChain] at walked
      by_cases negative : i < 0
      · exact ⟨[], .stop negative⟩
      · rw [if_neg negative] at walked
        obtain ⟨vd, found, afterRead⟩ := Option.bind_eq_some_iff.mp walked
        obtain ⟨added, -, later⟩ := Option.bind_eq_some_iff.mp afterRead
        obtain ⟨visited, chain⟩ := ih later
        exact ⟨_, .cons negative found chain⟩

section Complete

variable (complete : b.vardefs.length = b.argCount + b.varCount)
include complete

theorem localVarDef_some {i : Nat} (inside : i < b.varCount) :
    ∃ vd, b.localVarDef i = some vd :=
  ⟨_, List.getElem?_eq_getElem (by omega)⟩

theorem lt_varCount {i : Nat} {vd : JSBytecodeVarDef} (found : b.localVarDef i = some vd) :
    i < b.varCount := by
  have := (List.getElem?_eq_some_iff.mp found).1
  omega

section

variable {i : Int} {visited : List (Option Nat)} (chain : b.ScopeChain i visited)

include chain

theorem ScopeChain.inside : ∀ p ∈ visited, p ∈ (List.range b.varCount).map some := by
  intro p member
  obtain ⟨next, link⟩ := Chain.exists_link chain member
  cases p with
  | none => exact absurd member (Chain.stop_notMem chain)
  | some i =>
      obtain ⟨vd, found, -⟩ := Option.map_eq_some_iff.mp link
      exact List.mem_map_of_mem (List.mem_range.mpr (lt_varCount complete found))

/-- A chain meets every local variable at most once. -/
theorem ScopeChain.length_le : visited.length ≤ b.varCount := by
  have bound := Chain.length_le chain _ (chain.inside complete)
  simpa using bound

end

theorem scopeChainEnds_iff {fuel : Nat} {i : Int} :
    b.scopeChainEnds fuel i = true ↔
      ∃ visited, b.ScopeChain i visited ∧ visited.length ≤ fuel := by
  induction fuel generalizing i with
  | zero =>
      constructor
      · intro ends
        have negative : i < 0 := by simpa [scopeChainEnds] using ends
        exact ⟨[], .stop negative, Nat.le_refl 0⟩
      · rintro ⟨visited, chain, short⟩
        by_cases negative : i < 0
        · simpa [scopeChainEnds] using negative
        · obtain ⟨vd, rest, -, rfl, -⟩ := chain.head negative
          cases short
  | succ fuel ih =>
      constructor
      · intro ends
        by_cases negative : i < 0
        · exact ⟨[], .stop negative, Nat.zero_le _⟩
        · have tail : i < b.varCount ∧
              (b.localVarDef i.toNat).any (fun vd => b.scopeChainEnds fuel vd.scopeNext) := by
            simpa [scopeChainEnds, negative] using ends
          obtain ⟨vd, found⟩ := localVarDef_some complete (i := i.toNat) (by omega)
          have next : b.scopeChainEnds fuel vd.scopeNext = true := by
            simpa [found] using tail.2
          obtain ⟨visited, chain, short⟩ := ih.mp next
          exact ⟨_, .cons negative found chain, Nat.succ_le_succ short⟩
      · rintro ⟨visited, chain, short⟩
        by_cases negative : i < 0
        · simp [scopeChainEnds, negative]
        · obtain ⟨vd, rest, found, rfl, tail⟩ := chain.head negative
          have next := ih.mpr ⟨rest, tail, Nat.le_of_succ_le_succ short⟩
          have below := lt_varCount complete found
          have small : i < b.varCount := by omega
          simp [scopeChainEnds, found, next, small]

/-- The bound on the number of links is no restriction. -/
theorem scopeChainsEnd_iff :
    b.ScopeChainsEnd ↔ ∀ i < b.varCount, ∃ visited, b.ScopeChain i visited := by
  constructor
  · intro ends i inside
    obtain ⟨visited, chain, -⟩ := (scopeChainEnds_iff complete).mp (ends i inside)
    exact ⟨visited, chain⟩
  · intro chains i inside
    obtain ⟨visited, chain⟩ := chains i inside
    exact (scopeChainEnds_iff complete).mpr ⟨visited, chain, chain.length_le complete⟩

end Complete

section Writes

variable {vars : List LEPUSClosureVar}

theorem pushClosureVar_some (cv : LEPUSClosureVar) (room : vars.length + 1 ≤ b.closureVarSize) :
    b.pushClosureVar vars cv = some (vars ++ [cv]) := by
  have below : vars.length < b.closureVarSize := room
  simp [pushClosureVar, below]

theorem pushLocalIf_some (keep : Bool) (vd : JSBytecodeVarDef) (i : Nat)
    (room : vars.length + keep.toNat ≤ b.closureVarSize) :
    ∃ out, b.pushLocalIf keep vars vd i = some out ∧
      out.length = vars.length + keep.toNat := by
  cases keep with
  | false => exact ⟨vars, rfl, rfl⟩
  | true =>
      refine ⟨_, pushClosureVar_some _ room, ?_⟩
      simp

/-- The local variable `i` satisfies `keep`. -/
def localIs (b : LEPUSFunctionBytecode) (keep : JSBytecodeVarDef → Bool) (i : Nat) : Bool :=
  (b.localVarDef i).any keep

theorem countP_cons_localIs {keep : JSBytecodeVarDef → Bool} {i : Nat} {vd : JSBytecodeVarDef}
    (found : b.localVarDef i = some vd) (rest : List Nat) :
    (i :: rest).countP (b.localIs keep) = rest.countP (b.localIs keep) + (keep vd).toNat := by
  have here : b.localIs keep i = keep vd := by simp [localIs, found]
  rw [List.countP_cons, here]
  cases keep vd <;> rfl

theorem addLocals_some (complete : b.vardefs.length = b.argCount + b.varCount)
    (keep : JSBytecodeVarDef → Bool) {locals : List Nat}
    (inside : ∀ i ∈ locals, i < b.varCount)
    (room : vars.length + locals.countP (b.localIs keep) ≤ b.closureVarSize) :
    ∃ out, b.addLocals keep locals vars = some out ∧
      out.length = vars.length + locals.countP (b.localIs keep) := by
  induction locals generalizing vars with
  | nil => exact ⟨vars, rfl, rfl⟩
  | cons i rest ih =>
      obtain ⟨vd, found⟩ := localVarDef_some complete (inside i List.mem_cons_self)
      rw [countP_cons_localIs found] at room ⊢
      have fits : vars.length + (keep vd).toNat ≤ b.closureVarSize := by omega
      obtain ⟨next, pushed, nextLength⟩ := pushLocalIf_some (keep vd) vd i fits
      have nextRoom : next.length + rest.countP (b.localIs keep) ≤ b.closureVarSize := by omega
      obtain ⟨out, later, outLength⟩ :=
        ih (fun j member => inside j (List.mem_cons_of_mem i member)) nextRoom
      refine ⟨out, ?_, by omega⟩
      simp only [addLocals, found, Option.bind_eq_bind, Option.bind_some, pushed]
      exact later

theorem addArgs_some {args : List Nat} (inside : ∀ i ∈ args, i < b.vardefs.length)
    (room : vars.length + args.length ≤ b.closureVarSize) :
    ∃ out, b.addArgs args vars = some out ∧ out.length = vars.length + args.length := by
  induction args generalizing vars with
  | nil => exact ⟨vars, rfl, rfl⟩
  | cons i rest ih =>
      obtain ⟨vd, found⟩ : ∃ vd, b.vardefs[i]? = some vd :=
        ⟨_, List.getElem?_eq_getElem (inside i List.mem_cons_self)⟩
      rw [List.length_cons] at room ⊢
      have fits : vars.length + 1 ≤ b.closureVarSize := by omega
      have grown : (vars ++ [setClosureFromArg vd i]).length = vars.length + 1 := by simp
      have nextRoom : (vars ++ [setClosureFromArg vd i]).length + rest.length ≤
          b.closureVarSize := by omega
      obtain ⟨out, later, outLength⟩ :=
        ih (fun j member => inside j (List.mem_cons_of_mem i member)) nextRoom
      refine ⟨out, ?_, by omega⟩
      simp only [addArgs, found, Option.bind_eq_bind, Option.bind_some,
        pushClosureVar_some _ fits]
      exact later

theorem addOuterVars_some {outer : List (LEPUSClosureVar × Nat)}
    (room : vars.length + outer.length ≤ b.closureVarSize) :
    ∃ out, b.addOuterVars outer vars = some out := by
  induction outer generalizing vars with
  | nil => exact ⟨vars, rfl⟩
  | cons first rest ih =>
      obtain ⟨cv, i⟩ := first
      simp only [List.length_cons] at room
      simp only [addOuterVars, Option.bind_eq_bind]
      rw [pushClosureVar_some _ (by omega)]
      exact ih (by simp only [List.length_append, List.length_singleton]; omega)

/-- A walk along a whole chain adds the variables on it that belong to a scope. -/
theorem addScopeChain_some {fuel : Nat} {i : Int} {visited : List (Option Nat)}
    (chain : b.ScopeChain i visited) (enough : visited.length < fuel)
    (room : vars.length + visited.countP (·.any (b.localIs hasScope)) ≤ b.closureVarSize) :
    ∃ j out, b.addScopeChain fuel i vars = some (j, out) ∧
      out.length = vars.length + visited.countP (·.any (b.localIs hasScope)) := by
  induction visited generalizing fuel i vars with
  | nil =>
      cases fuel with
      | zero => cases enough
      | succ fuel =>
          have negative : i < 0 := by
            by_cases natural : i < 0
            · exact natural
            · obtain ⟨vd, rest, -, same, -⟩ := chain.head natural
              cases same
          refine ⟨i, vars, ?_, rfl⟩
          simp [addScopeChain, negative]
  | cons p visited ih =>
      cases fuel with
      | zero => cases enough
      | succ fuel =>
          have natural : ¬ i < 0 := by
            intro negative
            rw [ScopeChain, scopeTarget_neg negative] at chain
            cases chain with
            | cons some_ _ _ => exact some_ rfl
          obtain ⟨vd, rest, found, same, tail⟩ := chain.head natural
          obtain ⟨rfl, rfl⟩ := List.cons.inj same
          have here : (some i.toNat).any (b.localIs hasScope) = hasScope vd := by
            simp [localIs, found]
          have counted : (some i.toNat :: visited).countP (·.any (b.localIs hasScope)) =
              visited.countP (·.any (b.localIs hasScope)) + (hasScope vd).toNat := by
            rw [List.countP_cons, here]
            cases hasScope vd <;> rfl
          rw [counted] at room ⊢
          have fits : vars.length + (hasScope vd).toNat ≤ b.closureVarSize := by omega
          obtain ⟨next, pushed, nextLength⟩ := pushLocalIf_some (hasScope vd) vd i.toNat fits
          have nextRoom : next.length + visited.countP (·.any (b.localIs hasScope)) ≤
              b.closureVarSize := by omega
          obtain ⟨j, out, later, outLength⟩ := ih tail (Nat.lt_of_succ_lt_succ enough) nextRoom
          refine ⟨j, out, ?_, by omega⟩
          simp only [addScopeChain, if_neg natural, found, Option.bind_eq_bind,
            Option.bind_some, pushed]
          exact later

end Writes

/-- A variable with a scope is in none of the later loops. -/
theorem countP_scoped_add_le {keep : JSBytecodeVarDef → Bool}
    (unscoped : ∀ vd, keep vd = true → hasScope vd = false) :
    (List.range b.varCount).countP (b.localIs hasScope) +
      (List.range b.varCount).countP (b.localIs keep) ≤ b.varCount := by
  have split_ := List.length_eq_countP_add_countP (b.localIs hasScope) (l := List.range b.varCount)
  rw [List.length_range] at split_
  have others : (List.range b.varCount).countP (b.localIs keep) ≤
      (List.range b.varCount).countP fun i => decide ¬ b.localIs hasScope i = true := by
    refine List.countP_mono_left fun i _ kept => ?_
    obtain ⟨vd, found, keeps⟩ := (Option.any_eq_true _ _).mp kept
    simp [localIs, found, unscoped vd keeps]
  omega

section Complete

variable (complete : b.vardefs.length = b.argCount + b.varCount)
include complete

theorem ScopeChain.countP_le {i : Int} {visited : List (Option Nat)}
    (chain : b.ScopeChain i visited) :
    visited.countP (·.any (b.localIs hasScope)) ≤
      (List.range b.varCount).countP (b.localIs hasScope) := by
  have inTable := List.subperm_of_subset (Chain.nodup chain) (chain.inside complete)
  have counted := inTable.countP_le (·.any (b.localIs hasScope))
  rw [List.countP_map] at counted
  exact counted

theorem addScoped_some (chains : b.ScopeChainsEnd) {scopeIdx : Int}
    (inside : scopeIdx < b.varCount) :
    ∃ fuel i vars, b.addScoped fuel scopeIdx = some (i, vars) ∧
      vars.length ≤ (List.range b.varCount).countP (b.localIs hasScope) := by
  have fits : ([] : List LEPUSClosureVar).length +
      (List.range b.varCount).countP (b.localIs hasScope) ≤ b.closureVarSize := by
    have few := List.countP_le_length (p := b.localIs hasScope) (l := List.range b.varCount)
    simp only [List.length_range, List.length_nil, closureVarSize] at few ⊢
    omega
  by_cases debugger : scopeIdx = debugScopeIndex
  · obtain ⟨vars, added, varsLength⟩ := addLocals_some complete hasScope
      (fun i member => List.mem_range.mp member) fits
    refine ⟨0, b.varCount, vars, ?_, by simpa using varsLength.le⟩
    simp [addScoped, debugger, added]
  · obtain ⟨visited, chain⟩ : ∃ visited, b.ScopeChain scopeIdx visited := by
      by_cases negative : scopeIdx < 0
      · exact ⟨[], .stop negative⟩
      · obtain ⟨visited, chain⟩ :=
          (scopeChainsEnd_iff complete).mp chains scopeIdx.toNat (by omega)
        rw [Int.toNat_of_nonneg (by omega)] at chain
        exact ⟨visited, chain⟩
    have counted := chain.countP_le complete
    have room : ([] : List LEPUSClosureVar).length +
        visited.countP (·.any (b.localIs hasScope)) ≤ b.closureVarSize := by omega
    obtain ⟨i, vars, walked, varsLength⟩ :=
      addScopeChain_some chain (Nat.lt_succ_self _) room
    refine ⟨visited.length + 1, i, vars, ?_, ?_⟩
    · rw [addScoped, if_neg debugger]
      exact walked
    · rw [varsLength]
      simpa using counted

theorem addVisible_some (chains : b.ScopeChainsEnd) (argVar : Nat) {scopeIdx : Int}
    (inside : scopeIdx < b.varCount) :
    ∃ fuel vars, b.addVisible fuel argVar scopeIdx = some vars ∧
      vars.length ≤ b.argCount + b.varCount := by
  obtain ⟨fuel, i, lexical, walked, lexicalLength⟩ := addScoped_some complete chains inside
  have unscoped := @countP_scoped_add_le b isUnscoped fun vd kept => by
    simp [isUnscoped] at kept
    simp [hasScope, kept.1]
  have pseudo := @countP_scoped_add_le b (isPseudo argVar) fun vd kept => by
    simp only [isPseudo, Bool.and_eq_true, decide_eq_true_eq] at kept
    simp [hasScope, kept.1]
  have size : b.closureVarSize = b.argCount + b.varCount + b.closureVarCount := rfl
  by_cases argScope : i = argScopeEnd
  · have room : lexical.length + (List.range b.varCount).countP (b.localIs (isPseudo argVar)) ≤
        b.closureVarSize := by omega
    obtain ⟨vars, added, varsLength⟩ := addLocals_some complete (isPseudo argVar)
      (fun i member => List.mem_range.mp member) room
    refine ⟨fuel, vars, ?_, by omega⟩
    simp [addVisible, walked, argScope, added]
  · have argRoom : lexical.length + (List.range b.argCount).length ≤ b.closureVarSize := by
      rw [List.length_range]
      omega
    obtain ⟨withArgs, addedArgs, argsLength⟩ := addArgs_some (b := b)
      (fun i member => by have := List.mem_range.mp member; omega) argRoom
    rw [List.length_range] at argsLength
    have room : withArgs.length + (List.range b.varCount).countP (b.localIs isUnscoped) ≤
        b.closureVarSize := by omega
    obtain ⟨vars, added, varsLength⟩ := addLocals_some complete isUnscoped
      (fun i member => List.mem_range.mp member) room
    refine ⟨fuel, vars, ?_, by omega⟩
    simp [addVisible, walked, argScope, addedArgs, added]

end Complete

/-- With whole tables and ending scopes a direct `eval` reads and writes inside its tables. -/
theorem addClosureVariables_some (tables : b.vardefs = [] ∨
      b.vardefs.length = b.argCount + b.varCount ∧ b.ScopeChainsEnd) (argVar : Nat)
    {scopeIdx : Int} (inside : scopeIdx < b.varCount) :
    ∃ fuel vars, b.addClosureVariables fuel argVar scopeIdx = some vars := by
  by_cases empty : b.closureVarSize = 0
  · exact ⟨0, [], if_pos empty⟩
  obtain ⟨fuel, visible, added, visibleLength⟩ : ∃ fuel visible,
      b.addVarDefs fuel argVar scopeIdx = some visible ∧
        visible.length ≤ b.argCount + b.varCount := by
    by_cases absent : b.vardefs = []
    · exact ⟨0, [], if_pos absent, Nat.zero_le _⟩
    · obtain ⟨complete, chains⟩ := tables.resolve_left absent
      obtain ⟨fuel, visible, added, bound⟩ := addVisible_some complete chains argVar inside
      exact ⟨fuel, visible, (if_neg absent).trans added, bound⟩
  have room : visible.length + b.closureVar.zipIdx.length ≤ b.closureVarSize := by
    rw [List.length_zipIdx, closureVarSize, closureVarCount]
    omega
  obtain ⟨vars, addedOuter⟩ := addOuterVars_some room
  refine ⟨fuel, vars, ?_⟩
  simp only [addClosureVariables, if_neg empty, added, Option.bind_eq_bind, Option.bind_some]
  exact addedOuter

/-- A direct `eval` that comes back has followed its scopes to their end. -/
theorem scopeChain_of_addClosureVariables (present : b.vardefs ≠ []) {fuel argVar i : Nat}
    (inside : i < b.varCount) {vars : List LEPUSClosureVar}
    (returned : b.addClosureVariables fuel argVar i = some vars) :
    ∃ visited, b.ScopeChain i visited := by
  have nonempty : b.closureVarSize ≠ 0 := by
    rw [closureVarSize]
    omega
  have natural : (i : Int) ≠ debugScopeIndex := by
    rw [debugScopeIndex]
    omega
  rw [addClosureVariables, if_neg nonempty] at returned
  obtain ⟨visible, addedVisible, -⟩ := Option.bind_eq_some_iff.mp returned
  rw [addVarDefs, if_neg present] at addedVisible
  obtain ⟨⟨j, lexical⟩, walked, -⟩ := Option.bind_eq_some_iff.mp addedVisible
  rw [addScoped, if_neg natural] at walked
  exact scopeChain_of_addScopeChain walked

theorem functionVarDef_some (tables : b.vardefs = [] ∨
    b.vardefs.length = b.argCount + b.varCount) (idx : Nat) :
    ∃ vd, b.functionVarDef idx = some vd := by
  by_cases guarded : b.vardefs = [] ∨ b.argCount + b.varCount ≤ idx
  · exact ⟨none, if_pos guarded⟩
  · obtain ⟨present, below⟩ := not_or.mp guarded
    have complete := tables.resolve_left present
    obtain ⟨vd, found⟩ : ∃ vd, b.vardefs[idx]? = some vd :=
      ⟨_, List.getElem?_eq_getElem (by omega)⟩
    refine ⟨some vd, ?_⟩
    rw [functionVarDef, if_neg guarded, found]
    rfl

theorem mapM_getElem_some {α : Type} (table : List α) {n : Nat} (inside : n ≤ table.length) :
    ∃ entries, (List.range n).mapM (table[·]?) = some entries := by
  have reads : ∀ places : List Nat, (∀ i ∈ places, i < table.length) →
      ∃ entries, places.mapM (table[·]?) = some entries := by
    intro places
    induction places with
    | nil => exact fun _ => ⟨[], rfl⟩
    | cons i rest ih =>
        intro below
        obtain ⟨entries, read⟩ := ih fun j member => below j (List.mem_cons_of_mem i member)
        have here := List.getElem?_eq_getElem (below i List.mem_cons_self)
        simp [List.mapM_cons, here, read]
  exact reads _ fun i member => Nat.lt_of_lt_of_le (List.mem_range.mp member) inside

theorem readVarDefs_some (tables : b.vardefs = [] ∨
    b.vardefs.length = b.argCount + b.varCount) : ∃ varDefs, b.readVarDefs = some varDefs := by
  by_cases absent : b.vardefs = []
  · exact ⟨[], if_pos absent⟩
  · obtain ⟨varDefs, read⟩ := mapM_getElem_some b.vardefs (tables.resolve_left absent).ge
    exact ⟨varDefs, (if_neg absent).trans read⟩

theorem readConstants_some {cpool : List BCValue} (counted : cpool.length = b.cpoolCount) :
    ∃ constants, b.readConstants cpool = some constants := by
  by_cases absent : cpool = []
  · exact ⟨[], if_pos absent⟩
  · obtain ⟨constants, read⟩ := mapM_getElem_some cpool counted.ge
    exact ⟨constants, (if_neg absent).trans read⟩

theorem freeFunctionBytecode_some {cpool : List BCValue} (tables : b.vardefs = [] ∨
      b.vardefs.length = b.argCount + b.varCount) (counted : cpool.length = b.cpoolCount) :
    ∃ released, b.freeFunctionBytecode cpool = some released := by
  obtain ⟨varDefs, varDefsRead⟩ := readVarDefs_some tables
  obtain ⟨constants, constantsRead⟩ := readConstants_some counted
  obtain ⟨closureVars, closureRead⟩ := mapM_getElem_some b.closureVar (Nat.le_refl _)
  simp [freeFunctionBytecode, varDefsRead, constantsRead, closureVarCount, closureRead]

end LEPUSFunctionBytecode

end PrimJs
