import PrimJs.Serialize.FunctionTables
import PrimJs.Serialize.Validation

/-! The tables of a function the reader has built against the sizes its record states. -/

namespace PrimJs

open StateReader LEPUSFunctionBytecode

/-- What an accepted function promises its later consumers; `s` is where its record starts. -/
structure MetadataConsistent (s : BCReaderState) (b : LEPUSFunctionBytecode)
    (cpool : List BCValue) : Prop where
  vardefs : b.vardefs = [] ∨ b.vardefs.length = b.argCount + b.varCount
  scopes : b.vardefs ≠ [] → ∀ i < b.varCount, ∃ visited, b.ScopeChain i visited
  recorded : ∃ h t, Reads readFunctionHeader s h t ∧ b.closureVar.length = h.closureVarCount ∧
    cpool.length = h.fields.cpoolCount
  pc2line : ∀ info ∈ b.debug, ∃ u v w,
    Reads bcGetLeb128Int u (info.pc2lineBuf.length : Int) v ∧
      Reads (bcGetBuf info.pc2lineBuf.length) v info.pc2lineBuf w
  freed : ∃ released, b.freeFunctionBytecode cpool = some released
  listed : ∀ idx, ∃ vd, b.functionVarDef idx = some vd
  evaluated : ∀ (argVar : Nat) (scopeIdx : Int), scopeIdx < b.varCount →
    ∃ fuel vars, b.addClosureVariables fuel argVar scopeIdx = some vars

/-- The checks on the record at `s` that the reader does not make: its count of variable records
agrees with its two other counts, and the records' `scope_next` links end. -/
def TablesFit (s : BCReaderState) : Prop :=
  ∃ h t, Reads readFunctionHeader s h t ∧ ∃ vardefs u,
    Reads (readN h.localCount readVarDef) t vardefs u ∧
      (h.localCount = 0 ∨ h.localCount = h.fields.argCount + h.fields.varCount ∧
        ({ h.fields with vardefs } : LEPUSFunctionBytecode).ScopeChainsEnd)

section

variable {b c : LEPUSFunctionBytecode} (vardefs : c.vardefs = b.vardefs)
  (argCount : c.argCount = b.argCount) (varCount : c.varCount = b.varCount)

include vardefs argCount varCount

theorem scopeChainEnds_congr (fuel : Nat) (i : Int) :
    c.scopeChainEnds fuel i = b.scopeChainEnds fuel i := by
  have same : ∀ j, c.localVarDef j = b.localVarDef j := by
    intro j
    rw [localVarDef, localVarDef, vardefs, argCount]
  induction fuel generalizing i with
  | zero => rfl
  | succ fuel ih => simp only [scopeChainEnds, same, varCount, ih]

theorem scopeChainsEnd_congr : c.ScopeChainsEnd ↔ b.ScopeChainsEnd := by
  simp only [ScopeChainsEnd, varCount, scopeChainEnds_congr vardefs argCount varCount]

end

/-- A function read from the record with header `h` and variable records `vardefs`. -/
structure ReadFrom (h : FunctionHeader) (vardefs : List JSBytecodeVarDef)
    (b : LEPUSFunctionBytecode) (cpool : List BCValue) : Prop where
  vardefs : b.vardefs = vardefs
  argCount : b.argCount = h.fields.argCount
  varCount : b.varCount = h.fields.varCount
  cpoolCount : b.cpoolCount = h.fields.cpoolCount
  closureVar : b.closureVar.length = h.closureVarCount
  cpool : cpool.length = h.fields.cpoolCount
  pc2line : ∀ info ∈ b.debug, ∃ u v w,
    Reads bcGetLeb128Int u (info.pc2lineBuf.length : Int) v ∧
      Reads (bcGetBuf info.pc2lineBuf.length) v info.pc2lineBuf w

theorem header_debug {s t : BCReaderState} {h : FunctionHeader}
    (run : Reads readFunctionHeader s h t) : h.fields.debug = none := by
  simp only [readFunctionHeader, reads_bind, reads_pure] at run
  obtain ⟨_, _, -, _, _, -, _, _, -, _, _, -, _, _, -, _, _, -, _, _, -, _, _, -, _, _, -, _, _, -,
    _, _, -, _, _, -, _, _, -, rfl, -⟩ := run
  rfl

theorem readDebug_spec {b c : LEPUSFunctionBytecode} {s t : BCReaderState}
    (run : Reads (readDebug b) s c t) : ∃ functionId info, c = { b with functionId, debug := some info } ∧
      ∃ u v w, Reads bcGetLeb128Int u (info.pc2lineBuf.length : Int) v ∧
        Reads (bcGetBuf info.pc2lineBuf.length) v info.pc2lineBuf w := by
  simp only [readDebug, reads_bind, reads_pure] at run
  obtain ⟨_, _, -, lineNum, _, -, ⟨filename, functionId⟩, _, -, len, v, lenRun, _, _, nonneg,
    buf, w, bufRun, rfl, -⟩ := run
  obtain ⟨natural, rfl⟩ := reads_require.mp nonneg
  have length : (buf.length : Int) = len := by
    obtain ⟨enough, rfl, -⟩ := reads_bcTake.mp bufRun
    rw [List.length_take]
    omega
  have lengthNat : len.toNat = buf.length := by omega
  rw [lengthNat] at bufRun
  rw [← length] at lenRun
  exact ⟨functionId, _, rfl, _, _, _, lenRun, bufRun⟩

theorem jsReadFunction_readFrom {readRec : BCRead BCValue} {s t : BCReaderState}
    {b : LEPUSFunctionBytecode} {cpool : List BCValue}
    (accepted : Reads (jsReadFunction readRec) s (.functionBytecode b cpool) t) :
    ∃ h t vardefs u, Reads readFunctionHeader s h t ∧
      Reads (readN h.localCount readVarDef) t vardefs u ∧ ReadFrom h vardefs b cpool := by
  obtain ⟨s0, s1, got, afterGet⟩ := reads_bind.mp accepted
  obtain ⟨rfl, rfl⟩ := reads_get.mp got
  obtain ⟨_, s2, allowed, afterAllowed⟩ := reads_bind.mp afterGet
  obtain ⟨-, rfl⟩ := reads_require.mp allowed
  obtain ⟨h, s3, headerRun, afterHeader⟩ := reads_bind.mp afterAllowed
  obtain ⟨_, s4, sizeRun, afterSize⟩ := reads_bind.mp afterHeader
  obtain ⟨-, rfl⟩ := reads_require.mp sizeRun
  obtain ⟨vardefs, s5, varRun, afterVars⟩ := reads_bind.mp afterSize
  obtain ⟨closureVar, s6, closureRun, afterClosure⟩ := reads_bind.mp afterVars
  obtain ⟨code, s7, -, afterCode⟩ := reads_bind.mp afterClosure
  refine ⟨h, s4, vardefs, s5, headerRun, varRun, ?_⟩
  have closureLength := readN_length closureRun
  have finish : ∀ (c : LEPUSFunctionBytecode) (u : BCReaderState),
      Reads (readCpool readRec c >>= fun cpool => pure (BCValue.functionBytecode c cpool)) u
        (.functionBytecode b cpool) t → b = c ∧ cpool.length = c.cpoolCount := by
    intro c u tailRun
    obtain ⟨pool, w, poolRun, last⟩ := reads_bind.mp tailRun
    obtain ⟨same, -⟩ := reads_pure.mp last
    obtain ⟨rfl, rfl⟩ := BCValue.functionBytecode.inj same
    exact ⟨rfl, readN_length poolRun⟩
  split at afterCode
  · obtain ⟨c, u, debugRun, tailRun⟩ := reads_bind.mp afterCode
    obtain ⟨functionId, info, rfl, pc2line⟩ := readDebug_spec debugRun
    obtain ⟨rfl, counted⟩ := finish _ _ tailRun
    exact ⟨rfl, rfl, rfl, rfl, closureLength, counted, fun _ member => by
      obtain rfl := Option.some.inj member
      exact pc2line⟩
  · obtain ⟨c, u, sameRun, tailRun⟩ := reads_bind.mp afterCode
    obtain ⟨rfl, rfl⟩ := reads_pure.mp sameRun
    obtain ⟨rfl, counted⟩ := finish _ _ tailRun
    refine ⟨rfl, rfl, rfl, rfl, closureLength, counted, fun _ member => ?_⟩
    change h.fields.debug = some _ at member
    rw [header_debug headerRun] at member
    cases member

/-- The record of a function `undefined; drop; return_undef` with one variable record whose
stored `scope_next` is `link`, and a header that counts `varCount` variables. -/
def scopeRecord (varCount link : UInt8) : List UInt8 :=
  [0, 0, 0, 0, 0, varCount, 0, 1, 0, 0, 3, 1, 0, 0, link, 0] ++
    [6, UInt8.ofNat opDrop, UInt8.ofNat opReturnUndef]

/-- Whether `JS_ReadFunction` accepts a record, with its counts and variable records. -/
def acceptedTables (record : List UInt8) : Option (Nat × Nat × List JSBytecodeVarDef) :=
  match jsReadFunction (jsReadObjectRec 0) (initReader freshContext record ⟨true, false⟩) with
  | .ok (.functionBytecode b _) _ => some (b.argCount, b.varCount, b.vardefs)
  | _ => none

theorem acceptedTables_some (record : List UInt8) (argCount varCount : Nat)
    (vardefs : List JSBytecodeVarDef)
    (accepted : acceptedTables record = some (argCount, varCount, vardefs)) :
    ∃ b cpool t, Reads (jsReadFunction (jsReadObjectRec 0))
        (initReader freshContext record ⟨true, false⟩) (.functionBytecode b cpool) t ∧
      b.argCount = argCount ∧ b.varCount = varCount ∧ b.vardefs = vardefs := by
  unfold acceptedTables at accepted
  split at accepted
  next b cpool t run =>
    simp only [Option.some.injEq, Prod.mk.injEq] at accepted
    exact ⟨b, cpool, t, run, accepted⟩
  next => cases accepted

def unscopedVarDef (scopeNext : Int) : JSBytecodeVarDef := ⟨0, scopeNext, 0, false, false, false, 0⟩

end PrimJs
