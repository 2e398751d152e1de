import PrimJs.Serialize.Reader

/-! What every step of the reader leaves alone, and the atoms it hands out. -/

namespace PrimJs

open StateReader

namespace BCReaderState

structure Extends (s t : BCReaderState) : Prop where
  firstAtom : t.firstAtom = s.firstAtom
  idxToAtom : t.idxToAtom = s.idxToAtom
  allowBytecode : t.allowBytecode = s.allowBytecode
  isRomData : t.isRomData = s.isRomData
  layout : t.ctx.layout = s.ctx.layout
  atoms : s.ctx.atoms.toAtomArray.Extends t.ctx.atoms.toAtomArray

instance : Std.Refl Extends := ⟨fun _ => ⟨rfl, rfl, rfl, rfl, rfl, .rfl⟩⟩

instance : IsTrans BCReaderState Extends :=
  ⟨fun _ _ _ first second =>
    ⟨second.firstAtom.trans first.firstAtom, second.idxToAtom.trans first.idxToAtom,
      second.allowBytecode.trans first.allowBytecode, second.isRomData.trans first.isRomData,
      second.layout.trans first.layout, first.atoms.trans second.atoms⟩⟩

theorem Extends.rfl {s : BCReaderState} : s.Extends s := Std.Refl.refl s

theorem Extends.trans {s t u : BCReaderState} (first : s.Extends t) (second : t.Extends u) :
    s.Extends u :=
  IsTrans.trans s t u first second

/-- The predefined atoms and the ones read from the header are in the runtime's table. -/
structure Ready (s : BCReaderState) : Prop where
  firstAtom : s.firstAtom ≤ jsAtomEnd
  idxToAtom : ∀ atom ∈ s.idxToAtom, s.ctx.atoms.Valid atom

theorem Ready.mono {s t : BCReaderState} (ready : s.Ready) (frame : s.Extends t) : t.Ready :=
  ⟨frame.firstAtom ▸ ready.firstAtom, fun atom member =>
    (ready.idxToAtom atom (frame.idxToAtom ▸ member)).mono frame.atoms⟩

end BCReaderState

/-- The reader stays within one frame: only the input position and the atom table move. -/
abbrev Framed {α : Type} (read : BCRead α) : Prop := Keeps BCReaderState.Extends read

variable {readRec : BCRead BCValue} {t s : BCReaderState}

theorem reads_bcTake {n : Nat} {bytes : List UInt8} :
    Reads (bcTake n) s bytes t ↔
      n ≤ s.rest.length ∧ bytes = s.rest.take n ∧ t = s.advance n := by
  simp only [bcTake, reads_bind, reads_get, reads_require, reads_set, reads_pure]
  constructor
  · rintro ⟨_, _, ⟨rfl, rfl⟩, _, _, ⟨enough, rfl⟩, _, _, rfl, rfl, rfl⟩
    exact ⟨enough, rfl, rfl⟩
  · rintro ⟨enough, rfl, rfl⟩
    exact ⟨s, s, ⟨rfl, rfl⟩, (), s, ⟨enough, rfl⟩, (), _, rfl, rfl, rfl⟩

theorem framed_bcTake (n : Nat) : Framed (bcTake n) := by
  intro s bytes t run
  obtain ⟨-, -, rfl⟩ := reads_bcTake.mp run
  exact ⟨rfl, rfl, rfl, rfl, rfl, .rfl⟩

theorem framed_bcGetU8 : Framed bcGetU8 := (framed_bcTake 1).map _

theorem framed_bcGetU16 : Framed bcGetU16 := (framed_bcTake 2).map _

theorem framed_bcGetU32 : Framed bcGetU32 := (framed_bcTake 4).map _

theorem framed_bcGetU64 : Framed bcGetU64 := (framed_bcTake 8).map _

theorem framed_bcGetLeb128 : Framed bcGetLeb128 := by
  intro s v t run
  obtain ⟨s', u, got, later⟩ := reads_bind.mp run
  obtain ⟨rfl, rfl⟩ := reads_get.mp got
  split at later
  next w rest _ =>
    obtain ⟨_, u', stored, last⟩ := reads_bind.mp later
    obtain rfl := reads_set.mp stored
    obtain ⟨-, rfl⟩ := reads_pure.mp last
    exact ⟨rfl, rfl, rfl, rfl, rfl, .rfl⟩
  next => exact (reads_throw later).elim

theorem framed_bcGetLeb128Int : Framed bcGetLeb128Int := framed_bcGetLeb128.map _

theorem framed_bcGetSleb128 : Framed bcGetSleb128 := framed_bcGetLeb128.map _

theorem framed_bcGetLeb128U16 : Framed bcGetLeb128U16 := framed_bcGetLeb128.map _

theorem reads_bcIdxToAtom {idx atom : Nat} (run : Reads (bcIdxToAtom idx) s atom t) :
    t = s ∧ (atom = idx ∧ (jsAtomIsTaggedInt idx ∨ idx < s.firstAtom) ∨
      ¬ jsAtomIsTaggedInt idx ∧ s.firstAtom ≤ idx ∧
        s.idxToAtom[idx - s.firstAtom]? = some atom) := by
  obtain ⟨s', u, got, later⟩ := reads_bind.mp run
  obtain ⟨rfl, rfl⟩ := reads_get.mp got
  split at later
  next tagged =>
    obtain ⟨rfl, rfl⟩ := reads_pure.mp later
    exact ⟨rfl, Or.inl ⟨rfl, Or.inl tagged⟩⟩
  next untagged =>
    split at later
    next below =>
      obtain ⟨rfl, rfl⟩ := reads_pure.mp later
      exact ⟨rfl, Or.inl ⟨rfl, Or.inr below⟩⟩
    next above =>
      split at later
      next entry found =>
        obtain ⟨rfl, rfl⟩ := reads_pure.mp later
        exact ⟨rfl, Or.inr ⟨untagged, Nat.le_of_not_lt above, found⟩⟩
      next => exact (reads_throw later).elim

theorem bcIdxToAtom_valid {idx atom : Nat} (ready : s.Ready) (small : idx < 2^32)
    (run : Reads (bcIdxToAtom idx) s atom t) : s.ctx.atoms.Valid atom := by
  obtain ⟨-, ⟨rfl, tagged | below⟩ | ⟨-, -, found⟩⟩ := reads_bcIdxToAtom run
  · exact Or.inl ⟨tagged, small⟩
  · exact s.ctx.atoms.predefined_valid (Nat.lt_of_lt_of_le below ready.firstAtom)
  · exact ready.idxToAtom atom (List.mem_of_getElem? found)

theorem framed_bcIdxToAtom (idx : Nat) : Framed (bcIdxToAtom idx) := by
  intro s atom t run
  obtain ⟨rfl, -⟩ := reads_bcIdxToAtom run
  exact .rfl

theorem framed_bcGetAtom : Framed bcGetAtom :=
  framed_bcGetLeb128.bind fun _ => (Keeps.pure _).ite (framed_bcIdxToAtom _)

theorem framed_jsReadString : Framed jsReadString :=
  framed_bcGetLeb128.bind fun _ => (Keeps.require _ _).bind fun _ => (framed_bcTake _).map _

theorem reads_bcNewAtom {str : JSString} {atom : Nat} (run : Reads (bcNewAtom str) s atom t) :
    ∃ atoms, s.ctx.atoms.jsNewAtomStr str = some (atom, atoms) ∧
      t = { s with ctx := { s.ctx with atoms } } := by
  obtain ⟨s', u, got, later⟩ := reads_bind.mp run
  obtain ⟨rfl, rfl⟩ := reads_get.mp got
  split at later
  next made atoms found =>
    obtain ⟨_, u', stored, last⟩ := reads_bind.mp later
    obtain rfl := reads_set.mp stored
    obtain ⟨rfl, rfl⟩ := reads_pure.mp last
    exact ⟨atoms, found, rfl⟩
  next => exact (reads_throw later).elim

theorem framed_bcNewAtom (str : JSString) : Framed (bcNewAtom str) := by
  intro s atom t run
  obtain ⟨atoms, made, rfl⟩ := reads_bcNewAtom run
  exact ⟨rfl, rfl, rfl, rfl, rfl, (AtomTable.jsNewAtomStr_spec made).1⟩

theorem bcNewAtom_valid {str : JSString} {atom : Nat} (run : Reads (bcNewAtom str) s atom t) :
    t.ctx.atoms.Valid atom := by
  obtain ⟨atoms, made, rfl⟩ := reads_bcNewAtom run
  exact (AtomTable.jsNewAtomStr_spec made).2

theorem framed_checkBytecodeIndex (b : LEPUSFunctionBytecode) (bcBuf : List UInt8) (pos : Nat) :
    Framed (checkBytecodeIndex b bcBuf pos) := by
  unfold checkBytecodeIndex
  split
  · exact Keeps.require _ _
  · exact Keeps.pure _

theorem framed_fixupAtom (bcBuf : List UInt8) (pos : Nat) : Framed (fixupAtom bcBuf pos) :=
  Keeps.get.bind fun _ =>
    ((framed_bcIdxToAtom _).bind fun _ => .pure _).ite (.pure _)

theorem framed_checkBytecodeLoop (b : LEPUSFunctionBytecode) (fuel pos : Nat)
    (bcBuf : List UInt8) : Framed (checkBytecodeLoop b fuel pos bcBuf) := by
  induction fuel generalizing pos bcBuf with
  | zero => exact .pure bcBuf
  | succ fuel ih =>
      unfold checkBytecodeLoop
      exact Keeps.ite
        ((Keeps.require _ _).bind fun _ => (Keeps.require _ _).bind fun _ =>
          (framed_checkBytecodeIndex b bcBuf pos).bind fun _ =>
            (framed_fixupAtom bcBuf pos).bind fun _ => ih _ _)
        (.pure _)

theorem framed_jsReadFunctionBytecode (b : LEPUSFunctionBytecode) (bcLen : Nat) :
    Framed (jsReadFunctionBytecode b bcLen) :=
  (framed_bcTake bcLen).bind fun bcBuf => framed_checkBytecodeLoop b bcLen 0 bcBuf

theorem framed_checkClosureVars (parent : LEPUSFunctionBytecode) (vars : List LEPUSClosureVar) :
    Framed (checkClosureVars parent vars) := by
  induction vars with
  | nil => exact .pure ()
  | cons closure rest ih => exact (Keeps.require _ _).bind fun _ => ih

theorem framed_jsValidateChildClosureVars (parent : LEPUSFunctionBytecode) (child : BCValue) :
    Framed (jsValidateChildClosureVars parent child) := by
  unfold jsValidateChildClosureVars
  split
  · exact framed_checkClosureVars _ _
  · exact .pure ()

theorem framed_readVarDef : Framed readVarDef :=
  framed_bcGetAtom.bind fun _ => framed_bcGetLeb128Int.bind fun _ =>
    framed_bcGetLeb128Int.bind fun _ => (Keeps.require _ _).bind fun _ =>
      framed_bcGetU8.bind fun _ => .pure _

theorem framed_readClosureVar : Framed readClosureVar :=
  framed_bcGetAtom.bind fun _ => framed_bcGetLeb128.bind fun _ =>
    framed_bcGetU8.bind fun _ => .pure _

theorem framed_readFunctionHeader : Framed readFunctionHeader :=
  framed_bcGetU16.bind fun _ => Keeps.get.bind fun _ => framed_bcGetU8.bind fun _ =>
    framed_bcGetAtom.bind fun _ => framed_bcGetLeb128U16.bind fun _ =>
      framed_bcGetLeb128U16.bind fun _ => framed_bcGetLeb128U16.bind fun _ =>
        framed_bcGetLeb128U16.bind fun _ => framed_bcGetLeb128Int.bind fun _ =>
          framed_bcGetLeb128Int.bind fun _ => framed_bcGetLeb128Int.bind fun _ =>
            framed_bcGetLeb128Int.bind fun _ => (Keeps.require _ _).bind fun _ => .pure _

theorem framed_newFilenameAtom : Framed newFilenameAtom := by
  intro s atom t run
  obtain ⟨s', u, got, later⟩ := reads_bind.mp run
  obtain ⟨rfl, rfl⟩ := reads_get.mp got
  split at later
  next made atoms found =>
    obtain ⟨_, u', stored, last⟩ := reads_bind.mp later
    obtain rfl := reads_set.mp stored
    obtain ⟨-, rfl⟩ := reads_pure.mp last
    exact ⟨rfl, rfl, rfl, rfl, rfl, (AtomTable.jsNewAtomStr_spec found).1⟩
  next =>
    obtain ⟨-, rfl⟩ := reads_pure.mp later
    exact .rfl

theorem framed_setDebuginfoOutside (s : BCReaderState) (setting : Nat) {u : PUnit}
    (run : Reads (set { s with ctx := { s.ctx with debuginfoOutside := setting } } :
      BCRead PUnit) s u t) : s.Extends t := by
  obtain rfl := reads_set.mp run
  exact ⟨rfl, rfl, rfl, rfl, rfl, .rfl⟩

theorem framed_adjustDebugInfo (filename : Nat) (lineNum : Int) :
    Framed (adjustDebugInfo filename lineNum) := by
  intro s result t run
  obtain ⟨s', u, got, later⟩ := reads_bind.mp run
  obtain ⟨rfl, rfl⟩ := reads_get.mp got
  have named : ∀ functionId : Nat,
      Framed (newFilenameAtom >>= fun filename => pure (filename, functionId)) :=
    fun _ => framed_newFilenameAtom.bind fun _ => .pure _
  split at later
  · split at later
    · exact named _ _ _ _ later
    · obtain ⟨-, rfl⟩ := reads_pure.mp later
      exact .rfl
  · split at later
    · split at later
      · obtain ⟨_, u, stored, last⟩ := reads_bind.mp later
        exact (framed_setDebuginfoOutside _ 1 stored).trans (named _ _ _ _ last)
      · obtain ⟨_, u, stored, last⟩ := reads_bind.mp later
        obtain ⟨-, rfl⟩ := reads_pure.mp last
        exact framed_setDebuginfoOutside _ 0 stored
    · obtain ⟨-, rfl⟩ := reads_pure.mp later
      exact .rfl

theorem framed_readDebug (b : LEPUSFunctionBytecode) : Framed (readDebug b) :=
  framed_bcGetAtom.bind fun _ => framed_bcGetLeb128Int.bind fun _ =>
    (framed_adjustDebugInfo _ _).bind fun _ => framed_bcGetLeb128Int.bind fun _ =>
      (Keeps.require _ _).bind fun _ => (framed_bcTake _).bind fun _ => .pure _

theorem framed_readConstant (framed : Framed readRec) (b : LEPUSFunctionBytecode) :
    Framed (readConstant readRec b) :=
  framed.bind fun val => (framed_jsValidateChildClosureVars b val).bind fun _ => .pure val

theorem framed_readCpool (framed : Framed readRec) (b : LEPUSFunctionBytecode) :
    Framed (readCpool readRec b) :=
  (framed_readConstant framed b).readN _

theorem framed_jsReadFunction (framed : Framed readRec) : Framed (jsReadFunction readRec) :=
  Keeps.get.bind fun _ => (Keeps.require _ _).bind fun _ =>
    framed_readFunctionHeader.bind fun _ => (Keeps.require _ _).bind fun _ =>
      (framed_readVarDef.readN _).bind fun _ => (framed_readClosureVar.readN _).bind fun _ =>
        (framed_jsReadFunctionBytecode _ _).bind fun _ =>
          Keeps.ite
            ((framed_readDebug _).bind fun _ => (framed_readCpool framed _).bind fun _ => .pure _)
            ((Keeps.pure _).bind fun _ => (framed_readCpool framed _).bind fun _ => .pure _)

theorem framed_readTable {α : Type} {read : BCRead α} (framed : Framed read) :
    Framed (readTable read) :=
  Keeps.bind (framed_bcGetLeb128Int.bind fun _ => (Keeps.require _ _).bind fun _ => .pure _)
    fun _ => framed.readN _

theorem framed_readExportEntry : Framed readExportEntry :=
  framed_bcGetU8.bind fun _ => framed_bcGetLeb128Int.bind fun _ =>
    Keeps.ite ((Keeps.pure _).bind fun _ => framed_bcGetAtom.bind fun _ => .pure _)
      (framed_bcGetAtom.bind fun _ => framed_bcGetAtom.bind fun _ => .pure _)

theorem framed_readImportEntry : Framed readImportEntry :=
  framed_bcGetLeb128Int.bind fun _ => framed_bcGetAtom.bind fun _ =>
    framed_bcGetLeb128Int.bind fun _ => .pure _

section

variable (framed : Framed readRec)

include framed

theorem framed_jsReadModule : Framed (jsReadModule readRec) :=
  Keeps.get.bind fun _ => (Keeps.require _ _).bind fun _ => framed_bcGetAtom.bind fun _ =>
    (framed_readTable framed_bcGetAtom).bind fun _ =>
      (framed_readTable framed_readExportEntry).bind fun _ =>
        (framed_readTable framed_bcGetLeb128Int).bind fun _ =>
          (framed_readTable framed_readImportEntry).bind fun _ => framed.bind fun _ => .pure _

theorem framed_readProps (n : Nat) (props : List (Nat × BCValue)) :
    Framed (readProps readRec n props) := by
  induction n generalizing props with
  | zero => exact .pure props
  | succ n ih => exact framed_bcGetAtom.bind fun _ => framed.bind fun _ => ih _

theorem framed_jsReadObjectTag : Framed (jsReadObjectTag readRec) :=
  framed_bcGetLeb128.bind fun _ => (framed_readProps framed _ _).bind fun _ => .pure _

theorem framed_jsReadArray (isTemplate : Bool) : Framed (jsReadArray readRec isTemplate) :=
  framed_bcGetLeb128.bind fun _ => (framed.readN _).bind fun _ =>
    (framed.bind fun _ => .pure _).ite (.pure _)

end

theorem framed_bcGetLimb (limbBytes : Nat) : Framed (bcGetLimb limbBytes) :=
  framed_bcGetU32.ite framed_bcGetU64

theorem framed_jsReadBigInt : Framed jsReadBigInt :=
  Keeps.get.bind fun _ => framed_bcGetLeb128.bind fun _ => (Keeps.require _ _).bind fun _ =>
    ((framed_bcGetLimb _).readN _).bind fun _ =>
      Keeps.ite
        (Keeps.bind ((framed_bcGetU8.readN _).bind fun _ => .pure _) fun _ => .pure _)
        (.pure _)

theorem framed_jsReadObjectRec (fuel : Nat) : Framed (jsReadObjectRec fuel) := by
  induction fuel with
  | zero => exact .throw _
  | succ fuel ih =>
      refine framed_bcGetU8.bind fun tag => Keeps.get.bind fun s => ?_
      cases BCTag.ofNumber tag with
      | none => exact .throw _
      | some tag =>
          cases tag with
          | null => exact .pure _
          | undefined => exact .pure _
          | boolFalse => exact .pure _
          | boolTrue => exact .pure _
          | int32 => exact framed_bcGetSleb128.map _
          | float64 => exact framed_bcGetU64.map _
          | string => exact framed_jsReadString.map _
          | object => exact framed_jsReadObjectTag ih
          | array => exact framed_jsReadArray ih false
          | bigInt => exact framed_jsReadBigInt
          | bigFloat => exact .throw _
          | templateObject => exact framed_jsReadArray ih true
          | functionBytecode => exact framed_jsReadFunction ih
          | module => exact framed_jsReadModule ih

end PrimJs
