import Mathlib.Tactic
import Mathlib.Data.List.Basic

/-! The opcode table of `quickjs-opcode.h`, with `SHORT_OPCODES` enabled. Temporary opcodes
share their numbers with the short ones, so the table is indexed through `opcodeInfo` in
phase 1 and 2 code and through `shortOpcodeInfo` in final code. -/

namespace PrimJs

inductive OPCodeFormat where
  | none | noneInt | noneLoc | noneArg | noneVarRef | u8 | i8 | loc8
  | const8 | label8 | u16 | i16 | label16 | npop | npopx | loc
  | arg | varRef | u32 | i32 | const | label | atom | atomU8
  | atomU16 | atomLabelU8 | atomLabelU16 | labelU16 | u64
  deriving DecidableEq, Repr

structure JSOpCode where
  id : Nat
  size : Nat
  nPop : Nat
  nPush : Nat
  fmt : OPCodeFormat
  deriving DecidableEq, Repr

def opInvalid : Nat := 0
def opPushI32 : Nat := 1
def opPushConst : Nat := 2
def opFclosure : Nat := 3
def opPushAtomValue : Nat := 4
def opPrivateSymbol : Nat := 5
def opUndefined : Nat := 6
def opNull : Nat := 7
def opPushThis : Nat := 8
def opPushFalse : Nat := 9
def opPushTrue : Nat := 10
def opObject : Nat := 11
def opSpecialObject : Nat := 12
def opRest : Nat := 13
def opDrop : Nat := 14
def opNip : Nat := 15
def opNip1 : Nat := 16
def opDup : Nat := 17
def opDup1 : Nat := 18
def opDup2 : Nat := 19
def opDup3 : Nat := 20
def opInsert2 : Nat := 21
def opInsert3 : Nat := 22
def opInsert4 : Nat := 23
def opPerm3 : Nat := 24
def opPerm4 : Nat := 25
def opPerm5 : Nat := 26
def opSwap : Nat := 27
def opSwap2 : Nat := 28
def opRot3l : Nat := 29
def opRot3r : Nat := 30
def opRot4l : Nat := 31
def opRot5l : Nat := 32
def opCallConstructor : Nat := 33
def opCall : Nat := 34
def opTailCall : Nat := 35
def opCallMethod : Nat := 36
def opTailCallMethod : Nat := 37
def opArrayFrom : Nat := 38
def opApply : Nat := 39
def opReturn : Nat := 40
def opReturnUndef : Nat := 41
def opCheckCtorReturn : Nat := 42
def opCheckCtor : Nat := 43
def opCheckBrand : Nat := 44
def opAddBrand : Nat := 45
def opReturnAsync : Nat := 46
def opThrow : Nat := 47
def opThrowVar : Nat := 48
def opEval : Nat := 49
def opRegexp : Nat := 50
def opGetSuperCtor : Nat := 51
def opGetSuper : Nat := 52
def opImport : Nat := 53
def opCheckVar : Nat := 54
def opGetVarUndef : Nat := 55
def opGetVar : Nat := 56
def opPutVar : Nat := 57
def opPutVarInit : Nat := 58
def opPutVarStrict : Nat := 59
def opGetRefValue : Nat := 60
def opPutRefValue : Nat := 61
def opDefineVar : Nat := 62
def opCheckDefineVar : Nat := 63
def opDefineFunc : Nat := 64
def opGetField : Nat := 65
def opGetField2 : Nat := 66
def opPutField : Nat := 67
def opGetPrivateField : Nat := 68
def opPutPrivateField : Nat := 69
def opDefinePrivateField : Nat := 70
def opGetArrayEl : Nat := 71
def opGetArrayEl2 : Nat := 72
def opPutArrayEl : Nat := 73
def opGetSuperValue : Nat := 74
def opPutSuperValue : Nat := 75
def opDefineField : Nat := 76
def opSetName : Nat := 77
def opSetNameComputed : Nat := 78
def opSetProto : Nat := 79
def opSetHomeObject : Nat := 80
def opDefineArrayEl : Nat := 81
def opAppend : Nat := 82
def opCopyDataProperties : Nat := 83
def opDefineMethod : Nat := 84
def opDefineMethodComputed : Nat := 85
def opDefineClass : Nat := 86
def opGetLoc : Nat := 87
def opPutLoc : Nat := 88
def opSetLoc : Nat := 89
def opGetArg : Nat := 90
def opPutArg : Nat := 91
def opSetArg : Nat := 92
def opGetVarRef : Nat := 93
def opPutVarRef : Nat := 94
def opSetVarRef : Nat := 95
def opSetLocUninitialized : Nat := 96
def opGetLocCheck : Nat := 97
def opPutLocCheck : Nat := 98
def opPutLocCheckInit : Nat := 99
def opGetVarRefCheck : Nat := 100
def opPutVarRefCheck : Nat := 101
def opPutVarRefCheckInit : Nat := 102
def opCloseLoc : Nat := 103
def opIfFalse : Nat := 104
def opIfTrue : Nat := 105
def opGoto : Nat := 106
def opCatch : Nat := 107
def opGosub : Nat := 108
def opRet : Nat := 109
def opToObject : Nat := 110
def opToPropkey : Nat := 111
def opToPropkey2 : Nat := 112
def opWithGetVar : Nat := 113
def opWithPutVar : Nat := 114
def opWithDeleteVar : Nat := 115
def opWithMakeRef : Nat := 116
def opWithGetRef : Nat := 117
def opWithGetRefUndef : Nat := 118
def opMakeLocRef : Nat := 119
def opMakeArgRef : Nat := 120
def opMakeVarRefRef : Nat := 121
def opMakeVarRef : Nat := 122
def opForInStart : Nat := 123
def opForOfStart : Nat := 124
def opForAwaitOfStart : Nat := 125
def opForInNext : Nat := 126
def opForOfNext : Nat := 127
def opForAwaitOfNext : Nat := 128
def opIteratorGetValueDone : Nat := 129
def opIteratorClose : Nat := 130
def opIteratorCloseReturn : Nat := 131
def opAsyncIteratorClose : Nat := 132
def opAsyncIteratorNext : Nat := 133
def opAsyncIteratorGet : Nat := 134
def opInitialYield : Nat := 135
def opYield : Nat := 136
def opYieldStar : Nat := 137
def opAsyncYieldStar : Nat := 138
def opAwait : Nat := 139
def opNeg : Nat := 140
def opPlus : Nat := 141
def opDec : Nat := 142
def opInc : Nat := 143
def opPostDec : Nat := 144
def opPostInc : Nat := 145
def opDecLoc : Nat := 146
def opIncLoc : Nat := 147
def opAddLoc : Nat := 148
def opNot : Nat := 149
def opLnot : Nat := 150
def opTypeof : Nat := 151
def opDelete : Nat := 152
def opDeleteVar : Nat := 153
def opMul : Nat := 154
def opDiv : Nat := 155
def opMod : Nat := 156
def opAdd : Nat := 157
def opSub : Nat := 158
def opPow : Nat := 159
def opShl : Nat := 160
def opSar : Nat := 161
def opShr : Nat := 162
def opLt : Nat := 163
def opLte : Nat := 164
def opGt : Nat := 165
def opGte : Nat := 166
def opInstanceof : Nat := 167
def opIn : Nat := 168
def opEq : Nat := 169
def opNeq : Nat := 170
def opStrictEq : Nat := 171
def opStrictNeq : Nat := 172
def opAnd : Nat := 173
def opXor : Nat := 174
def opOr : Nat := 175
def opNop : Nat := 176
def opPushMinus1 : Nat := 177
def opPush0 : Nat := 178
def opPush1 : Nat := 179
def opPush2 : Nat := 180
def opPush3 : Nat := 181
def opPush4 : Nat := 182
def opPush5 : Nat := 183
def opPush6 : Nat := 184
def opPush7 : Nat := 185
def opPushI8 : Nat := 186
def opPushI16 : Nat := 187
def opPushConst8 : Nat := 188
def opFclosure8 : Nat := 189
def opPushEmptyString : Nat := 190
def opGetLoc8 : Nat := 191
def opPutLoc8 : Nat := 192
def opSetLoc8 : Nat := 193
def opGetLoc0 : Nat := 194
def opGetLoc1 : Nat := 195
def opGetLoc2 : Nat := 196
def opGetLoc3 : Nat := 197
def opPutLoc0 : Nat := 198
def opPutLoc1 : Nat := 199
def opPutLoc2 : Nat := 200
def opPutLoc3 : Nat := 201
def opSetLoc0 : Nat := 202
def opSetLoc1 : Nat := 203
def opSetLoc2 : Nat := 204
def opSetLoc3 : Nat := 205
def opGetArg0 : Nat := 206
def opGetArg1 : Nat := 207
def opGetArg2 : Nat := 208
def opGetArg3 : Nat := 209
def opPutArg0 : Nat := 210
def opPutArg1 : Nat := 211
def opPutArg2 : Nat := 212
def opPutArg3 : Nat := 213
def opSetArg0 : Nat := 214
def opSetArg1 : Nat := 215
def opSetArg2 : Nat := 216
def opSetArg3 : Nat := 217
def opGetVarRef0 : Nat := 218
def opGetVarRef1 : Nat := 219
def opGetVarRef2 : Nat := 220
def opGetVarRef3 : Nat := 221
def opPutVarRef0 : Nat := 222
def opPutVarRef1 : Nat := 223
def opPutVarRef2 : Nat := 224
def opPutVarRef3 : Nat := 225
def opSetVarRef0 : Nat := 226
def opSetVarRef1 : Nat := 227
def opSetVarRef2 : Nat := 228
def opSetVarRef3 : Nat := 229
def opGetLength : Nat := 230
def opIfFalse8 : Nat := 231
def opIfTrue8 : Nat := 232
def opGoto8 : Nat := 233
def opGoto16 : Nat := 234
def opCall0 : Nat := 235
def opCall1 : Nat := 236
def opCall2 : Nat := 237
def opCall3 : Nat := 238
def opIsUndefined : Nat := 239
def opIsNull : Nat := 240
def opIsFunction : Nat := 241
def opIncCoverage : Nat := 242

def opSetArgValidUpto : Nat := 177
def opCloseVarObject : Nat := 178
def opEnterScope : Nat := 179
def opLeaveScope : Nat := 180
def opLabel : Nat := 181
def opScopeGetVarUndef : Nat := 182
def opScopeGetVar : Nat := 183
def opScopePutVar : Nat := 184
def opScopeDeleteVar : Nat := 185
def opScopeMakeRef : Nat := 186
def opScopeGetRef : Nat := 187
def opScopePutVarInit : Nat := 188
def opScopeGetPrivateField : Nat := 189
def opScopeGetPrivateField2 : Nat := 190
def opScopePutPrivateField : Nat := 191
def opLineNum : Nat := 192
def opCallerStr : Nat := 193
def opIncCoverageTemp : Nat := 194

def opCount : Nat := 243
def opShippableCount : Nat := 242
def opTempStart : Nat := opNop + 1
def opTempEnd : Nat := opTempStart + 18

/-- `opcode_info` in the order of the header: temporary opcodes stand between `nop` and the
short opcodes. -/
def opcodeInfoTable : List JSOpCode := [
  ⟨opInvalid, 1, 0, 0, .none⟩, ⟨opPushI32, 5, 0, 1, .i32⟩, ⟨opPushConst, 5, 0, 1, .const⟩,
  ⟨opFclosure, 5, 0, 1, .const⟩, ⟨opPushAtomValue, 5, 0, 1, .atom⟩,
  ⟨opPrivateSymbol, 5, 0, 1, .atom⟩, ⟨opUndefined, 1, 0, 1, .none⟩, ⟨opNull, 1, 0, 1, .none⟩,
  ⟨opPushThis, 1, 0, 1, .none⟩, ⟨opPushFalse, 1, 0, 1, .none⟩, ⟨opPushTrue, 1, 0, 1, .none⟩,
  ⟨opObject, 1, 0, 1, .none⟩, ⟨opSpecialObject, 2, 0, 1, .u8⟩, ⟨opRest, 3, 0, 1, .u16⟩,
  ⟨opDrop, 1, 1, 0, .none⟩, ⟨opNip, 1, 2, 1, .none⟩, ⟨opNip1, 1, 3, 2, .none⟩,
  ⟨opDup, 1, 1, 2, .none⟩, ⟨opDup1, 1, 2, 3, .none⟩, ⟨opDup2, 1, 2, 4, .none⟩,
  ⟨opDup3, 1, 3, 6, .none⟩, ⟨opInsert2, 1, 2, 3, .none⟩, ⟨opInsert3, 1, 3, 4, .none⟩,
  ⟨opInsert4, 1, 4, 5, .none⟩, ⟨opPerm3, 1, 3, 3, .none⟩, ⟨opPerm4, 1, 4, 4, .none⟩,
  ⟨opPerm5, 1, 5, 5, .none⟩, ⟨opSwap, 1, 2, 2, .none⟩, ⟨opSwap2, 1, 4, 4, .none⟩,
  ⟨opRot3l, 1, 3, 3, .none⟩, ⟨opRot3r, 1, 3, 3, .none⟩, ⟨opRot4l, 1, 4, 4, .none⟩,
  ⟨opRot5l, 1, 5, 5, .none⟩, ⟨opCallConstructor, 3, 2, 1, .npop⟩, ⟨opCall, 3, 1, 1, .npop⟩,
  ⟨opTailCall, 3, 1, 0, .npop⟩, ⟨opCallMethod, 3, 2, 1, .npop⟩, ⟨opTailCallMethod, 3, 2, 0, .npop⟩,
  ⟨opArrayFrom, 3, 0, 1, .npop⟩, ⟨opApply, 3, 3, 1, .u16⟩, ⟨opReturn, 1, 1, 0, .none⟩,
  ⟨opReturnUndef, 1, 0, 0, .none⟩, ⟨opCheckCtorReturn, 1, 1, 2, .none⟩,
  ⟨opCheckCtor, 1, 0, 0, .none⟩, ⟨opCheckBrand, 1, 2, 2, .none⟩, ⟨opAddBrand, 1, 2, 0, .none⟩,
  ⟨opReturnAsync, 1, 1, 0, .none⟩, ⟨opThrow, 1, 1, 0, .none⟩, ⟨opThrowVar, 6, 0, 0, .atomU8⟩,
  ⟨opEval, 3, 1, 1, .u16⟩, ⟨opRegexp, 1, 2, 1, .none⟩, ⟨opGetSuperCtor, 1, 1, 1, .none⟩,
  ⟨opGetSuper, 1, 1, 1, .none⟩, ⟨opImport, 1, 1, 1, .none⟩, ⟨opCheckVar, 5, 0, 1, .atom⟩,
  ⟨opGetVarUndef, 5, 0, 1, .atom⟩, ⟨opGetVar, 5, 0, 1, .atom⟩, ⟨opPutVar, 5, 1, 0, .atom⟩,
  ⟨opPutVarInit, 5, 1, 0, .atom⟩, ⟨opPutVarStrict, 5, 2, 0, .atom⟩,
  ⟨opGetRefValue, 1, 2, 3, .none⟩, ⟨opPutRefValue, 1, 3, 0, .none⟩,
  ⟨opDefineVar, 6, 0, 0, .atomU8⟩, ⟨opCheckDefineVar, 6, 0, 0, .atomU8⟩,
  ⟨opDefineFunc, 6, 1, 0, .atomU8⟩, ⟨opGetField, 5, 1, 1, .atom⟩, ⟨opGetField2, 5, 1, 2, .atom⟩,
  ⟨opPutField, 5, 2, 0, .atom⟩, ⟨opGetPrivateField, 1, 2, 1, .none⟩,
  ⟨opPutPrivateField, 1, 3, 0, .none⟩, ⟨opDefinePrivateField, 1, 3, 1, .none⟩,
  ⟨opGetArrayEl, 1, 2, 1, .none⟩, ⟨opGetArrayEl2, 1, 2, 2, .none⟩, ⟨opPutArrayEl, 1, 3, 0, .none⟩,
  ⟨opGetSuperValue, 1, 3, 1, .none⟩, ⟨opPutSuperValue, 1, 4, 0, .none⟩,
  ⟨opDefineField, 5, 2, 1, .atom⟩, ⟨opSetName, 5, 1, 1, .atom⟩,
  ⟨opSetNameComputed, 1, 2, 2, .none⟩, ⟨opSetProto, 1, 2, 1, .none⟩,
  ⟨opSetHomeObject, 1, 2, 2, .none⟩, ⟨opDefineArrayEl, 1, 3, 2, .none⟩, ⟨opAppend, 1, 3, 2, .none⟩,
  ⟨opCopyDataProperties, 2, 3, 3, .u8⟩, ⟨opDefineMethod, 6, 2, 1, .atomU8⟩,
  ⟨opDefineMethodComputed, 2, 3, 1, .u8⟩, ⟨opDefineClass, 6, 2, 2, .atomU8⟩,
  ⟨opGetLoc, 3, 0, 1, .loc⟩, ⟨opPutLoc, 3, 1, 0, .loc⟩, ⟨opSetLoc, 3, 1, 1, .loc⟩,
  ⟨opGetArg, 3, 0, 1, .arg⟩, ⟨opPutArg, 3, 1, 0, .arg⟩, ⟨opSetArg, 3, 1, 1, .arg⟩,
  ⟨opGetVarRef, 3, 0, 1, .varRef⟩, ⟨opPutVarRef, 3, 1, 0, .varRef⟩,
  ⟨opSetVarRef, 3, 1, 1, .varRef⟩, ⟨opSetLocUninitialized, 3, 0, 0, .loc⟩,
  ⟨opGetLocCheck, 3, 0, 1, .loc⟩, ⟨opPutLocCheck, 3, 1, 0, .loc⟩,
  ⟨opPutLocCheckInit, 3, 1, 0, .loc⟩, ⟨opGetVarRefCheck, 3, 0, 1, .varRef⟩,
  ⟨opPutVarRefCheck, 3, 1, 0, .varRef⟩, ⟨opPutVarRefCheckInit, 3, 1, 0, .varRef⟩,
  ⟨opCloseLoc, 3, 0, 0, .loc⟩, ⟨opIfFalse, 5, 1, 0, .label⟩, ⟨opIfTrue, 5, 1, 0, .label⟩,
  ⟨opGoto, 5, 0, 0, .label⟩, ⟨opCatch, 5, 0, 1, .label⟩, ⟨opGosub, 5, 0, 0, .label⟩,
  ⟨opRet, 1, 1, 0, .none⟩, ⟨opToObject, 1, 1, 1, .none⟩, ⟨opToPropkey, 1, 1, 1, .none⟩,
  ⟨opToPropkey2, 1, 2, 2, .none⟩, ⟨opWithGetVar, 10, 1, 0, .atomLabelU8⟩,
  ⟨opWithPutVar, 10, 2, 1, .atomLabelU8⟩, ⟨opWithDeleteVar, 10, 1, 0, .atomLabelU8⟩,
  ⟨opWithMakeRef, 10, 1, 0, .atomLabelU8⟩, ⟨opWithGetRef, 10, 1, 0, .atomLabelU8⟩,
  ⟨opWithGetRefUndef, 10, 1, 0, .atomLabelU8⟩, ⟨opMakeLocRef, 7, 0, 2, .atomU16⟩,
  ⟨opMakeArgRef, 7, 0, 2, .atomU16⟩, ⟨opMakeVarRefRef, 7, 0, 2, .atomU16⟩,
  ⟨opMakeVarRef, 5, 0, 2, .atom⟩, ⟨opForInStart, 1, 1, 1, .none⟩, ⟨opForOfStart, 1, 1, 3, .none⟩,
  ⟨opForAwaitOfStart, 1, 1, 3, .none⟩, ⟨opForInNext, 1, 1, 3, .none⟩, ⟨opForOfNext, 2, 3, 5, .u8⟩,
  ⟨opForAwaitOfNext, 1, 3, 4, .none⟩, ⟨opIteratorGetValueDone, 1, 1, 2, .none⟩,
  ⟨opIteratorClose, 1, 3, 0, .none⟩, ⟨opIteratorCloseReturn, 1, 4, 4, .none⟩,
  ⟨opAsyncIteratorClose, 1, 3, 2, .none⟩, ⟨opAsyncIteratorNext, 1, 4, 4, .none⟩,
  ⟨opAsyncIteratorGet, 2, 4, 5, .u8⟩, ⟨opInitialYield, 1, 0, 0, .none⟩, ⟨opYield, 1, 1, 2, .none⟩,
  ⟨opYieldStar, 1, 2, 2, .none⟩, ⟨opAsyncYieldStar, 1, 1, 2, .none⟩, ⟨opAwait, 1, 1, 1, .none⟩,
  ⟨opNeg, 1, 1, 1, .none⟩, ⟨opPlus, 1, 1, 1, .none⟩, ⟨opDec, 1, 1, 1, .none⟩,
  ⟨opInc, 1, 1, 1, .none⟩, ⟨opPostDec, 1, 1, 2, .none⟩, ⟨opPostInc, 1, 1, 2, .none⟩,
  ⟨opDecLoc, 2, 0, 0, .loc8⟩, ⟨opIncLoc, 2, 0, 0, .loc8⟩, ⟨opAddLoc, 2, 1, 0, .loc8⟩,
  ⟨opNot, 1, 1, 1, .none⟩, ⟨opLnot, 1, 1, 1, .none⟩, ⟨opTypeof, 1, 1, 1, .none⟩,
  ⟨opDelete, 1, 2, 1, .none⟩, ⟨opDeleteVar, 5, 0, 1, .atom⟩, ⟨opMul, 1, 2, 1, .none⟩,
  ⟨opDiv, 1, 2, 1, .none⟩, ⟨opMod, 1, 2, 1, .none⟩, ⟨opAdd, 1, 2, 1, .none⟩,
  ⟨opSub, 1, 2, 1, .none⟩, ⟨opPow, 1, 2, 1, .none⟩, ⟨opShl, 1, 2, 1, .none⟩,
  ⟨opSar, 1, 2, 1, .none⟩, ⟨opShr, 1, 2, 1, .none⟩, ⟨opLt, 1, 2, 1, .none⟩,
  ⟨opLte, 1, 2, 1, .none⟩, ⟨opGt, 1, 2, 1, .none⟩, ⟨opGte, 1, 2, 1, .none⟩,
  ⟨opInstanceof, 1, 2, 1, .none⟩, ⟨opIn, 1, 2, 1, .none⟩, ⟨opEq, 1, 2, 1, .none⟩,
  ⟨opNeq, 1, 2, 1, .none⟩, ⟨opStrictEq, 1, 2, 1, .none⟩, ⟨opStrictNeq, 1, 2, 1, .none⟩,
  ⟨opAnd, 1, 2, 1, .none⟩, ⟨opXor, 1, 2, 1, .none⟩, ⟨opOr, 1, 2, 1, .none⟩,
  ⟨opNop, 1, 0, 0, .none⟩, ⟨opSetArgValidUpto, 3, 0, 0, .arg⟩, ⟨opCloseVarObject, 1, 0, 0, .none⟩,
  ⟨opEnterScope, 3, 0, 0, .u16⟩, ⟨opLeaveScope, 3, 0, 0, .u16⟩, ⟨opLabel, 5, 0, 0, .label⟩,
  ⟨opScopeGetVarUndef, 7, 0, 1, .atomU16⟩, ⟨opScopeGetVar, 7, 0, 1, .atomU16⟩,
  ⟨opScopePutVar, 7, 1, 0, .atomU16⟩, ⟨opScopeDeleteVar, 7, 0, 1, .atomU16⟩,
  ⟨opScopeMakeRef, 11, 0, 2, .atomLabelU16⟩, ⟨opScopeGetRef, 7, 0, 2, .atomU16⟩,
  ⟨opScopePutVarInit, 7, 0, 2, .atomU16⟩, ⟨opScopeGetPrivateField, 7, 1, 1, .atomU16⟩,
  ⟨opScopeGetPrivateField2, 7, 1, 2, .atomU16⟩, ⟨opScopePutPrivateField, 7, 1, 1, .atomU16⟩,
  ⟨opLineNum, 9, 0, 0, .u64⟩, ⟨opCallerStr, 1, 0, 0, .none⟩, ⟨opIncCoverageTemp, 5, 0, 0, .u32⟩,
  ⟨opPushMinus1, 1, 0, 1, .noneInt⟩, ⟨opPush0, 1, 0, 1, .noneInt⟩, ⟨opPush1, 1, 0, 1, .noneInt⟩,
  ⟨opPush2, 1, 0, 1, .noneInt⟩, ⟨opPush3, 1, 0, 1, .noneInt⟩, ⟨opPush4, 1, 0, 1, .noneInt⟩,
  ⟨opPush5, 1, 0, 1, .noneInt⟩, ⟨opPush6, 1, 0, 1, .noneInt⟩, ⟨opPush7, 1, 0, 1, .noneInt⟩,
  ⟨opPushI8, 2, 0, 1, .i8⟩, ⟨opPushI16, 3, 0, 1, .i16⟩, ⟨opPushConst8, 2, 0, 1, .const8⟩,
  ⟨opFclosure8, 2, 0, 1, .const8⟩, ⟨opPushEmptyString, 1, 0, 1, .none⟩,
  ⟨opGetLoc8, 2, 0, 1, .loc8⟩, ⟨opPutLoc8, 2, 1, 0, .loc8⟩, ⟨opSetLoc8, 2, 1, 1, .loc8⟩,
  ⟨opGetLoc0, 1, 0, 1, .noneLoc⟩, ⟨opGetLoc1, 1, 0, 1, .noneLoc⟩, ⟨opGetLoc2, 1, 0, 1, .noneLoc⟩,
  ⟨opGetLoc3, 1, 0, 1, .noneLoc⟩, ⟨opPutLoc0, 1, 1, 0, .noneLoc⟩, ⟨opPutLoc1, 1, 1, 0, .noneLoc⟩,
  ⟨opPutLoc2, 1, 1, 0, .noneLoc⟩, ⟨opPutLoc3, 1, 1, 0, .noneLoc⟩, ⟨opSetLoc0, 1, 1, 1, .noneLoc⟩,
  ⟨opSetLoc1, 1, 1, 1, .noneLoc⟩, ⟨opSetLoc2, 1, 1, 1, .noneLoc⟩, ⟨opSetLoc3, 1, 1, 1, .noneLoc⟩,
  ⟨opGetArg0, 1, 0, 1, .noneArg⟩, ⟨opGetArg1, 1, 0, 1, .noneArg⟩, ⟨opGetArg2, 1, 0, 1, .noneArg⟩,
  ⟨opGetArg3, 1, 0, 1, .noneArg⟩, ⟨opPutArg0, 1, 1, 0, .noneArg⟩, ⟨opPutArg1, 1, 1, 0, .noneArg⟩,
  ⟨opPutArg2, 1, 1, 0, .noneArg⟩, ⟨opPutArg3, 1, 1, 0, .noneArg⟩, ⟨opSetArg0, 1, 1, 1, .noneArg⟩,
  ⟨opSetArg1, 1, 1, 1, .noneArg⟩, ⟨opSetArg2, 1, 1, 1, .noneArg⟩, ⟨opSetArg3, 1, 1, 1, .noneArg⟩,
  ⟨opGetVarRef0, 1, 0, 1, .noneVarRef⟩, ⟨opGetVarRef1, 1, 0, 1, .noneVarRef⟩,
  ⟨opGetVarRef2, 1, 0, 1, .noneVarRef⟩, ⟨opGetVarRef3, 1, 0, 1, .noneVarRef⟩,
  ⟨opPutVarRef0, 1, 1, 0, .noneVarRef⟩, ⟨opPutVarRef1, 1, 1, 0, .noneVarRef⟩,
  ⟨opPutVarRef2, 1, 1, 0, .noneVarRef⟩, ⟨opPutVarRef3, 1, 1, 0, .noneVarRef⟩,
  ⟨opSetVarRef0, 1, 1, 1, .noneVarRef⟩, ⟨opSetVarRef1, 1, 1, 1, .noneVarRef⟩,
  ⟨opSetVarRef2, 1, 1, 1, .noneVarRef⟩, ⟨opSetVarRef3, 1, 1, 1, .noneVarRef⟩,
  ⟨opGetLength, 1, 1, 1, .none⟩, ⟨opIfFalse8, 2, 1, 0, .label8⟩, ⟨opIfTrue8, 2, 1, 0, .label8⟩,
  ⟨opGoto8, 2, 0, 0, .label8⟩, ⟨opGoto16, 3, 0, 0, .label16⟩, ⟨opCall0, 1, 1, 1, .npopx⟩,
  ⟨opCall1, 1, 1, 1, .npopx⟩, ⟨opCall2, 1, 1, 1, .npopx⟩, ⟨opCall3, 1, 1, 1, .npopx⟩,
  ⟨opIsUndefined, 1, 1, 1, .none⟩, ⟨opIsNull, 1, 1, 1, .none⟩, ⟨opIsFunction, 1, 1, 1, .none⟩,
  ⟨opIncCoverage, 5, 0, 0, .u32⟩]

def opcodeInfo (op : Nat) : JSOpCode :=
  opcodeInfoTable[op]?.getD ⟨op, 0, 0, 0, .none⟩

def shortOpcodeInfo (op : Nat) : JSOpCode :=
  opcodeInfo (if op ≥ opTempStart then op + (opTempEnd - opTempStart) else op)

abbrev opSize (op : Nat) : Nat := (shortOpcodeInfo op).size

theorem opSize_pos : ∀ op < opCount, 0 < opSize op := by decide +kernel

end PrimJs
