import PrimJs.Optimizer.ConstFoldLoop

/-! What the emitted code does: the loop with its folds against the code before it. -/

namespace PrimJs.ConstFold

/-! Code as a list of items, and what it does to the stack -/

/-- An item of code, before or after the loop -/
inductive Item
  | const (c : Constant)
  | binary (op : BinaryOp)
  | compare (op : Comparison)
  | unary (op : UnaryOp)
  | lnot
  | other (code : Code)

def Constant.bytes : Constant → List UInt8
  | int v => pushShortInt v
  | bool b => ConstFold.pushBool b

def Item.bytes : Item → List UInt8
  | const c => c.bytes
  | binary op => [UInt8.ofNat op.code]
  | compare op => [UInt8.ofNat op.code]
  | unary op => [UInt8.ofNat op.code]
  | lnot => [UInt8.ofNat opLnot]
  | other code => code.bytes

def Instr.items : Instr → List Item
  | pushI32 v => [.const (.int v)]
  | pushBool b => [.const (.bool b)]
  | i32Neg v => [.const (.int v), .unary .neg]
  | i32Not v => [.const (.int v), .unary .not]
  | i32Lnot v => [.const (.int v), .lnot]
  | boolLnots b more => .const (.bool b) :: List.replicate (more + 1) .lnot
  | binary op => [.binary op]
  | compare op => [.compare op]
  | unary op => [.unary op]
  | lnot => [.lnot]
  | label _ => []
  | nothing => []
  | other code => [.other code]

inductive JSValue (V : Type)
  | number (n : JSNumber)
  | bool (b : Bool)
  | other (v : V)

/-- The operators on values that are not constants, and the other code; `none` is an exception. -/
structure Interpreter (V : Type) where
  binary : BinaryOp → JSValue V → JSValue V → Option (JSValue V)
  compare : Comparison → JSValue V → JSValue V → Option (JSValue V)
  unary : UnaryOp → JSValue V → Option (JSValue V)
  lnot : JSValue V → Option (JSValue V)
  other : Code → List (JSValue V) → Option (List (JSValue V))

variable {V : Type}

def Constant.value : Constant → JSValue V
  | int v => .number (.real v.toInt)
  | bool b => .bool b

/-- The number as an `int32` -/
def JSNumber.int32? : JSNumber → Option (BitVec 32)
  | real q => if q.den = 1 ∧ fitsInt32 q.num then some (BitVec.ofInt 32 q.num) else none
  | _ => none

def JSValue.constant? : JSValue V → Option Constant
  | number n => n.int32?.map .int
  | bool b => some (.bool b)
  | other _ => none

namespace Interpreter

def applyBinary (m : Interpreter V) (op : BinaryOp) (x y : JSValue V) : Option (JSValue V) :=
  match x.constant?, y.constant? with
  | some a, some b => some (.number (binaryValue op a.toInt32 b.toInt32))
  | _, _ => m.binary op x y

def applyCompare (m : Interpreter V) (op : Comparison) (x y : JSValue V) : Option (JSValue V) :=
  match x.constant?, y.constant? with
  | some a, some b => some (.bool (compareValue op a b))
  | _, _ => m.compare op x y

def applyUnary (m : Interpreter V) (op : UnaryOp) (x : JSValue V) : Option (JSValue V) :=
  match x.constant? with
  | some a => some (.number (unaryValue op a.toInt32))
  | none => m.unary op x

def applyLnot (m : Interpreter V) (x : JSValue V) : Option (JSValue V) :=
  match x.constant? with
  | some a => some (.bool (lnotValue a))
  | none => m.lnot x

def step (m : Interpreter V) : Item → List (JSValue V) → Option (List (JSValue V))
  | .const c, stack => some (c.value :: stack)
  | .binary op, y :: x :: stack => (m.applyBinary op x y).map (· :: stack)
  | .compare op, y :: x :: stack => (m.applyCompare op x y).map (· :: stack)
  | .unary op, x :: stack => (m.applyUnary op x).map (· :: stack)
  | .lnot, x :: stack => (m.applyLnot x).map (· :: stack)
  | .other code, stack => m.other code stack
  | _, _ => none

def run (m : Interpreter V) : List Item → List (JSValue V) → Option (List (JSValue V))
  | [], stack => some stack
  | item :: rest, stack => (m.step item stack).bind (m.run rest)

theorem run_append (m : Interpreter V) (xs ys : List Item) (stack : List (JSValue V)) :
    m.run (xs ++ ys) stack = (m.run xs stack).bind (m.run ys) := by
  induction xs generalizing stack with
  | nil => rfl
  | cons item rest ih =>
      rw [List.cons_append, run, run, Option.bind_assoc]
      congr 1
      funext stack'
      exact ih stack'

end Interpreter

def Same (xs ys : List Item) : Prop :=
  ∀ (V : Type) (m : Interpreter V) (stack : List (JSValue V)), m.run xs stack = m.run ys stack

def Agrees (items : List Item) (bytes : List UInt8) : Prop :=
  ∃ out : List Item, bytes = out.flatMap Item.bytes ∧ Same out items

namespace Same

variable {xs xs' ys ys' zs : List Item}

theorem refl (xs : List Item) : Same xs xs := fun _ _ _ => rfl

theorem trans (first : Same xs ys) (second : Same ys zs) : Same xs zs :=
  fun V m stack => (first V m stack).trans (second V m stack)

theorem append (left : Same xs xs') (right : Same ys ys') : Same (xs ++ ys) (xs' ++ ys') := by
  intro V m stack
  rw [m.run_append, m.run_append, left V m stack]
  congr 1
  funext stack'
  exact right V m stack'

end Same

theorem int32?_real (v : BitVec 32) : (JSNumber.real v.toInt).int32? = some v := by
  have fits : fitsInt32 v.toInt = true := decide_eq_true (by rw [BitVec.ofInt_toInt])
  simp [JSNumber.int32?, fits]

theorem constant?_value (c : Constant) : (c.value : JSValue V).constant? = some c := by
  cases c with
  | bool b => rfl
  | int v => rw [Constant.value, JSValue.constant?, int32?_real, Option.map_some]

variable {a b c : Constant} {r : BitVec 32} {result : Bool}

namespace Interpreter

section

variable (m : Interpreter V)

theorem run_binary (op : BinaryOp) (a b : Constant) (stack : List (JSValue V)) :
    m.run [.const a, .const b, .binary op] stack =
      some (.number (binaryValue op a.toInt32 b.toInt32) :: stack) := by
  simp [run, step, applyBinary, constant?_value]

theorem run_compare (op : Comparison) (a b : Constant) (stack : List (JSValue V)) :
    m.run [.const a, .const b, .compare op] stack =
      some (.bool (compareValue op a b) :: stack) := by
  simp [run, step, applyCompare, constant?_value]

theorem run_unary (op : UnaryOp) (a : Constant) (stack : List (JSValue V)) :
    m.run [.const a, .unary op] stack = some (.number (unaryValue op a.toInt32) :: stack) := by
  simp [run, step, applyUnary, constant?_value]

theorem run_lnot (a : Constant) (stack : List (JSValue V)) :
    m.run [.const a, .lnot] stack = some (.bool (lnotValue a) :: stack) := by
  simp [run, step, applyLnot, constant?_value]

end

end Interpreter

/-- Folding with what the loop knows of two constants: their numbers, and that one is not a boolean
where it says so -/
theorem tryCompare_known {op : Comparison} {isBool1 isBool2 : Bool}
    (folded : optConstFoldTryCompare op a.toInt32 b.toInt32 isBool1 isBool2 = some result)
    (known1 : isBool1 = false → a.isBool = false) (known2 : isBool2 = false → b.isBool = false) :
    compareValue op a b = result := by
  obtain ⟨loose, same⟩ := Option.ite_none_left_eq_some.mp folded
  refine tryCompare_sound (Option.ite_none_left_eq_some.mpr ⟨fun ⟨strict, flagged⟩ => ?_, same⟩)
  have other (isBool : isBool1 = true ∨ isBool2 = true) : False := loose ⟨strict, isBool⟩
  rcases flagged with flagged | flagged
  · cases isBool1
    · exact absurd (known1 rfl) (by simp [flagged])
    · exact other (.inl rfl)
  · cases isBool2
    · exact absurd (known2 rfl) (by simp [flagged])
    · exact other (.inr rfl)

theorem same_binary {op : BinaryOp} (folded : optConstFoldTryBinary op a.toInt32 b.toInt32 = some r) :
    Same [.const (.int r)] [.const a, .const b, .binary op] := by
  intro V m stack
  rw [m.run_binary, tryBinary_sound folded]
  rfl

theorem same_compare {op : Comparison} (value : compareValue op a b = result) :
    Same [.const (.bool result)] [.const a, .const b, .compare op] := by
  intro V m stack
  rw [m.run_compare, value]
  rfl

theorem same_unary {op : UnaryOp} (folded : optConstFoldTryUnary op a.toInt32 = some r) :
    Same [.const (.int r)] [.const a, .unary op] := by
  intro V m stack
  rw [m.run_unary, tryUnary_sound folded]
  rfl

theorem same_lnot (a : Constant) : Same [.const (.bool (lnotValue a))] [.const a, .lnot] := by
  intro V m stack
  rw [m.run_lnot]
  rfl

theorem same_lnots (b : Bool) (n : Nat) :
    Same [.const (.bool (lnots b n))] (.const (.bool b) :: List.replicate n .lnot) := by
  induction n generalizing b with
  | zero => exact .refl _
  | succ n ih =>
      have first : Same [.const (.bool !b)] [.const (.bool b), .lnot] := by
        have once := same_lnot (.bool b)
        cases b <;> exact once
      exact (ih (!b)).trans (first.append (.refl (List.replicate n .lnot)))

/-! What the loop knows of the code it has emitted -/

theorem length_bytes_pos (c : Constant) : 0 < c.bytes.length := by
  cases c with
  | bool b => exact Nat.zero_lt_one
  | int v =>
      rw [Constant.bytes, pushShortInt]
      split
      · exact Nat.zero_lt_one
      · split
        · exact Nat.zero_lt_succ _
        · split <;> exact Nat.zero_lt_succ _

theorem byteAt_after (front bytes : List UInt8) (k : Nat) :
    byteAt (front ++ bytes) (front.length + k) = byteAt bytes k := by
  rw [byteAt_append_right (Nat.le_add_right _ _), Nat.add_sub_cancel_left]

theorem constPush_behind (front bytes : List UInt8) (start size : Nat) :
    constPush (front ++ bytes) (front.length + start) size = constPush bytes start size := by
  unfold constPush getU32 getU16
  simp only [Nat.add_assoc, byteAt_after]

theorem constPush_after (front bytes : List UInt8) (size : Nat) :
    constPush (front ++ bytes) front.length size = constPush bytes 0 size :=
  constPush_behind front bytes 0 size

theorem byteAt_ofNat (n : Nat) (bytes : List UInt8) :
    byteAt (UInt8.ofNat n :: bytes) 0 = n % 256 := by
  rw [byteAt_cons_zero, UInt8.toNat_ofNat']

/-- The scan reads the constant that was pushed. -/
theorem constPush_int (v : BitVec 32) :
    constPush (pushShortInt v) 0 (pushShortInt v).length = some (v, false) := by
  have range := toInt_range v
  have value (x : Int) (same : x = v.toInt) : BitVec.ofInt 32 x = v := by
    rw [same, BitVec.ofInt_toInt]
  have small := v.isLt
  rw [pushShortInt]
  split
  next short =>
    have op : byteAt [UInt8.ofNat (opPush0 + v.toInt).toNat] 0 = (opPush0 + v.toInt).toNat := by
      rw [byteAt_ofNat]
      unfold opPush0
      omega
    rw [constPush, op]
    unfold opPush0 opPushMinus1 opPush7
    rw [if_pos (by omega), value _ (by omega)]
  next =>
    split
    next i8 =>
      have op : byteAt [UInt8.ofNat opPushI8, UInt8.ofNat v.toNat] 0 = opPushI8 := rfl
      have operand : byteAt [UInt8.ofNat opPushI8, UInt8.ofNat v.toNat] (0 + 1) = v.toNat % 2 ^ 8 := by
        rw [byteAt_cons_succ]
        exact byteAt_ofNat v.toNat []
      rw [constPush, op, operand, if_neg (by decide), if_pos ⟨rfl, Nat.le_refl 2⟩, value]
      rw [i8, toInt8, toInt8, Nat.mod_mod]
    next =>
      split
      next i16 =>
        have op : byteAt (UInt8.ofNat opPushI16 :: u16Bytes v.toNat) 0 = opPushI16 := rfl
        have operand : getU16 (UInt8.ofNat opPushI16 :: u16Bytes v.toNat) (0 + 1) =
            v.toNat % 2 ^ 16 := by
          simp only [getU16, u16Bytes, byteAt_cons_succ, byteAt_cons_zero, UInt8.toNat_ofNat']
          omega
        rw [constPush, op, operand, if_neg (by decide), if_neg fun wrong => absurd wrong.1 (by decide),
          if_pos ⟨rfl, Nat.le_refl 3⟩, value]
        rw [i16, toInt16, toInt16, Nat.mod_mod]
      next =>
        have op : byteAt (UInt8.ofNat opPushI32 :: u32Bytes v.toNat) 0 = opPushI32 := rfl
        have operand : getU32 (UInt8.ofNat opPushI32 :: u32Bytes v.toNat) (0 + 1) = v.toNat := by
          simp only [getU32, getU16, u32Bytes, u16Bytes, List.cons_append, List.nil_append,
            byteAt_cons_succ, byteAt_cons_zero, UInt8.toNat_ofNat']
          omega
        rw [constPush, op, operand, if_neg (by decide), if_neg fun wrong => absurd wrong.1 (by decide),
          if_neg fun wrong => absurd wrong.1 (by decide),
          if_pos ⟨rfl, Nat.le_refl 5⟩, BitVec.ofNat_toNat, BitVec.setWidth_eq]

theorem constPush_bytes (front : List UInt8) (c : Constant) :
    constPush (front ++ c.bytes) front.length c.bytes.length = some (c.toInt32, c.isBool) := by
  rw [constPush_after]
  cases c with
  | int v => exact constPush_int v
  | bool b => cases b <;> rfl

theorem constPush_none {buf : List UInt8} {start : Nat} (size : Nat)
    (plain : isConstPush (byteAt buf start) = false) : constPush buf start size = none := by
  have other : ¬ (byteAt buf start = opPushI32 ∨ byteAt buf start = opPushTrue ∨
      byteAt buf start = opPushFalse ∨
      opPushMinus1 ≤ byteAt buf start ∧ byteAt buf start ≤ opPushI16) := of_decide_eq_false plain
  rw [constPush]
  unfold opPushI32 opPushTrue opPushFalse opPushMinus1 opPushI16 at *
  unfold opPush7 opPushI8
  rw [if_neg (by omega), if_neg (by omega), if_neg (by omega), if_neg (by omega), if_neg (by omega),
    if_neg (by omega)]

theorem constPush_plain (front : List UInt8) (code : Code) (size : Nat) :
    constPush (front ++ code.bytes) front.length size = none := by
  rw [constPush_after]
  exact constPush_none size code.plain

/-- What the tracker says of a constant: its number, and that it is not a boolean -/
def Knows (c : Constant) (val : BitVec 32) (isBool : Bool) : Prop :=
  val = c.toInt32 ∧ (isBool = false → c.isBool = false)

/-- The bytes are those of the items, and the tracker knows the constants that are pushed last. -/
structure Tracks (s : Emitter) (out : List Item) : Prop where
  bytes : s.bcOut = out.flatMap Item.bytes
  last : ∀ p2, s.pos2 = some p2 → ∃ front c, out = front ++ [.const c] ∧
    (front.flatMap Item.bytes).length = p2 ∧ Knows c s.val2 s.isBool2
  both : ∀ p1, s.pos1 = some p1 → ∃ front a b, out = front ++ [.const a, .const b] ∧
    (front.flatMap Item.bytes).length = p1 ∧ Knows a s.val1 s.isBool1 ∧ Knows b s.val2 s.isBool2

/-- The code that is emitted so far, for the items that are consumed -/
def Simulates (s : Emitter) (items : List Item) : Prop := ∃ out, Tracks s out ∧ Same out items

section Tracks

variable {s : Emitter} {out front : List Item} {items : List Item}

/-- An iteration that pushes a constant -/
theorem Tracks.append_const (tracks : Tracks s out) (c : Constant) :
    Tracks (append s c.bytes) (out ++ [.const c]) := by
  have some_ := length_bytes_pos c
  have length : (s.bcOut ++ c.bytes).length - s.bcOut.length = c.bytes.length := by
    rw [List.length_append, Nat.add_sub_cancel_left]
  have bytes : s.bcOut ++ c.bytes = (out ++ [Item.const c]).flatMap Item.bytes := by
    rw [tracks.bytes, List.flatMap_append]
    simp [Item.bytes]
  rw [append, updateTracker, if_neg (by rw [List.length_append]; omega)]
  dsimp only
  rw [length, constPush_bytes]
  refine ⟨bytes, fun p2 same => ?_, fun p1 same => ?_⟩
  · exact ⟨out, c, rfl, by rw [← tracks.bytes]; exact Option.some.inj same, rfl, id⟩
  · have ⟨front, a, split_, at_, knows⟩ := tracks.last p1 same
    exact ⟨front, a, c, by rw [split_, List.append_assoc]; rfl, at_, knows, rfl, id⟩

/-- An iteration that emits something else -/
theorem Tracks.append_plain (tracks : Tracks s out) (code : Code) {item : Item}
    (same : item.bytes = code.bytes) : Tracks (append s code.bytes) (out ++ [item]) := by
  have bytes : s.bcOut ++ code.bytes = (out ++ [item]).flatMap Item.bytes := by
    rw [tracks.bytes, List.flatMap_append]
    simp [same]
  rw [append, updateTracker, if_neg (by simp [Code.bytes])]
  dsimp only
  rw [constPush_plain]
  exact ⟨bytes, nofun, nofun⟩

end Tracks

def opCode (op : Nat) (plain : isConstPush (UInt8.ofNat op).toNat = false) : Code :=
  ⟨UInt8.ofNat op, [], plain⟩

theorem plain_binary (op : BinaryOp) : isConstPush (UInt8.ofNat op.code).toNat = false := by
  cases op <;> decide

theorem plain_compare (op : Comparison) : isConstPush (UInt8.ofNat op.code).toNat = false := by
  cases op <;> decide

theorem plain_unary (op : UnaryOp) : isConstPush (UInt8.ofNat op.code).toNat = false := by
  cases op <;> decide

/-- The bytes behind position `start`, where the tracker is going to look, are not read as a constant. -/
def Quiet (buf : List UInt8) (start : Nat) : Prop :=
  start < buf.length → constPush buf start (buf.length - start) = none

instance (buf : List UInt8) (start : Nat) : Decidable (Quiet buf start) :=
  inferInstanceAs (Decidable (start < buf.length → _))

/-- The tracker after a fold -/
theorem updateTracker_quiet {s : Emitter} {start : Nat} (quiet : Quiet s.bcOut start) :
    updateTracker s start = s ∨ updateTracker s start = { s with pos1 := none, pos2 := none } := by
  rw [updateTracker]
  split
  · exact .inl rfl
  · rw [quiet (by omega)]
    exact .inr rfl

theorem quiet_behind (front bytes : List UInt8) (start : Nat) :
    Quiet (front ++ bytes) (front.length + start) ↔ Quiet bytes start := by
  rw [Quiet, Quiet, constPush_behind, List.length_append]
  constructor
  · intro quiet inside
    have := quiet (by omega)
    rwa [Nat.add_sub_add_left] at this
  · intro quiet inside
    rw [Nat.add_sub_add_left]
    exact quiet (by omega)

section Lengths

variable {v : BitVec 32}

theorem int8_iff : v.toInt = toInt8 v.toNat ↔ -128 ≤ v.toInt ∧ v.toInt ≤ 127 := by
  have value := BitVec.toInt_eq_toNat_cond v
  have small := v.isLt
  unfold toInt8
  split at value <;> split <;> omega

theorem int16_iff : v.toInt = toInt16 v.toNat ↔ -32768 ≤ v.toInt ∧ v.toInt ≤ 32767 := by
  have value := BitVec.toInt_eq_toNat_cond v
  have small := v.isLt
  unfold toInt16
  split at value <;> split <;> omega

theorem pushShortInt_eq (v : BitVec 32) : pushShortInt v =
    if -1 ≤ v.toInt ∧ v.toInt ≤ 7 then [UInt8.ofNat (opPush0 + v.toInt).toNat]
    else if -128 ≤ v.toInt ∧ v.toInt ≤ 127 then [UInt8.ofNat opPushI8, UInt8.ofNat v.toNat]
    else if -32768 ≤ v.toInt ∧ v.toInt ≤ 32767 then UInt8.ofNat opPushI16 :: u16Bytes v.toNat
    else UInt8.ofNat opPushI32 :: u32Bytes v.toNat := by
  simp only [pushShortInt, int8_iff, int16_iff]

/-- How many bytes a constant takes, by its number -/
theorem length_bytes (c : Constant) :
    c.toInt32.toInt < -1 ∨ 7 < c.toInt32.toInt → 2 ≤ c.bytes.length ∧
      (c.toInt32.toInt < -128 ∨ 127 < c.toInt32.toInt → 3 ≤ c.bytes.length ∧ c.bytes.length ≠ 4 ∧
        (c.toInt32.toInt < -32768 ∨ 32767 < c.toInt32.toInt → c.bytes.length = 5)) := by
  cases c with
  | bool b => cases b <;> simp [Constant.toInt32]
  | int v =>
      simp only [Constant.bytes, Constant.toInt32, pushShortInt_eq]
      intro far
      rw [if_neg (by omega)]
      split
      · exact ⟨Nat.le_refl 2, fun far => by omega⟩
      · split
        · exact ⟨by simp, fun _ => ⟨by simp, by simp, fun far => by omega⟩⟩
        · exact ⟨by simp, fun _ => ⟨by simp, by simp, fun _ => rfl⟩⟩

theorem tryUnary_toInt {op : UnaryOp} (folded : optConstFoldTryUnary op v = some r) :
    r.toInt = -v.toInt ∨ r.toInt = -v.toInt - 1 := by
  cases op with
  | neg =>
      have sound := tryUnary_sound folded
      rw [unaryValue] at sound
      split at sound
      · cases sound
      · have same := JSNumber.real.inj sound
        exact .inl (by exact_mod_cast same.symm)
  | not =>
      have small := v.isLt
      have toNat : r.toNat = 2 ^ 32 - 1 - v.toNat := by
        rw [← Option.some.inj folded, BitVec.toNat_not]
      have result := BitVec.toInt_eq_toNat_cond r
      have operand := BitVec.toInt_eq_toNat_cond v
      right
      split at result <;> split at operand <;> omega
  | inc => cases folded
  | dec => cases folded

/-- The number that a unary operator yields is hardly longer than the operand. What it has behind it is
not read as a constant. -/
theorem quiet_unary {op : UnaryOp} (folded : optConstFoldTryUnary op c.toInt32 = some r) :
    Quiet (pushShortInt r) c.bytes.length := by
  have value := tryUnary_toInt folded
  have lengths := length_bytes c
  have some_ := length_bytes_pos c
  have small := r.isLt
  have toNat := BitVec.toInt_eq_toNat_cond r
  intro inside
  apply constPush_none
  rw [pushShortInt_eq] at inside ⊢
  split at inside
  next =>
    change c.bytes.length < 1 at inside
    omega
  next far =>
    rw [if_neg far]
    split at inside
    next i8 =>
      change c.bytes.length < 2 at inside
      have one : c.bytes.length = 1 := by omega
      rw [if_pos i8, one, byteAt_cons_succ, byteAt_ofNat]
      refine decide_eq_false ?_
      unfold opPushI32 opPushTrue opPushFalse opPushMinus1 opPushI16
      split at toNat <;> omega
    next far8 =>
      rw [if_neg far8]
      split at inside
      next i16 =>
        change c.bytes.length < 3 at inside
        have two : c.bytes.length = 2 := by omega
        have most : r.toNat = 128 := by split at toNat <;> omega
        rw [if_pos i16, two, most]
        decide
      next far16 =>
        change c.bytes.length < 5 at inside
        have three : c.bytes.length = 3 := by omega
        have most : r.toNat = 32768 := by split at toNat <;> omega
        rw [if_neg far16, three, most]
        decide

end Lengths

/-- The number `r`, written over the operands at `pos1`, has nothing behind them that is read as a
constant. -/
def QuietAt (s : Emitter) : Option Nat → Option (BitVec 32) → Prop
  | some pos1, some r => Quiet (s.bcOut.take pos1 ++ pushShortInt r) s.bcOut.length
  | _, _ => True

instance decidableQuietAt (s : Emitter) : ∀ pos1 r, Decidable (QuietAt s pos1 r)
  | some pos1, some r =>
      inferInstanceAs (Decidable (Quiet (s.bcOut.take pos1 ++ pushShortInt r) s.bcOut.length))
  | none, _ | some _, none => isTrue trivial

/-- Where an iteration folds a binary operator, this holds of the number that the operator yields. -/
def Clear (s : Emitter) : Instr → Prop
  | .binary op => QuietAt s s.pos1 (binaryValue op s.val1 s.val2).int32?
  | _ => True

instance decidableClear (s : Emitter) : ∀ instr, Decidable (Clear s instr)
  | .binary op => decidableQuietAt s s.pos1 (binaryValue op s.val1 s.val2).int32?
  | .pushI32 _ | .pushBool _ | .i32Neg _ | .i32Not _ | .i32Lnot _ | .boolLnots _ _ | .compare _
  | .unary _ | .lnot | .label _ | .nothing | .other _ => isTrue trivial

section Dispatch

variable {s : Emitter} {out front : List Item}

theorem Tracks.take (bytes : s.bcOut = out.flatMap Item.bytes) {rest : List Item}
    (split_ : out = front ++ rest) :
    s.bcOut.take (front.flatMap Item.bytes).length = front.flatMap Item.bytes := by
  rw [bytes, split_, List.flatMap_append, List.take_left]

/-- The tracker after an update that reads no constant -/
theorem Tracks.quiet {start : Nat} (tracks : Tracks s out) (quiet : Quiet s.bcOut start) :
    Tracks (updateTracker s start) out := by
  rcases updateTracker_quiet quiet with same | same
  · rwa [same]
  · rw [same]
    exact ⟨tracks.bytes, nofun, nofun⟩

theorem bytes_append (front : List Item) (c : Constant) :
    front.flatMap Item.bytes ++ c.bytes = (front ++ [Item.const c]).flatMap Item.bytes := by
  rw [List.flatMap_append]
  simp [Item.bytes]

section

variable (tracks : Tracks s out)

include tracks

theorem dispatchBinary_simulates {op : BinaryOp} (clear : Clear s (.binary op)) :
    ∃ out', Tracks (dispatchBinary s op) out' ∧ Same out' (out ++ [.binary op]) := by
  have plain : ∃ out', Tracks (ConstFold.append s [UInt8.ofNat op.code]) out' ∧
      Same out' (out ++ [.binary op]) :=
    ⟨_, tracks.append_plain (opCode op.code (plain_binary op)) rfl, .refl _⟩
  unfold dispatchBinary
  split
  next pos1 pos2 at1 at2 =>
    split
    next result folded =>
      obtain ⟨front, a, b, split_, rfl, ⟨val1, _⟩, val2, _⟩ := tracks.both pos1 at1
      rw [val1, val2] at folded
      have take := Tracks.take tracks.bytes split_
      have quiet : QuietAt s s.pos1 (binaryValue op s.val1 s.val2).int32? := clear
      rw [at1, val1, val2, tryBinary_sound folded, int32?_real, QuietAt] at quiet
      rw [take] at quiet ⊢
      refine ⟨front ++ [Item.const (.int result)],
        Tracks.quiet ⟨bytes_append front (.int result), fun p2 same => ?_, nofun⟩ quiet, ?_⟩
      · exact ⟨front, .int result, rfl, Option.some.inj same, rfl, fun _ => rfl⟩
      · rw [split_, List.append_assoc]
        exact (Same.refl front).append (same_binary folded)
    next => exact plain
  next => exact plain

theorem dispatchCompare_simulates (op : Comparison) :
    ∃ out', Tracks (dispatchCompare s op) out' ∧ Same out' (out ++ [.compare op]) := by
  have plain : ∃ out', Tracks (ConstFold.append s [UInt8.ofNat op.code]) out' ∧
      Same out' (out ++ [.compare op]) :=
    ⟨_, tracks.append_plain (opCode op.code (plain_compare op)) rfl, .refl _⟩
  unfold dispatchCompare
  split
  next pos1 pos2 at1 at2 =>
    split
    next result folded =>
      obtain ⟨front, a, b, split_, rfl, ⟨val1, known1⟩, val2, known2⟩ := tracks.both pos1 at1
      rw [val1, val2] at folded
      have take := Tracks.take tracks.bytes split_
      have shorter : (front.flatMap Item.bytes ++ pushBool result).length ≤ s.bcOut.length := by
        have someA := length_bytes_pos a
        rw [tracks.bytes, split_, List.flatMap_append, List.length_append, List.length_append]
        simp [Item.bytes, pushBool]
        omega
      rw [take, updateTracker, if_pos shorter]
      refine ⟨front ++ [Item.const (.bool result)], ⟨bytes_append front (.bool result), nofun, nofun⟩, ?_⟩
      rw [split_, List.append_assoc]
      exact (Same.refl front).append (same_compare (tryCompare_known folded known1 known2))
    next => exact plain
  next => exact plain

theorem dispatchUnary_simulates (op : UnaryOp) :
    ∃ out', Tracks (dispatchUnary s op) out' ∧ Same out' (out ++ [.unary op]) := by
  have plain : ∃ out', Tracks (ConstFold.append s [UInt8.ofNat op.code]) out' ∧
      Same out' (out ++ [.unary op]) :=
    ⟨_, tracks.append_plain (opCode op.code (plain_unary op)) rfl, .refl _⟩
  unfold dispatchUnary
  split
  next pos2 at2 =>
    split
    next result folded =>
      obtain ⟨front, c, split_, rfl, val2, _⟩ := tracks.last pos2 at2
      rw [val2] at folded
      have take := Tracks.take tracks.bytes split_
      have length : s.bcOut.length = (front.flatMap Item.bytes).length + c.bytes.length := by
        rw [tracks.bytes, split_, ← bytes_append, List.length_append]
      have quiet : Quiet (front.flatMap Item.bytes ++ pushShortInt result) s.bcOut.length := by
        rw [length, quiet_behind]
        exact quiet_unary folded
      rw [take]
      refine ⟨front ++ [Item.const (.int result)], Tracks.quiet ⟨bytes_append front (.int result),
        fun p2 same => ?_, fun p1 same => ?_⟩ quiet, ?_⟩
      · have place := Option.some.inj (at2.symm.trans same)
        exact ⟨front, .int result, rfl, place, rfl, fun _ => rfl⟩
      · obtain ⟨front', a, b, split', at_, knows, _⟩ := tracks.both p1 same
        have halves : front = front' ++ [Item.const a] := by
          have whole := split_.symm.trans split'
          rw [List.append_cons front' (Item.const a) [Item.const b]] at whole
          exact (List.append_inj' whole rfl).1
        exact ⟨front', a, .int result, by rw [halves, List.append_assoc]; rfl, at_, knows, rfl,
          fun _ => rfl⟩
      · rw [split_, List.append_assoc]
        exact (Same.refl front).append (same_unary folded)
    next => exact plain
  next => exact plain

theorem dispatchLnot_simulates :
    ∃ out', Tracks (dispatchLnot s) out' ∧ Same out' (out ++ [.lnot]) := by
  unfold dispatchLnot
  split
  next pos2 at2 =>
    obtain ⟨front, c, split_, rfl, val2, _⟩ := tracks.last pos2 at2
    rw [Tracks.take tracks.bytes split_, val2]
    refine ⟨front ++ [Item.const (.bool (lnotValue c))], ⟨bytes_append front (.bool (lnotValue c)),
      nofun, nofun⟩, ?_⟩
    rw [split_, List.append_assoc]
    exact (Same.refl front).append (same_lnot c)
  next => exact ⟨_, tracks.append_plain (opCode opLnot (by decide)) rfl, .refl _⟩

end

/-- What each iteration keeps -/
theorem dispatch_simulates {items : List Item} {instr : Instr} (simulates : Simulates s items)
    (clear : Clear s instr) : Simulates (dispatch s instr) (items ++ instr.items) := by
  obtain ⟨out, tracks, same⟩ := simulates
  have settle {s' : Emitter} {more : List Item}
      (step : ∃ out', Tracks s' out' ∧ Same out' (out ++ more)) : Simulates s' (items ++ more) := by
    obtain ⟨out', tracks', same'⟩ := step
    exact ⟨out', tracks', same'.trans (same.append (.refl more))⟩
  have push (c : Constant) {more : List Item} (value : Same [.const c] more) :
      Simulates (ConstFold.append s c.bytes) (items ++ more) :=
    ⟨out ++ [.const c], tracks.append_const c, same.append value⟩
  cases instr with
  | pushI32 v => exact push (.int v) (.refl _)
  | pushBool b => exact push (.bool b) (.refl _)
  | i32Neg v =>
      rw [dispatch]
      split
      next usual =>
        refine push (.int (-v)) (same_unary (a := .int v) ?_)
        exact if_neg (not_or.mpr usual)
      next =>
        have first := tracks.append_const (.int v)
        have second := dispatchUnary_simulates first .neg
        rw [List.append_assoc] at second
        exact settle second
  | i32Not v => exact push (.int (~~~v)) (same_unary (a := .int v) rfl)
  | i32Lnot v => exact push (.bool (v = 0)) (same_lnot (.int v))
  | boolLnots b more => exact push (.bool (lnots b (more + 1))) (same_lnots b (more + 1))
  | binary op => exact settle (dispatchBinary_simulates tracks clear)
  | compare op => exact settle (dispatchCompare_simulates tracks op)
  | unary op => exact settle (dispatchUnary_simulates tracks op)
  | lnot => exact settle (dispatchLnot_simulates tracks)
  | label refCount =>
      rw [dispatch, Instr.items, List.append_nil]
      split
      · exact ⟨out, ⟨tracks.bytes, by simp, by simp⟩, same⟩
      · exact ⟨out, tracks, same⟩
  | nothing =>
      rw [dispatch, Instr.items, List.append_nil, updateTracker, if_pos (Nat.le_refl _)]
      exact ⟨out, tracks, same⟩
  | other code => exact settle ⟨_, tracks.append_plain code rfl, .refl _⟩

end Dispatch

/-! Runs -/

def consume (s : Emitter × List Item) (instr : Instr) : Option (Unit × Emitter × List Item) :=
  some ((), dispatch s.1 instr, s.2 ++ instr.items)

def Faithful (s : Emitter × List Item) : Prop := Agrees s.2 s.1.bcOut

theorem Item.bytes_ne_nil (item : Item) : item.bytes ≠ [] := by
  cases item with
  | const c => exact List.ne_nil_of_length_pos (length_bytes_pos c)
  | other code => exact List.cons_ne_nil _ _
  | _ => exact List.cons_ne_nil _ _

/-- Code that begins with `push_i32` has its operand. -/
theorem length_of_pushI32 {item : Item} (first : item.bytes.head? = some (UInt8.ofNat opPushI32)) :
    5 ≤ item.bytes.length := by
  cases item with
  | const c =>
      cases c with
      | bool b => cases b <;> exact absurd first (by decide)
      | int v =>
          rw [Item.bytes, Constant.bytes, pushShortInt_eq] at first ⊢
          split at first
          next short =>
            have op := congrArg (Option.map UInt8.toNat) first
            rw [List.head?_cons, Option.map_some, Option.map_some, UInt8.toNat_ofNat',
              UInt8.toNat_ofNat', Option.some.injEq] at op
            unfold opPush0 opPushI32 at op
            omega
          next far =>
            rw [if_neg far]
            split at first
            next => exact absurd first (by simp [opPushI8, opPushI32])
            next far8 =>
              rw [if_neg far8]
              split at first
              next => exact absurd first (by simp [opPushI16, opPushI32])
              next far16 =>
                rw [if_neg far16]
                exact Nat.le_refl 5
  | binary op => cases op <;> exact absurd first (by decide)
  | compare op => cases op <;> exact absurd first (by decide)
  | unary op => cases op <;> exact absurd first (by decide)
  | lnot => exact absurd first (by decide)
  | other code =>
      have plain := code.plain
      rw [Option.some.inj first] at plain
      exact absurd plain (by decide)

end PrimJs.ConstFold
