import PrimJs.Regexp.CharClass
import PrimJs.Regexp.Captures
import PrimJs.Regexp.Quantifier

/-! The compiler of regular expressions: a recursive descent that emits code as it parses. -/

namespace PrimJs.Regexp

/-- The part of `REParseState` that the parse changes, without the bytecode. -/
structure REParseState where
  buf_ptr : Bytes
  capture_count : Nat
  /-- `none` while not computed -/
  total_capture_count : Option Nat
  /-- `none` while not known -/
  has_named_captures : Option Bool
  group_names : List Bytes
  deriving DecidableEq, Repr

abbrev Emitted := Except ReError (List REOp × REParseState)

def reParseError {α : Type} (msg : String) : Except ReError α := .error (.error msg)

def reParseExpect (s : REParseState) (c : Char) (msg : String) : Except ReError REParseState :=
  if peek s.buf_ptr ≠ c then reParseError msg else .ok { s with buf_ptr := s.buf_ptr.tail }

def reCountCaptures (ctx : REContext) (s : REParseState) : Nat × REParseState :=
  match s.total_capture_count with
  | some count => (count, s)
  | none =>
      let (count, has_named) := reParseCaptures ctx.unicode ctx.is_utf16 ctx.buf_start
      (count, { s with total_capture_count := some count, has_named_captures := some has_named })

def reHasNamedCaptures (ctx : REContext) (s : REParseState) : Bool × REParseState :=
  match s.has_named_captures with
  | some has_named => (has_named, s)
  | none =>
      let s := (reCountCaptures ctx s).2
      (s.has_named_captures.getD false, s)

/-! ### Atoms -/

def emitCharTest (is_backward_dir : Bool) (op : REOp) : List REOp :=
  if is_backward_dir then [.prev, op, .prev] else [op]

/-- The label `normal_char` of `re_parse_term` for a character. -/
def emitChar (ctx : REContext) (c : Nat) : REOp :=
  let c := if ctx.ignore_case then lreCanonicalize ctx.unicode c ctx.is_utf16 else c
  if c ≤ 0xffff then .char c else .char32 c

/-- The label `parse_class_atom` of `re_parse_term`. -/
def parseClassAtomTerm (ctx : REContext) (is_backward_dir : Bool) (s : REParseState) : Emitted := do
  let (atom, p) ← getClassAtom ctx s.buf_ptr false
  match atom with
  | .range cr =>
      let op ← reEmitRange cr
      .ok (emitCharTest is_backward_dir op, { s with buf_ptr := p })
  | .char c => .ok (emitCharTest is_backward_dir (emitChar ctx c), { s with buf_ptr := p })

/-- `\0` in `re_parse_term`; `p` is after the zero. -/
def parseZeroEscape (ctx : REContext) (p : Bytes) : Except ReError (Nat × Bytes) :=
  if ctx.is_utf16 then
    if isDigit (peek p) then reParseError "invalid decimal escape in regular expression"
    else .ok (0, p)
  else if isOctal (peek p) then
    -- Annex B.1.4: accept legacy octal
    let c := digitVal (peek p)
    let p := p.tail
    if isOctal (peek p) then .ok (c * 8 + digitVal (peek p), p.tail) else .ok (c, p)
  else .ok (0, p)

/-- A decimal escape that is not a back reference; `p` is at the digit. -/
def parseLegacyOctal (p : Bytes) : Nat × Bytes :=
  if peek p ≤ '7' then
    let (c, p) := if peek p ≤ '3' then (digitVal (peek p), p.tail) else (0, p)
    if isOctal (peek p) then
      let c := c * 8 + digitVal (peek p)
      let p := p.tail
      if isOctal (peek p) then (c * 8 + digitVal (peek p), p.tail) else (c, p)
    else (c, p)
  else ((peek p).toNat, p.tail)

/-- The label `emit_back_reference`; the index is stored in one byte. -/
def emitBackReference (is_backward_dir : Bool) (c : Nat) : List REOp :=
  [if is_backward_dir then .backward_back_reference (c % 256) else .back_reference (c % 256)]

/-- `\1` to `\9` in `re_parse_term`; `p` is at the digit. -/
def parseDecimalEscape (ctx : REContext) (is_backward_dir : Bool) (s : REParseState) (q : Bytes) :
    Emitted :=
  -- the captures are only counted when the reference is ahead of those made so far
  let (reference, s) : Option (Nat × Bytes) × REParseState :=
    match parseDigits q with
    | none => (none, s)
    | some (c, p) =>
        if c ≥ s.capture_count then
          let (total, s) := reCountCaptures ctx s
          (if c ≥ total then none else some (c, p), s)
        else (some (c, p), s)
  match reference with
  | some (c, p) => .ok (emitBackReference is_backward_dir c, { s with buf_ptr := p })
  | none =>
      if ctx.is_utf16 then reParseError "back reference out of range in reguar expression"
      else
        let (c, p) := parseLegacyOctal q
        .ok (emitCharTest is_backward_dir (emitChar ctx c), { s with buf_ptr := p })

/-- A `\k` that does not name a group: an error, or a plain atom by Annex B. -/
def parseBadNameReference (ctx : REContext) (is_backward_dir : Bool) (s : REParseState)
    (msg : String) : Emitted :=
  if ctx.is_utf16 then reParseError msg
  else
    let (has_named, s) := reHasNamedCaptures ctx s
    if has_named then reParseError msg else parseClassAtomTerm ctx is_backward_dir s

/-- `\k` in `re_parse_term`; the state is at the backslash. -/
def parseNamedReference (ctx : REContext) (is_backward_dir : Bool) (s : REParseState) : Emitted :=
  if peekAt s.buf_ptr 2 ≠ '<' then
    parseBadNameReference ctx is_backward_dir s "expecting group name"
  else
    match reParseGroupName ctx.unicode ctx.is_utf16 (s.buf_ptr.drop 3) with
    | none => parseBadNameReference ctx is_backward_dir s "invalid group name"
    | some (name, p1) =>
        match findGroupName s.group_names name with
        | some c => .ok (emitBackReference is_backward_dir c, { s with buf_ptr := p1 })
        | none =>
            -- no capture name parsed before, try to look after
            match reParseCapturesNamed ctx.unicode ctx.is_utf16 ctx.buf_start name with
            | some c => .ok (emitBackReference is_backward_dir c, { s with buf_ptr := p1 })
            | none => parseBadNameReference ctx is_backward_dir s "group name not defined"

def parseBraceTerm (ctx : REContext) (is_backward_dir : Bool) (s : REParseState) : Emitted :=
  let p := s.buf_ptr.tail
  if ctx.is_utf16 then reParseError "syntax error"
  else if !isDigit (peek p) then parseClassAtomTerm ctx is_backward_dir s
  else
    -- Annex B: error if it is like a repetition count
    let p1 := (parseDigitsClamped p).2
    let p1 := if peek p1 = ',' then
        if isDigit (peek p1.tail) then (parseDigitsClamped p1.tail).2 else p1.tail
      else p1
    if peek p1 ≠ '}' then parseClassAtomTerm ctx is_backward_dir s
    else reParseError "nothing to repeat"

/-! ### Quantifiers -/

/-- What follows an atom: the bounds and the position after them, `none` for no quantifier. -/
def parseQuantifierBounds (ctx : REContext) (p : Bytes) :
    Except ReError (Option (Nat × Nat) × Bytes) :=
  match p with
  | '*' :: p => .ok (some (0, INT32_MAX), p)
  | '+' :: p => .ok (some (1, INT32_MAX), p)
  | '?' :: p => .ok (some (0, 1), p)
  | '\x7b' :: p1 =>
      if !isDigit (peek p1) then
        -- as an extension, a brace not followed by digits is a normal atom
        if ctx.is_utf16 then reParseError "invalid repetition count" else .ok (none, p)
      else
        let (quant_min, p2) := parseDigitsClamped p1
        let (quant_max, p3) :=
          if peek p2 = ',' then
            if isDigit (peek p2.tail) then parseDigitsClamped p2.tail else (INT32_MAX, p2.tail)
          else (quant_min, p2)
        if quant_max < quant_min then reParseError "invalid repetition count"
        else if peek p3 = '}' then .ok (some (quant_min, quant_max), p3.tail)
        -- Annex B: normal atom if invalid syntax
        else if !ctx.is_utf16 then .ok (none, p)
        else reParseError "expecting '\x7d'"
  | p => .ok (none, p)

/-- The part of `re_parse_term` after an atom that may be quantified. -/
def parseQuantifier (ctx : REContext) (atom : List REOp) (last_capture_count : Nat)
    (s : REParseState) : Emitted := do
  let (bounds, p) ← parseQuantifierBounds ctx s.buf_ptr
  match bounds with
  | none => .ok (atom, { s with buf_ptr := p })
  | some (quant_min, quant_max) =>
      let greedy := peek p ≠ '?'
      .ok (emitQuantifier atom quant_min quant_max greedy last_capture_count s.capture_count,
        { s with buf_ptr := if greedy then p else p.tail })

/-! ### The recursive descent -/

mutual

def reParseDisjunction (ctx : REContext) :
    (fuel : Nat) → (is_backward_dir : Bool) → REParseState → Emitted
  | 0, _, _ => .error .outOfFuel
  | fuel + 1, is_backward_dir, s => do
      let (code, s) ← reParseAlternative ctx fuel is_backward_dir [] s
      reParseAlternatives ctx fuel is_backward_dir code s

/-- The loop of `re_parse_disjunction`, after the alternatives compiled to `code`. -/
def reParseAlternatives (ctx : REContext) :
    (fuel : Nat) → (is_backward_dir : Bool) → List REOp → REParseState → Emitted
  | 0, _, _, _ => .error .outOfFuel
  | fuel + 1, is_backward_dir, code, s =>
      if peek s.buf_ptr ≠ '|' then .ok (code, s)
      else do
        let (code', s) ←
          reParseAlternative ctx fuel is_backward_dir [] { s with buf_ptr := s.buf_ptr.tail }
        reParseAlternatives ctx fuel is_backward_dir
          (.split_next_first (codeSize code + 5) :: code ++ .goto (codeSize code') :: code') s

/-- `re_parse_alternative`, after the terms compiled to `code`. -/
def reParseAlternative (ctx : REContext) :
    (fuel : Nat) → (is_backward_dir : Bool) → List REOp → REParseState → Emitted
  | 0, _, _, _ => .error .outOfFuel
  | fuel + 1, is_backward_dir, code, s =>
      if s.buf_ptr = [] || peek s.buf_ptr = '|' || peek s.buf_ptr = ')' then .ok (code, s)
      else do
        let (term, s) ← reParseTerm ctx fuel is_backward_dir s
        -- in a look-behind the terms are in reverse order
        reParseAlternative ctx fuel is_backward_dir
          (if is_backward_dir then term ++ code else code ++ term) s

def reParseTerm (ctx : REContext) :
    (fuel : Nat) → (is_backward_dir : Bool) → REParseState → Emitted
  | 0, _, _ => .error .outOfFuel
  | fuel + 1, is_backward_dir, s => do
      let p := s.buf_ptr
      let quantified : Emitted → Emitted := fun emitted => do
        let (atom, s') ← emitted
        parseQuantifier ctx atom s.capture_count s'
      match p with
      | '^' :: p => .ok ([.line_start], { s with buf_ptr := p })
      | '$' :: p => .ok ([.line_end], { s with buf_ptr := p })
      | '.' :: p =>
          quantified (.ok (emitCharTest is_backward_dir (if ctx.dotall then .any else .dot),
            { s with buf_ptr := p }))
      | '\x7b' :: _ => quantified (parseBraceTerm ctx is_backward_dir s)
      | '*' :: _ | '+' :: _ | '?' :: _ => reParseError "nothing to repeat"
      | '(' :: '?' :: ':' :: p =>
          quantified (reParseGroup ctx fuel is_backward_dir { s with buf_ptr := p })
      | '(' :: '?' :: '=' :: p => do
          let emitted := reParseLookahead ctx fuel false false { s with buf_ptr := p }
          -- Annex B allows lookahead to be used as an atom for the quantifiers
          if ctx.is_utf16 then emitted else quantified emitted
      | '(' :: '?' :: '!' :: p => do
          let emitted := reParseLookahead ctx fuel true false { s with buf_ptr := p }
          if ctx.is_utf16 then emitted else quantified emitted
      | '(' :: '?' :: '<' :: '=' :: p =>
          reParseLookahead ctx fuel false true { s with buf_ptr := p }
      | '(' :: '?' :: '<' :: '!' :: p =>
          reParseLookahead ctx fuel true true { s with buf_ptr := p }
      | '(' :: '?' :: '<' :: p =>
          match reParseGroupName ctx.unicode ctx.is_utf16 p with
          | none => reParseError "invalid group name"
          | some (name, p) =>
              if (findGroupName s.group_names name).isSome then reParseError "duplicate group name"
              else quantified (reParseCapture ctx fuel is_backward_dir
                { s with
                  buf_ptr := p
                  group_names := s.group_names ++ [name]
                  has_named_captures := some true })
      | '(' :: '?' :: _ => reParseError "invalid group"
      | '(' :: p =>
          quantified (reParseCapture ctx fuel is_backward_dir
            { s with buf_ptr := p, group_names := s.group_names ++ [[]] })
      | '\\' :: 'b' :: p => .ok ([.word_boundary], { s with buf_ptr := p })
      | '\\' :: 'B' :: p => .ok ([.not_word_boundary], { s with buf_ptr := p })
      | '\\' :: 'k' :: _ => quantified (parseNamedReference ctx is_backward_dir s)
      | '\\' :: '0' :: p =>
          quantified (do
            let (c, p) ← parseZeroEscape ctx p
            .ok (emitCharTest is_backward_dir (emitChar ctx c), { s with buf_ptr := p }))
      | '\\' :: p =>
          if '1' ≤ peek p && peek p ≤ '9' then
            quantified (parseDecimalEscape ctx is_backward_dir s p)
          else quantified (parseClassAtomTerm ctx is_backward_dir s)
      | '[' :: p =>
          quantified (do
            let (op, p) ← reParseCharClass ctx p
            .ok (emitCharTest is_backward_dir op, { s with buf_ptr := p }))
      | ']' :: _ | '\x7d' :: _ =>
          if ctx.is_utf16 then reParseError "syntax error"
          else quantified (parseClassAtomTerm ctx is_backward_dir s)
      | _ => quantified (parseClassAtomTerm ctx is_backward_dir s)

/-- A group without capture, in `re_parse_term`. -/
def reParseGroup (ctx : REContext) :
    (fuel : Nat) → (is_backward_dir : Bool) → REParseState → Emitted
  | 0, _, _ => .error .outOfFuel
  | fuel + 1, is_backward_dir, s => do
      let (code, s) ← reParseDisjunction ctx fuel is_backward_dir s
      let s ← reParseExpect s ')' "expecting ')'"
      .ok (code, s)

/-- The label `lookahead` of `re_parse_term`. -/
def reParseLookahead (ctx : REContext) :
    (fuel : Nat) → (is_neg is_backward_lookahead : Bool) → REParseState → Emitted
  | 0, _, _, _ => .error .outOfFuel
  | fuel + 1, is_neg, is_backward_lookahead, s => do
      let (code, s) ← reParseDisjunction ctx fuel is_backward_lookahead s
      let s ← reParseExpect s ')' "expecting ')'"
      -- jump after the match after the lookahead is successful
      let offset : Int := codeSize code + 1
      .ok ((if is_neg then .negative_lookahead offset else .lookahead offset) :: code ++ [.match], s)

/-- The label `parse_capture` of `re_parse_term`. -/
def reParseCapture (ctx : REContext) :
    (fuel : Nat) → (is_backward_dir : Bool) → REParseState → Emitted
  | 0, _, _ => .error .outOfFuel
  | fuel + 1, is_backward_dir, s =>
      if s.capture_count ≥ CAPTURE_COUNT_MAX then reParseError "too many captures"
      else do
        let capture_index := s.capture_count
        let (code, s) ← reParseDisjunction ctx fuel is_backward_dir
          { s with capture_count := capture_index + 1 }
        let s ← reParseExpect s ')' "expecting ')'"
        .ok (if is_backward_dir then .save_end capture_index :: code ++ [.save_start capture_index]
          else .save_start capture_index :: code ++ [.save_end capture_index], s)

end

/-! ### `lre_compile` -/

def STACK_SIZE_MAX : Nat := 255

/-- The loop of `compute_stack_size`: `none` when the stack would be too large. -/
def computeStackSizeLoop : List REOp → (stack_size stack_size_max : Nat) → Option Nat
  | [], _, stack_size_max => some stack_size_max
  | op :: code, stack_size, stack_size_max =>
      match op with
      | .push_i32 _ | .push_char_pos =>
          if stack_size + 1 > stack_size_max then
            if stack_size + 1 > STACK_SIZE_MAX then none
            else computeStackSizeLoop code (stack_size + 1) (stack_size + 1)
          else computeStackSizeLoop code (stack_size + 1) stack_size_max
      | .drop | .bne_char_pos _ => computeStackSizeLoop code (stack_size - 1) stack_size_max
      | _ => computeStackSizeLoop code stack_size stack_size_max

def computeStackSize (code : List REOp) : Option Nat := computeStackSizeLoop code 0 0

/-- The flags of a regular expression that the compiler reads. -/
structure REFlags where
  ignore_case : Bool
  multi_line : Bool
  dotall : Bool
  utf16 : Bool
  sticky : Bool
  deriving DecidableEq, Repr

/-- The compiled bytecode: the fields of the header, the code and the group names after it, which
are there when a group has a name. -/
structure REByteCode where
  flags : REFlags
  capture_count : Nat
  stack_size : Nat
  code : List REOp
  group_names : Option (List Bytes)
  deriving DecidableEq, Repr

/-- The `.*?` prefix that `lre_compile` emits when the sticky flag is not set. -/
def searchPrefix : List REOp := [.split_goto_first (1 + 5), .any, .goto (-(5 + 1 + 5))]

/-- The fuel of the recursive descent: four calls for each byte are enough. -/
def parseFuel (buf : Bytes) : Nat := 4 * buf.length + 4

def initialState (buf : Bytes) : REParseState where
  buf_ptr := buf
  capture_count := 1
  total_capture_count := none
  has_named_captures := none
  group_names := []

def lreCompile (u : UnicodeData) (buf : Bytes) (flags : REFlags) : Except ReError REByteCode := do
  let ctx : REContext := {
    unicode := u
    buf_start := buf
    is_utf16 := flags.utf16
    ignore_case := flags.ignore_case
    dotall := flags.dotall }
  let (body, s) ← reParseDisjunction ctx (parseFuel buf) false (initialState buf)
  if peek s.buf_ptr ≠ '\x00' then
    reParseError "extraneous characters at the end"
  else
    let code := (if flags.sticky then [] else searchPrefix) ++
      .save_start 0 :: body ++ [.save_end 0, .match]
    match computeStackSize code with
    | none => reParseError "too many imbricated quantifiers"
    | some stack_size => .ok {
        flags := flags
        capture_count := s.capture_count
        stack_size := stack_size
        code := code
        group_names := if s.group_names.any (· ≠ []) then some s.group_names else none }

end PrimJs.Regexp
