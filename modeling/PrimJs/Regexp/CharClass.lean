import PrimJs.Regexp.Escape
import PrimJs.Regexp.Opcode

/-! Class atoms, character classes and the instructions they are compiled to. -/

namespace PrimJs.Regexp

open CharRange

def LRE_FLAG_MULTILINE : Nat := 2 ^ 2

def lreCanonicalize (u : UnicodeData) (c : Nat) (is_utf16 : Bool) : Nat :=
  if is_utf16 then
    if c < 128 then
      if 'A'.toNat ≤ c && c ≤ 'Z'.toNat then c - 'A'.toNat + 'a'.toNat else c
    else (u.case_conv c 2).headD 0
  else
    if c < 128 then
      if 'a'.toNat ≤ c && c ≤ 'z'.toNat then c - 'a'.toNat + 'A'.toNat else c
    else
      -- to upper case if single char >= 128
      match u.case_conv c 0 with
      | [c'] => if c' ≥ 128 then c' else c
      | _ => c

def char_range_d : List Nat := [0x0030, 0x0039 + 1]

def char_range_w : List Nat :=
  [0x0030, 0x0039 + 1, 0x0041, 0x005A + 1, 0x005F, 0x005F + 1, 0x0061, 0x007A + 1]

inductive CharRangeEnum where
  | CHAR_RANGE_d
  | CHAR_RANGE_D
  | CHAR_RANGE_s
  | CHAR_RANGE_S
  | CHAR_RANGE_w
  | CHAR_RANGE_W

def crInitCharRange : CharRangeEnum → List Nat
  | .CHAR_RANGE_d => char_range_d
  | .CHAR_RANGE_D => crInvert char_range_d
  | .CHAR_RANGE_s => char_range_s
  | .CHAR_RANGE_S => crInvert char_range_s
  | .CHAR_RANGE_w => char_range_w
  | .CHAR_RANGE_W => crInvert char_range_w

/-- `cr_canonicalize`: the lower case ranges are kept. -/
def crCanonicalize (cr : List Nat) : List Nat :=
  let a := crOp [] cr ['a'.toNat, 'z'.toNat + 1] .CR_OP_INTER
  crUnion1 cr (a.map (· + 'A'.toNat - 'a'.toNat))

/-- The parts of the pattern and its flags that the parse does not change. -/
structure REContext where
  unicode : UnicodeData
  buf_start : Bytes
  is_utf16 : Bool
  ignore_case : Bool
  dotall : Bool

/-- A character, or `CLASS_RANGE_BASE` with the points of the range. -/
inductive ClassAtom where
  | char (c : Nat)
  | range (cr : List Nat)
  deriving DecidableEq, Repr

/-! ### Unicode properties -/

def isUnicodeChar (c : Char) : Bool :=
  ('0' ≤ c && c ≤ '9') || ('A' ≤ c && c ≤ 'Z') || ('a' ≤ c && c ≤ 'z') || c = '_'

/-- The characters of a property name or value, `none` when there are more than its buffer
takes. -/
def unicodeWord (p : Bytes) : Option (Bytes × Bytes) :=
  let word := p.takeWhile isUnicodeChar
  if word.length > 64 then none else some (word, p.dropWhile isUnicodeChar)

/-- The range named by a property, `Except.error` with the text of the error. -/
def unicodePropertyRange (u : UnicodeData) (name value : Bytes) : Except String (List Nat) :=
  if name = "Script".toList || name = "sc".toList then
    (u.unicode_script value false).elim (.error "unknown unicode script") .ok
  else if name = "Script_Extensions".toList || name = "scx".toList then
    (u.unicode_script value true).elim (.error "unknown unicode script") .ok
  else if name = "General_Category".toList || name = "gc".toList then
    (u.unicode_general_category value).elim (.error "unknown unicode general category") .ok
  else if value = [] then
    match u.unicode_general_category name with
    | some cr => .ok cr
    | none => (u.unicode_prop name).elim (.error "unknown unicode property name") .ok
  else .error "unknown unicode property name"

/-- `parse_unicode_property`; `p` is after `\p` or `\P`. -/
def parseUnicodeProperty (u : UnicodeData) (p : Bytes) (is_inv : Bool) :
    Except ReError (List Nat × Bytes) :=
  if peek p ≠ '{' then .error (.error "expecting '\x7b' after \\p")
  else
    match unicodeWord p.tail with
    | none => .error (.error "unknown unicode property name")
    | some (name, p) =>
        match (if peek p = '=' then unicodeWord p.tail else some ([], p)) with
        | none => .error (.error "unknown unicode property value")
        | some (value, p) =>
            if peek p ≠ '}' then .error (.error "expecting '\x7d'")
            else
              match unicodePropertyRange u name value with
              | .error msg => .error (.error msg)
              | .ok cr => .ok (if is_inv then crInvert cr else cr, p.tail)

/-! ### Class atoms -/

/-- The label `normal_char` of `get_class_atom`. -/
def normalChar (ctx : REContext) (p : Bytes) : Except ReError (ClassAtom × Bytes) :=
  if (peek p).toNat ≥ 128 then
    match unicodeFromUtf8 p with
    | none => if ctx.is_utf16 then .error .unset else .error (.error "malformed unicode char")
    | some (c, p) =>
        if c > 0xffff && !ctx.is_utf16 then .error (.error "malformed unicode char")
        else .ok (.char c, p)
  else .ok (.char (peek p).toNat, p.tail)

def isSyntaxChar (c : Char) : Bool :=
  c ∈ ['^', '$', '\\', '.', '*', '+', '?', '(', ')', '[', ']', '\x7b', '\x7d', '|', '/']

/-- The default case of an escape in `get_class_atom`; `p` is after the backslash. -/
def classEscape (ctx : REContext) (p : Bytes) : Except ReError (ClassAtom × Bytes) :=
  match lreParseEscape p (if ctx.is_utf16 then 2 else 0) with
  | .char c p => .ok (.char c, p)
  | .malformed =>
      if ctx.is_utf16 then .error (.error "invalid escape sequence in regular expression")
      else normalChar ctx p
  | .other =>
      if isSyntaxChar (peek p) then normalChar ctx p
      else if ctx.is_utf16 then .error (.error "invalid escape sequence in regular expression")
      else normalChar ctx p

/-- `get_class_atom`, the case of `\c`; `p` is after the `c`. -/
def controlEscape (ctx : REContext) (p : Bytes) (inclass : Bool) :
    Except ReError (ClassAtom × Bytes) :=
  let c := peek p
  if ('a' ≤ c && c ≤ 'z') || ('A' ≤ c && c ≤ 'Z') ||
      ((isDigit c || c = '_') && inclass && !ctx.is_utf16) then
    .ok (.char (c.toNat &&& 0x1f), p.tail)
  else if ctx.is_utf16 then .error (.error "invalid escape sequence in regular expression")
  else .ok (.char '\\'.toNat, 'c' :: p)

def getClassAtom (ctx : REContext) (p : Bytes) (inclass : Bool) :
    Except ReError (ClassAtom × Bytes) :=
  match p with
  | [] => .error (.error "unexpected end")
  | '\\' :: [] => .error (.error "unexpected end")
  | '\\' :: 'd' :: p => .ok (.range (crInitCharRange .CHAR_RANGE_d), p)
  | '\\' :: 'D' :: p => .ok (.range (crInitCharRange .CHAR_RANGE_D), p)
  | '\\' :: 's' :: p => .ok (.range (crInitCharRange .CHAR_RANGE_s), p)
  | '\\' :: 'S' :: p => .ok (.range (crInitCharRange .CHAR_RANGE_S), p)
  | '\\' :: 'w' :: p => .ok (.range (crInitCharRange .CHAR_RANGE_w), p)
  | '\\' :: 'W' :: p => .ok (.range (crInitCharRange .CHAR_RANGE_W), p)
  | '\\' :: 'c' :: p => controlEscape ctx p inclass
  | '\\' :: 'p' :: p =>
      if ctx.unicode.all_unicode && ctx.is_utf16 then do
        let (cr, p) ← parseUnicodeProperty ctx.unicode p false
        .ok (.range cr, p)
      else classEscape ctx ('p' :: p)
  | '\\' :: 'P' :: p =>
      if ctx.unicode.all_unicode && ctx.is_utf16 then do
        let (cr, p) ← parseUnicodeProperty ctx.unicode p true
        .ok (.range cr, p)
      else classEscape ctx ('P' :: p)
  | '\\' :: p => classEscape ctx p
  | p => normalChar ctx p

/-! ### Emission -/

/-- The pairs that follow `REOP_range`: inclusive bounds, `0xffff` standing for infinity. -/
def rangePairs16 : List Nat → List (Nat × Nat)
  | low :: high :: rest =>
      (low, if high = UINT32_MAX then 0xffff else high - 1) :: rangePairs16 rest
  | _ => []

/-- The pairs that follow `REOP_range32`. -/
def rangePairs32 : List Nat → List (Nat × Nat)
  | low :: high :: rest => (low, high - 1) :: rangePairs32 rest
  | _ => []

/-- `high` in `re_emit_range`: the last point that is not infinity. -/
def highPoint (cr : List Nat) : Nat :=
  if cr.getLastD 0 = UINT32_MAX then cr.dropLast.getLastD 0 else cr.getLastD 0

def reEmitRange (cr : List Nat) : Except ReError REOp :=
  if cr.length / 2 ≥ 65535 then .error (.error "too many ranges")
  else if cr.length / 2 = 0 then .ok (.char32 UINT32_MAX)
  else if highPoint cr ≤ 0xffff then .ok (.range (rangePairs16 cr))
  else .ok (.range32 (rangePairs32 cr))

/-! ### Classes -/

/-- The label `class_atom` of `re_parse_char_class`. -/
def crAddAtom (cr : List Nat) : ClassAtom → List Nat
  | .char c => crUnionInterval cr c c
  | .range cr1 => crUnion1 cr cr1

/-- What one turn of the loop of `re_parse_char_class` does at a class atom. -/
def parseClassItem (ctx : REContext) (cr : List Nat) (p : Bytes) :
    Except ReError (List Nat × Bytes) := do
  let (c1, p) ← getClassAtom ctx p true
  if peek p = '-' && peekAt p 1 ≠ ']' then
    match c1 with
    | .range _ =>
        if ctx.is_utf16 then .error (.error "invalid class range")
        else .ok (crAddAtom cr c1, p)
    | .char low =>
        let (c2, p0) ← getClassAtom ctx p.tail true
        match c2 with
        | .range _ =>
            if ctx.is_utf16 then .error (.error "invalid class range")
            else .ok (crAddAtom cr c1, p)
        | .char high =>
            if high < low then .error (.error "invalid class range")
            else .ok (crUnionInterval cr low high, p0)
  else .ok (crAddAtom cr c1, p)

/-- The loop of `re_parse_char_class`: the class and the position of the `]`. -/
def parseClassLoop (ctx : REContext) : Nat → List Nat → Bytes → Except ReError (List Nat × Bytes)
  | 0, _, _ => .error .outOfFuel
  | fuel + 1, cr, p =>
      if peek p = ']' then .ok (cr, p)
      else do
        let (cr, p) ← parseClassItem ctx cr p
        parseClassLoop ctx fuel cr p

/-- `re_parse_char_class`; `p` is after the `[`. -/
def reParseCharClass (ctx : REContext) (p : Bytes) : Except ReError (REOp × Bytes) := do
  let invert := peek p = '^'
  let (cr, p) ← parseClassLoop ctx (p.length + 1) [] (if invert then p.tail else p)
  let cr := if ctx.ignore_case then crCanonicalize cr else cr
  let cr := if invert then crInvert cr else cr
  let op ← reEmitRange cr
  .ok (op, p.tail)

end PrimJs.Regexp
