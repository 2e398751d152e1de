import PrimJs.Regexp.CharRange

/-! Reading the text of a pattern: UTF-8, digits, escape sequences and group names.

A parse position is the list of the bytes that remain, each byte as the character of its code;
past the end the code reads the terminating zero. -/

namespace PrimJs.Regexp

abbrev Bytes := List Char

/-- `*p` -/
def peek (p : Bytes) : Char := p.headD '\x00'

/-- `p[n]` -/
def peekAt (p : Bytes) (n : Nat) : Char := p.getD n '\x00'

def INT32_MAX : Nat := 2 ^ 31 - 1

def TMP_BUF_SIZE : Nat := 128

def UTF8_CHAR_LEN_MAX : Nat := 6

inductive ReError where
  | error (msg : String)
  /-- The parse failed without a call of `re_parse_error`. -/
  | unset
  | outOfFuel
  deriving DecidableEq, Repr

/-- What the engine takes from the Unicode tables for the characters from 128 on. -/
structure UnicodeData where
  /-- `CONFIG_ALL_UNICODE` -/
  all_unicode : Bool
  is_id_start : Nat → Bool
  is_id_continue : Nat → Bool
  /-- The characters that `lre_case_conv` stores for a character and a conversion type. -/
  case_conv : Nat → Nat → List Nat
  unicode_script : Bytes → Bool → Option (List Nat)
  unicode_general_category : Bytes → Option (List Nat)
  unicode_prop : Bytes → Option (List Nat)

def UnicodeData.ascii : UnicodeData where
  all_unicode := false
  is_id_start _ := false
  is_id_continue _ := false
  case_conv c _ := [c]
  unicode_script _ _ := none
  unicode_general_category _ := none
  unicode_prop _ := none

def isDigit (c : Char) : Bool := '0' ≤ c && c ≤ '9'

def isOctal (c : Char) : Bool := '0' ≤ c && c ≤ '7'

def digitVal (c : Char) : Nat := c.toNat - '0'.toNat

def fromHex (c : Char) : Option Nat :=
  if '0' ≤ c && c ≤ '9' then some (c.toNat - '0'.toNat)
  else if 'A' ≤ c && c ≤ 'F' then some (c.toNat - 'A'.toNat + 10)
  else if 'a' ≤ c && c ≤ 'f' then some (c.toNat - 'a'.toNat + 10)
  else none

/-! ### UTF-8 -/

/-- The continuation bytes read by `unicode_from_utf8`. -/
def utf8Continue : Nat → Nat → Bytes → Option (Nat × Bytes)
  | 0, c, p => some (c, p)
  | l + 1, c, p =>
      let b := (peek p).toNat
      if b < 0x80 || b ≥ 0xc0 then none
      else utf8Continue l (c <<< 6 ||| b &&& 0x3f) p.tail

/-- The number of continuation bytes announced by a first byte from 128 on. -/
def utf8Length (c : Nat) : Option Nat :=
  if 0xc0 ≤ c && c ≤ 0xdf then some 1
  else if 0xe0 ≤ c && c ≤ 0xef then some 2
  else if 0xf0 ≤ c && c ≤ 0xf7 then some 3
  else if 0xf8 ≤ c && c ≤ 0xfb then some 4
  else if 0xfc ≤ c && c ≤ 0xfd then some 5
  else none

def utf8MinCode : Nat → Nat
  | 1 => 0x80
  | 2 => 0x800
  | 3 => 0x10000
  | 4 => 0x00200000
  | _ => 0x04000000

def utf8FirstCodeMask : Nat → Nat
  | 1 => 0x1f
  | 2 => 0xf
  | 3 => 0x7
  | 4 => 0x3
  | _ => 0x1

/-- `unicode_from_utf8` with `UTF8_CHAR_LEN_MAX`, which is enough for every first byte. -/
def unicodeFromUtf8 (p : Bytes) : Option (Nat × Bytes) :=
  let c := (peek p).toNat
  if c < 0x80 then some (c, p.tail)
  else do
    let l ← utf8Length c
    let (v, p') ← utf8Continue l (c &&& utf8FirstCodeMask l) p.tail
    if v < utf8MinCode l then none else some (v, p')

/-- `unicode_to_utf8` for the code points of Unicode. -/
def unicodeToUtf8 (c : Nat) : Bytes :=
  if c < 0x80 then [Char.ofNat c]
  else if c < 0x800 then [Char.ofNat (c >>> 6 ||| 0xc0), Char.ofNat (c &&& 0x3f ||| 0x80)]
  else if c < 0x10000 then
    [Char.ofNat (c >>> 12 ||| 0xe0), Char.ofNat (c >>> 6 &&& 0x3f ||| 0x80),
      Char.ofNat (c &&& 0x3f ||| 0x80)]
  else
    [Char.ofNat (c >>> 18 ||| 0xf0), Char.ofNat (c >>> 12 &&& 0x3f ||| 0x80),
      Char.ofNat (c >>> 6 &&& 0x3f ||| 0x80), Char.ofNat (c &&& 0x3f ||| 0x80)]

/-! ### Digits -/

/-- The loop of `parse_digits`; without `allow_overflow` an overflow is an error. -/
def parseDigitsLoop (allow_overflow : Bool) (v : Nat) : Bytes → Option (Nat × Bytes)
  | [] => some (v, [])
  | c :: p =>
      if !isDigit c then some (v, c :: p)
      else
        let v := v * 10 + digitVal c
        if v ≥ INT32_MAX then
          if allow_overflow then parseDigitsLoop allow_overflow INT32_MAX p else none
        else parseDigitsLoop allow_overflow v p

/-- `parse_digits(&p)` -/
def parseDigits (p : Bytes) : Option (Nat × Bytes) := parseDigitsLoop false 0 p

/-- `parse_digits(&p, TRUE)`, which does not fail. -/
def parseDigitsClamped (p : Bytes) : Nat × Bytes := (parseDigitsLoop true 0 p).getD (0, p)

/-! ### Escape sequences -/

inductive Escape where
  | char (c : Nat) (p : Bytes)
  /-- `-1`: malformed -/
  | malformed
  /-- `-2`: not an escape sequence -/
  | other
  deriving DecidableEq, Repr

def hexBraces (c : Nat) : Bytes → Option (Nat × Bytes)
  | [] => none
  | h :: p => do
      let digit ← fromHex h
      let c := c * 16 + digit
      if c > 0x10FFFF then none
      else if peek p = '}' then some (c, p.tail)
      else hexBraces c p

/-- `n` hexadecimal digits. -/
def hexDigits : Nat → Nat → Bytes → Option (Nat × Bytes)
  | 0, c, p => some (c, p)
  | n + 1, c, p => do
      let digit ← fromHex (peek p)
      hexDigits n (c * 16 + digit) p.tail

def escapedLowSurrogate (p : Bytes) : Option (Nat × Bytes) :=
  if peekAt p 0 = '\\' && peekAt p 1 = 'u' then
    match hexDigits 4 0 (p.drop 2) with
    | some (c1, p') => if 0xdc00 ≤ c1 && c1 < 0xe000 then some (c1, p') else none
    | none => none
  else none

def surrogatePair (high low : Nat) : Nat := (high &&& 0x3ff) <<< 10 ||| (low &&& 0x3ff)

/-- The part of `lre_parse_escape` after `x` or `u`. -/
def parseHexEscape (c : Char) (p : Bytes) (allow_utf16 : Nat) : Escape :=
  if peek p = '{' && allow_utf16 ≠ 0 then
    match hexBraces 0 p.tail with
    | some (c, p) => .char c p
    | none => .malformed
  else
    match hexDigits (if c = 'x' then 2 else 4) 0 p with
    | none => .malformed
    | some (c, p) =>
        if 0xd800 ≤ c && c < 0xdc00 && allow_utf16 = 2 then
          match escapedLowSurrogate p with
          | some (c1, p) => .char (surrogatePair c c1 + 0x10000) p
          | none => .char c p
        else .char c p

/-- The part of `lre_parse_escape` after an octal digit. -/
def parseOctalEscape (c : Char) (p : Bytes) (allow_utf16 : Nat) : Escape :=
  let c := digitVal c
  if allow_utf16 = 2 then
    if c ≠ 0 || isDigit (peek p) then .malformed else .char c p
  else if !isOctal (peek p) then .char c p
  else
    let c := c * 8 + digitVal (peek p)
    let p := p.tail
    if c ≥ 32 || !isOctal (peek p) then .char c p
    else .char (c * 8 + digitVal (peek p)) p.tail

/-- `lre_parse_escape`; `p` is after the backslash. -/
def lreParseEscape (p : Bytes) (allow_utf16 : Nat) : Escape :=
  let c := peek p
  let p := p.tail
  match c with
  | 'b' => .char 0x08 p
  | 'f' => .char 0x0c p
  | 'n' => .char 0x0a p
  | 'r' => .char 0x0d p
  | 't' => .char 0x09 p
  | 'v' => .char 0x0b p
  | 'x' | 'u' => parseHexEscape c p allow_utf16
  | _ => if isOctal c then parseOctalEscape c p allow_utf16 else .other

/-! ### Group names -/

def lreIdTableAscii (table : List Nat) (c : Nat) : Bool :=
  (table.getD (c >>> 5) 0 >>> (c &&& 31)) &&& 1 = 1

def lre_id_start_table_ascii : List Nat := [0x00000000, 0x00000010, 0x87FFFFFE, 0x07FFFFFE]

def lre_id_continue_table_ascii : List Nat := [0x00000000, 0x03FF0010, 0x87FFFFFE, 0x07FFFFFE]

def char_range_s : List Nat :=
  [0x0009, 0x000D + 1, 0x0020, 0x0020 + 1, 0x00A0, 0x00A0 + 1, 0x1680, 0x1680 + 1, 0x2000,
    0x200A + 1, 0x2028, 0x2029 + 1, 0x202F, 0x202F + 1, 0x205F, 0x205F + 1, 0x3000, 0x3000 + 1,
    0xFEFF, 0xFEFF + 1]

def lreIsSpaceIn (c : Nat) : List Nat → Bool
  | low :: high :: rest => if c < low then false else if c < high then true else lreIsSpaceIn c rest
  | _ => false

def lreIsSpace (c : Nat) : Bool := lreIsSpaceIn c char_range_s

def lreJsIsIdentFirst (u : UnicodeData) (c : Nat) : Bool :=
  if c < 128 then lreIdTableAscii lre_id_start_table_ascii c
  else if u.all_unicode then u.is_id_start c
  else !lreIsSpace c

def lreJsIsIdentNext (u : UnicodeData) (c : Nat) : Bool :=
  if c < 128 then lreIdTableAscii lre_id_continue_table_ascii c
  else if u.all_unicode then u.is_id_continue c || c = 0x200C || c = 0x200D
  else !lreIsSpace c || c = 0x200C || c = 0x200D

def groupNameChar (is_utf16 : Bool) (p : Bytes) : Option (Nat × Bytes) :=
  if peek p = '\\' then
    if peek p.tail ≠ 'u' then none
    else
      match lreParseEscape p.tail (if is_utf16 then 2 else 0) with
      | .char c p => some (c, p)
      | _ => none
  else if (peek p).toNat ≥ 128 then unicodeFromUtf8 p
  else some ((peek p).toNat, p.tail)

/-- The loop of `re_parse_group_name`; each character takes room in the buffer, so the buffer's
size is fuel enough. -/
def groupNameLoop (u : UnicodeData) (is_utf16 : Bool) :
    Nat → Bytes → Bytes → Option (Bytes × Bytes)
  | 0, _, _ => none
  | fuel + 1, name, p =>
      if peek p = '>' then some (name, p)
      else do
        let (c, p) ← groupNameChar is_utf16 p
        if c > 0x10FFFF then none
        else if !(if name = [] then lreJsIsIdentFirst u c else lreJsIsIdentNext u c) then none
        else if name.length + UTF8_CHAR_LEN_MAX + 1 > TMP_BUF_SIZE then none
        else groupNameLoop u is_utf16 fuel (name ++ unicodeToUtf8 c) p

/-- `re_parse_group_name`: the name and the position after the `>`. -/
def reParseGroupName (u : UnicodeData) (is_utf16 : Bool) (p : Bytes) : Option (Bytes × Bytes) := do
  let (name, p) ← groupNameLoop u is_utf16 TMP_BUF_SIZE [] p
  if name = [] then none else some (name, p.tail)

end PrimJs.Regexp
