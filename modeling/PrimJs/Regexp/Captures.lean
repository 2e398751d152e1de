import PrimJs.Regexp.Escape

/-! The scan for captures that runs ahead of the parse, and the names seen so far. -/

namespace PrimJs.Regexp

/-- The inner loop of `re_parse_captures`: from inside a class to its `]`. -/
def skipClass : Bytes → Bytes
  | [] => []
  | ']' :: p => ']' :: p
  | '\\' :: [] => []
  | '\\' :: _ :: p => skipClass p
  | _ :: p => skipClass p

/-- The loop of `re_parse_captures`, from position `p` with the next index `capture_index`. The
last component is `*phas_named_captures`; the middle one is the index found for the name. -/
def reParseCapturesLoop (u : UnicodeData) (is_utf16 : Bool) (capture_name : Option Bytes) :
    Nat → Bytes → Nat → Bool → Nat × Option Nat × Bool
  | 0, _, capture_index, has_named => (capture_index, none, has_named)
  | _ + 1, [], capture_index, has_named => (capture_index, none, has_named)
  | fuel + 1, '(' :: p, capture_index, has_named =>
      if peek p = '?' then
        if peekAt p 1 = '<' && peekAt p 2 ≠ '=' && peekAt p 2 ≠ '!' then
          -- potential named capture
          match capture_name with
          | none => reParseCapturesLoop u is_utf16 capture_name fuel p (capture_index + 1) true
          | some searched =>
              match reParseGroupName u is_utf16 (p.drop 2) with
              | some (name, p) =>
                  if name = searched then (capture_index, some capture_index, true)
                  else reParseCapturesLoop u is_utf16 capture_name fuel p.tail (capture_index + 1) true
              | none =>
                  reParseCapturesLoop u is_utf16 capture_name fuel (p.drop 3) (capture_index + 1) true
        else reParseCapturesLoop u is_utf16 capture_name fuel p capture_index has_named
      else reParseCapturesLoop u is_utf16 capture_name fuel p (capture_index + 1) has_named
  | fuel + 1, '\\' :: p, capture_index, has_named =>
      reParseCapturesLoop u is_utf16 capture_name fuel p.tail capture_index has_named
  | fuel + 1, '[' :: p, capture_index, has_named =>
      reParseCapturesLoop u is_utf16 capture_name fuel (skipClass p).tail capture_index has_named
  | fuel + 1, _ :: p, capture_index, has_named =>
      reParseCapturesLoop u is_utf16 capture_name fuel p capture_index has_named

/-- `re_parse_captures` without a name: the number of captures plus one, and whether there are
named ones. -/
def reParseCaptures (u : UnicodeData) (is_utf16 : Bool) (buf : Bytes) : Nat × Bool :=
  let (capture_index, _, has_named) := reParseCapturesLoop u is_utf16 none buf.length buf 1 false
  (capture_index, has_named)

/-- `re_parse_captures` with a name: the index of the capture of that name. -/
def reParseCapturesNamed (u : UnicodeData) (is_utf16 : Bool) (buf name : Bytes) : Option Nat :=
  (reParseCapturesLoop u is_utf16 (some name) buf.length buf 1 false).2.1

/-- The loop of `find_group_name`. -/
def findGroupNameFrom (name : Bytes) (capture_index : Nat) : List Bytes → Option Nat
  | [] => none
  | p :: names => if p = name then some capture_index else findGroupNameFrom name (capture_index + 1) names

/-- `find_group_name`; an unnamed capture has the empty name. -/
def findGroupName (group_names : List Bytes) (name : Bytes) : Option Nat :=
  findGroupNameFrom name 1 group_names

end PrimJs.Regexp
