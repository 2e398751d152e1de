import PrimJs.Regexp.CaptureSync
import PrimJs.Regexp.Exec

/-! Patterns as trees, and the code that the compiler emits for them.

The captures of a pattern are numbered from left to right, from the number of the first one on. -/

namespace PrimJs.Regexp

def isAssertionOp : REOp → Bool
  | .line_start | .line_end | .word_boundary | .not_word_boundary => true
  | _ => false

/-- A test of one character, whose operand fits its encoding. -/
structure IsCharTest (op : REOp) : Prop where
  char : isCharOp op = true
  fits : ∀ c, op = .char c → c ≤ 0xffff

inductive Node where
  | empty
  | charTest (op : REOp) (char : IsCharTest op)
  | assertion (op : REOp) (test : isAssertionOp op = true)
  | backReference (index : Nat)
  | seq (first second : Node)
  | alt (left right : Node)
  | capture (body : Node)
  | look (is_neg behind : Bool) (body : Node)
  | quant (atom : Node) (quant_min quant_max : Nat)
      (bounds : quant_min ≤ quant_max ∧ quant_max ≤ INT32_MAX) (greedy : Bool)

namespace Node

def captures : Node → Nat
  | empty | charTest _ _ | assertion _ _ | backReference _ => 0
  | seq first second => first.captures + second.captures
  | alt left right => left.captures + right.captures
  | capture body => body.captures + 1
  | look _ _ body => body.captures
  | quant atom _ _ _ _ => atom.captures

/-- The code of a pattern whose first capture has the number `count`. -/
def emit (dir : Bool) (count : Nat) : Node → List REOp
  | empty => []
  | charTest op _ => emitCharTest dir op
  | assertion op _ => [op]
  | backReference index =>
      [if dir then .backward_back_reference index else .back_reference index]
  | seq first second =>
      let code := first.emit dir count
      let code' := second.emit dir (count + first.captures)
      if dir then code' ++ code else code ++ code'
  | alt left right =>
      let code := left.emit dir count
      let code' := right.emit dir (count + left.captures)
      .split_next_first (codeSize code + 5) :: code ++ .goto (codeSize code') :: code'
  | capture body => captureCode dir count (body.emit dir (count + 1))
  | look is_neg behind body => lookaroundCode is_neg (body.emit behind count)
  | quant atom quant_min quant_max _ greedy =>
      emitQuantifier (atom.emit dir count) quant_min quant_max greedy count
        (count + atom.captures)

end Node

variable {ctx : REContext} {dir : Bool} {s s' : REParseState} {code : List REOp}

/-! ### What the parser emits -/

inductive LeafCode (dir : Bool) : List REOp → Prop where
  | charTest (op : REOp) : IsCharTest op → LeafCode dir (emitCharTest dir op)
  | backReference (index : Nat) : LeafCode dir (emitBackReference dir index)

theorem isCharTest_emitChar (ctx : REContext) (c : Nat) : IsCharTest (emitChar ctx c) := by
  unfold emitChar
  dsimp only
  generalize (if ctx.ignore_case then lreCanonicalize ctx.unicode c ctx.is_utf16 else c) = c'
  split
  · next small =>
    refine ⟨rfl, ?_⟩
    rintro _ ⟨⟩
    exact small
  · exact ⟨rfl, by rintro _ ⟨⟩⟩

theorem isCharTest_reEmitRange {cr : List Nat} {op : REOp} (h : reEmitRange cr = .ok op) :
    IsCharTest op := by
  unfold reEmitRange at h
  split_ifs at h
  all_goals
    obtain rfl := Except.ok.inj h
    exact ⟨rfl, by rintro _ ⟨⟩⟩

theorem isCharTest_reParseCharClass {p p' : Bytes} {op : REOp}
    (h : reParseCharClass ctx p = .ok (op, p')) : IsCharTest op := by
  obtain ⟨⟨cr, p₁⟩, -, hrest⟩ := bind_eq_ok.mp h
  obtain ⟨op', hemit, hok⟩ := bind_eq_ok.mp hrest
  obtain ⟨rfl, rfl⟩ := Prod.mk.inj (Except.ok.inj hok)
  exact isCharTest_reEmitRange hemit

theorem leafCode_parseClassAtomTerm (h : parseClassAtomTerm ctx dir s = .ok (code, s')) :
    LeafCode dir code := by
  obtain ⟨⟨atom, p⟩, -, hrest⟩ := bind_eq_ok.mp h
  dsimp only at hrest
  split at hrest
  · obtain ⟨op, hemit, hok⟩ := bind_eq_ok.mp hrest
    obtain ⟨rfl, rfl⟩ := Prod.mk.inj (Except.ok.inj hok)
    exact .charTest op (isCharTest_reEmitRange hemit)
  · obtain ⟨rfl, rfl⟩ := Prod.mk.inj (Except.ok.inj hrest)
    exact .charTest _ (isCharTest_emitChar _ _)

theorem leafCode_parseBraceTerm (h : parseBraceTerm ctx dir s = .ok (code, s')) :
    LeafCode dir code := by
  unfold parseBraceTerm at h
  dsimp only at h
  split at h
  · cases h
  · split_ifs at h
    all_goals first
      | exact leafCode_parseClassAtomTerm h
      | cases h

theorem leafCode_parseBadNameReference {msg : String}
    (h : parseBadNameReference ctx dir s msg = .ok (code, s')) : LeafCode dir code := by
  unfold parseBadNameReference at h
  split at h
  · cases h
  · dsimp only at h
    split at h
    · cases h
    · exact leafCode_parseClassAtomTerm h

theorem leafCode_parseNamedReference (h : parseNamedReference ctx dir s = .ok (code, s')) :
    LeafCode dir code := by
  unfold parseNamedReference at h
  split at h
  · exact leafCode_parseBadNameReference h
  · split at h
    · exact leafCode_parseBadNameReference h
    · split at h
      · obtain ⟨rfl, rfl⟩ := Prod.mk.inj (Except.ok.inj h)
        exact .backReference _
      · split at h
        · obtain ⟨rfl, rfl⟩ := Prod.mk.inj (Except.ok.inj h)
          exact .backReference _
        · exact leafCode_parseBadNameReference h

theorem leafCode_parseDecimalEscape {p : Bytes}
    (h : parseDecimalEscape ctx dir s p = .ok (code, s')) : LeafCode dir code := by
  unfold parseDecimalEscape at h
  dsimp only at h
  split at h
  · obtain ⟨rfl, rfl⟩ := Prod.mk.inj (Except.ok.inj h)
    exact .backReference _
  · split at h
    · cases h
    · obtain ⟨rfl, rfl⟩ := Prod.mk.inj (Except.ok.inj h)
      exact .charTest _ (isCharTest_emitChar _ _)

theorem LeafAtom.leafCode (h : LeafAtom ctx dir s code s') : LeafCode dir code := by
  cases h with
  | dot p hp =>
      refine .charTest _ ?_
      split <;> exact ⟨rfl, by rintro _ ⟨⟩⟩
  | brace p code s' hp h => exact leafCode_parseBraceTerm h
  | namedReference p code s' hp h => exact leafCode_parseNamedReference h
  | zero p p' c hp h => exact .charTest _ (isCharTest_emitChar _ _)
  | decimal p code s' hp hlow hhigh h => exact leafCode_parseDecimalEscape h
  | charClass p p' op hp h => exact .charTest op (isCharTest_reParseCharClass h)
  | classAtom c p code s' hp hopen hclass h => exact leafCode_parseClassAtomTerm h

theorem LeafCode.node (h : LeafCode dir code) (count : Nat) :
    ∃ node : Node, node.captures = 0 ∧ code = node.emit dir count := by
  cases h with
  | charTest op hchar => exact ⟨.charTest op hchar, rfl, rfl⟩
  | backReference index => exact ⟨.backReference (index % 256), rfl, rfl⟩

theorem Assertion.isAssertionOp {text : Bytes} {op : REOp} (h : Assertion text op) :
    isAssertionOp op = true := by
  cases h <;> rfl

theorem parseDigitsLoop_le {allow : Bool} {v v' : Nat} {p p' : Bytes} (h : v ≤ INT32_MAX)
    (run : parseDigitsLoop allow v p = some (v', p')) : v' ≤ INT32_MAX := by
  induction p generalizing v with
  | nil =>
      obtain ⟨rfl, -⟩ := Prod.mk.inj (Option.some.inj run)
      exact h
  | cons c p ih =>
      rw [parseDigitsLoop] at run
      dsimp only at run
      split_ifs at run with digit large
      · obtain ⟨rfl, -⟩ := Prod.mk.inj (Option.some.inj run)
        exact h
      · exact ih (le_refl _) run
      · exact ih (Nat.le_of_lt (Nat.lt_of_not_ge large)) run

theorem parseDigitsClamped_le (p : Bytes) : (parseDigitsClamped p).1 ≤ INT32_MAX := by
  rw [parseDigitsClamped]
  cases run : parseDigitsLoop true 0 p with
  | none => exact Nat.zero_le _
  | some read => exact parseDigitsLoop_le (Nat.zero_le _) run

theorem parseQuantifierBounds_bounds {p p' : Bytes} {quant_min quant_max : Nat}
    (h : parseQuantifierBounds ctx p = .ok (some (quant_min, quant_max), p')) :
    quant_min ≤ quant_max ∧ quant_max ≤ INT32_MAX := by
  unfold parseQuantifierBounds at h
  split at h
  case h_4 p1 =>
    have first := parseDigitsClamped_le p1
    have second := parseDigitsClamped_le (parseDigitsClamped p1).2.tail
    dsimp only at h
    split_ifs at h
    all_goals first
      | cases h; done
      | obtain ⟨⟨rfl, rfl⟩, -⟩ : (_ ∧ _) ∧ _ := by simpa using h
        omega
  case h_5 => cases h
  all_goals
    obtain ⟨⟨rfl, rfl⟩, -⟩ : (_ ∧ _) ∧ _ := by simpa using h
    decide

/-- The code of a pattern, with the captures made for it. -/
structure Emits (dir : Bool) (count : Nat) (code : List REOp) (after : Nat) : Prop where
  node : ∃ node : Node, code = node.emit dir count ∧ after = count + node.captures

theorem emits_parseQuantifier {atom : List REOp} {count : Nat}
    (hatom : Emits dir count atom s.capture_count)
    (h : parseQuantifier ctx atom count s = .ok (code, s')) :
    Emits dir count code s'.capture_count := by
  obtain ⟨⟨bounds, p⟩, hbounds, hrest⟩ := bind_eq_ok.mp h
  dsimp only at hrest
  split at hrest
  · obtain ⟨rfl, rfl⟩ := Prod.mk.inj (Except.ok.inj hrest)
    exact hatom
  · next quant_min quant_max =>
    obtain ⟨rfl, rfl⟩ := Prod.mk.inj (Except.ok.inj hrest)
    obtain ⟨node, rfl, hcount⟩ := hatom.node
    refine ⟨⟨.quant node quant_min quant_max (parseQuantifierBounds_bounds hbounds)
      (peek p ≠ '?'), ?_, hcount⟩⟩
    rw [Node.emit, ← hcount]

/-- What a derivation says about the code, for the goals that continue code too. -/
def Goal.Emits (dir : Bool) (code : List REOp) (s' : REParseState) : Goal → Prop
  | .disjunction s | .term s | .atom s =>
      Regexp.Emits dir s.capture_count code s'.capture_count
  | .alternatives code₀ s | .alternative code₀ s =>
      ∀ count, Regexp.Emits dir count code₀ s.capture_count →
        Regexp.Emits dir count code s'.capture_count

theorem parses_emits {goal : Goal} (h : Parses ctx goal dir code s') : goal.Emits dir code s' := by
  induction h with
  | disjunction _ _ first rest => exact rest _ (first _ ⟨.empty, rfl, rfl⟩)
  | alternatives_done hend => exact fun count emitted => emitted
  | alternatives_next hp _ _ next rest =>
      intro count emitted
      obtain ⟨left, rfl, hleft⟩ := emitted.node
      obtain ⟨right, rfl, hright⟩ := (next _ ⟨.empty, rfl, rfl⟩).node
      refine rest count ⟨.alt left right, ?_, ?_⟩
      · rw [Node.emit, ← hleft]
      · rw [hright, Node.captures, ← Nat.add_assoc, ← hleft]
  | alternative_done hend => exact fun count emitted => emitted
  | @alternative_next s s₁ s' dir code term code' hmore _ _ term rest =>
      intro count emitted
      obtain ⟨first, rfl, hfirst⟩ := emitted.node
      obtain ⟨second, rfl, hsecond⟩ := term.node
      refine rest count ⟨.seq first second, ?_, ?_⟩
      · rw [Node.emit, ← hfirst]
      · rw [hsecond, Node.captures, ← Nat.add_assoc, ← hfirst]
  | assertion htext hp => exact ⟨.assertion _ htext.isAssertionOp, rfl, rfl⟩
  | lookaround htext hmode hp _ hclose body =>
      obtain ⟨node, rfl, hcount⟩ := body.node
      exact ⟨.look _ _ node, rfl, hcount⟩
  | quantified _ hquant atom => exact emits_parseQuantifier atom hquant
  | leaf h =>
      obtain ⟨node, hnone, hcode⟩ := h.leafCode.node _
      exact ⟨node, hcode, by rw [hnone]; exact (scan_leafAtom h).capture_count⟩
  | group hp _ hclose body => exact body
  | lookaheadAtom htext hmode hp _ hclose body =>
      obtain ⟨node, rfl, hcount⟩ := body.node
      exact ⟨.look _ _ node, rfl, hcount⟩
  | capture hopen hmax _ hclose body =>
      obtain ⟨node, rfl, hcount⟩ := body.node
      refine ⟨.capture node, rfl, ?_⟩
      dsimp only at hcount ⊢
      rw [hcount, Node.captures]
      omega

/-- The code of a compiled pattern. -/
theorem lreCompile_emit {u : UnicodeData} {buf : Bytes} {flags : REFlags} {bc : REByteCode}
    (h : lreCompile u buf flags = .ok bc) :
    ∃ node : Node, bc.code = (if flags.sticky then [] else searchPrefix) ++
        (Node.capture node).emit false 0 ++ [.match] ∧
      bc.capture_count = (Node.capture node).captures ∧
      computeStackSize bc.code = some bc.stack_size ∧ bc.flags = flags := by
  obtain ⟨ctx, body, s, -, -, -, -, hparse, -, hcode, hcount, hsize, hflags, -⟩ :=
    lreCompile_eq_ok h
  obtain ⟨node, rfl, hcaptures⟩ := (parses_emits hparse).node
  refine ⟨node, ?_, ?_, hsize, hflags⟩
  · rw [hcode, Node.emit, captureCode, if_neg Bool.false_ne_true]
    simp [initialState]
  · rw [hcount, hcaptures, Node.captures, initialState, Nat.add_comm]

end PrimJs.Regexp
