import Univdreams.Lower.Function
import Univdreams.Ud.Emit
import Univdreams.Ud.Parser

/-!
# The parser: statements

The statements of `src/translate/compile/parser.rs`. A body nests further bodies; a parser of one
statement takes the parser of a body as an argument, and `stmtList` ties the two together.

Calls and assignments have no keyword. Their operands are texts that are cut out of the input, and
where a statement ends is decided by brackets and by line breaks.
-/

namespace Univdreams.Ud

open Ast Arch
open Text

namespace Parser

/-! ## Labels and literals -/

/-- `parse_label_addr`. -/
def parseLabelAddr (name : Text) : Option UInt64 := do
  let rest ← stripPrefix? name "label_".toList
  let n ← fromStrRadix (2 ^ 64) 16 rest
  return UInt64.ofNat n

/-- `parse_int_literal`. -/
def parseIntLiteral (s : Text) : Option UInt64 :=
  let s := trim s
  let n := match (stripPrefix? s "0x".toList).or (stripPrefix? s "0X".toList) with
    | some rest => fromStrRadix (2 ^ 64) 16 rest
    | none => fromStrRadix (2 ^ 64) 10 s
  n.map UInt64.ofNat

/-- `jcc_cond_code_from_name`. -/
def jccCondCodeFromName (name : Text) : Option UInt8 :=
  ([("jo", 0x0), ("jno", 0x1), ("jb", 0x2), ("jc", 0x2), ("jnae", 0x2), ("jae", 0x3), ("jnb", 0x3),
    ("jnc", 0x3), ("je", 0x4), ("jz", 0x4), ("jne", 0x5), ("jnz", 0x5), ("jbe", 0x6), ("jna", 0x6),
    ("ja", 0x7), ("jnbe", 0x7), ("js", 0x8), ("jns", 0x9), ("jp", 0xa), ("jpe", 0xa), ("jnp", 0xb),
    ("jpo", 0xb), ("jl", 0xc), ("jnge", 0xc), ("jge", 0xd), ("jnl", 0xd), ("jle", 0xe),
    ("jng", 0xe), ("jg", 0xf), ("jnle", 0xf)].map fun p => (p.1.toList, p.2)).lookup name

/-- A label name, with the address that it stands for. -/
def expectLabel (label expected : String) : Parser UInt64 := do
  let tok ← peek
  let name ← expectIdent label
  match parseLabelAddr name with
  | some addr => return addr
  | none => failAt expected (ticked name) tok

/-! ## Calls and assignments -/

/-- `is_byte_list_block`, behind the bracket. -/
def isByteListTail : List Token → Bool
  | ⟨.int _, _, _, _, _⟩ :: ⟨.comma, _, _, _, _⟩ :: ts => isByteListTail ts
  | ⟨.int _, _, _, _, _⟩ :: ⟨.rBracket, _, _, _, _⟩ :: _ => true
  | _ => false

/-- `is_byte_list_block`, for the tokens from the bracket on. -/
def isByteListBlock : List Token → Bool
  | ⟨.lBracket, _, _, _, _⟩ :: ⟨.rBracket, _, _, _, _⟩ :: _ => true
  | ⟨.lBracket, _, _, _, _⟩ :: ts => isByteListTail ts
  | _ => false

/-- The scan of `find_matching_close` for `close`: the number of the token. -/
def findClose (close : TokenKind) : (depth : ℤ) → (i : ℕ) → List Token → Option ℕ
  | _, _, [] => none
  | depth, i, t :: ts =>
    if t.kind = .lParen ∨ t.kind = .lBracket then findClose close (depth + 1) (i + 1) ts
    else if t.kind = close then
      if depth - 1 = 0 then some i else findClose close (depth - 1) (i + 1) ts
    else if t.kind = .rParen ∨ t.kind = .rBracket then findClose close (depth - 1) (i + 1) ts
    else if t.kind = .eof ∨ t.kind = .rBrace then none
    else findClose close depth (i + 1) ts

variable (line : ℕ) (toks : List Token) (bits : ℕ)

/-- `find_matching_close`, for the tokens from the opening bracket on. -/
def findMatchingClose : Option ℕ :=
  match toks.head?.map Token.kind with
  | some .lParen => findClose .rParen 0 0 toks
  | some .lBracket => findClose .rBracket 0 0 toks
  | _ => none

/-- The loop of `lookahead_is_method_call`, behind a name. -/
def isMethodTail (sawArrow : Bool) : List Token → Bool
  | ⟨.arrow, _, _, _, _⟩ :: ⟨.ident _, _, _, _, _⟩ :: ts => isMethodTail true ts
  | ⟨.arrow, _, _, _, _⟩ :: _ => false
  | ⟨.lParen, _, _, _, _⟩ :: _ => sawArrow
  | _ => false

/-- `lookahead_is_method_call`. -/
def lookaheadIsMethodCall : Bool := isMethodTail false toks.tail

/-- What the scan of `parse_move_stmt` finds: the last `=` and the last byte list outside of
brackets. -/
structure MoveScan where
  lastEq : Option ℕ
  byteList : Option ℕ

/-- Whether a token ends the scan of a line. -/
def endsLine (t : Token) : Bool :=
  t.line != line || match t.kind with
    | .eof | .comment _ | .rBrace => true
    | _ => false

/-- The scan of `parse_move_stmt` over the rest of a line. -/
def moveScan (line : ℕ) : (depth : ℤ) → (i : ℕ) → MoveScan → List Token → MoveScan
  | _, _, found, [] => found
  | depth, i, found, t :: ts =>
    if endsLine line t then found
    else match t.kind with
      | .lBracket =>
        let found := if depth = 0 ∧ isByteListBlock (t :: ts) then { found with byteList := some i }
          else found
        moveScan line (depth + 1) (i + 1) found ts
      | .lParen => moveScan line (depth + 1) (i + 1) found ts
      | .rParen | .rBracket => moveScan line (depth - 1) (i + 1) found ts
      | .eq =>
        moveScan line depth (i + 1) (if depth = 0 then { found with lastEq := some i }
          else found) ts
      | _ => moveScan line depth (i + 1) found ts

/-- Whether a token is the first half of an operator like `+=`. -/
def isCompoundOp : TokenKind → Bool
  | .plus | .minus | .star | .slash | .percent | .pipe | .ampersand | .caret => true
  | _ => false

/-- `detect_compound_op`: the first token of the operator that ends in the `=` with number `eq`. -/
def detectCompoundOp (eq : ℕ) : Option Token := do
  let eqTok ← toks[eq]?
  let op ← if eq = 0 then none else toks[eq - 1]?
  if op.stop ≠ eqTok.start then none
  else
    match (if 2 ≤ eq then toks[eq - 2]? else none) with
    | some before =>
      if (op.kind = .lt ∨ op.kind = .gt) ∧ before.kind = op.kind ∧ before.stop = op.start then
        some before
      else if isCompoundOp op.kind then some op else none
    | none => if isCompoundOp op.kind then some op else none

/-- Skip `n` tokens, which are not the last ones. -/
def skip (n : ℕ) : Parser Unit := fun c =>
  .ok ((), ⟨((c.rest.take n).getLast?.map Token.line).getD c.prev, c.rest.drop n⟩)

/-- The tokens that are left. -/
def remaining : Parser (List Token) := fun c => .ok (c.rest, c)

/-- The source of an assignment, from behind its `=`, and its bytes. -/
def moveSource (eqTok : Token) (byteList : Option ℕ) : Parser (Text × Bytes) :=
  match (byteList.bind fun i => toks[i]?.map fun t => (i, t)) with
  | some (i, btok) =>
    if btok.start.length < eqTok.start.length then do
      skip i
      let bytes ← parseByteList
      return (trim (cut eqTok.stop btok.start), bytes)
    else restOfLine
  | none => restOfLine
where
  /-- The source up to the end of the line. -/
  restOfLine : Parser (Text × Bytes) := do
    let here := toks.takeWhile fun t => !endsLine line t
    skip here.length
    return (trim (cut eqTok.stop ((here.getLast?.map Token.stop).getD eqTok.stop)), [])

/-- `parse_move_stmt`. -/
def parseMoveStmt : Parser Stmt := do
  let tok ← peek
  let toks ← remaining
  let found := moveScan tok.line 0 0 ⟨none, none⟩ toks
  match found.lastEq.bind fun i => toks[i]?.map fun t => (i, t) with
  | none => failAt "`=` in assignment statement" (describe tok.kind) tok
  | some (eq, eqTok) => do
    let op := detectCompoundOp toks eq
    let dstEnd := (op.getD eqTok).start
    let (src, bytes) ← moveSource tok.line toks eqTok found.byteList
    let src := ((stripSuffix? src [';']).map trim).getD src
    let dst := trim (cut tok.start dstEnd)
    return if op.isSome then .regArith dst (trim (cut dstEnd eqTok.stop)) src bytes
      else .move dst src bytes

/-- The names behind the first one of `this->f->g`. -/
def arrowChain (start : Text) : (name : Text) → (prev : ℕ) → List Token → Text × Cursor
  | _, _, ⟨.arrow, _, _, _, _⟩ :: ⟨.ident _, line, _, _, stop⟩ :: ts =>
    arrowChain start (cut start stop) line ts
  | name, _, ⟨.arrow, line, _, _, _⟩ :: ts => (name, ⟨line, ts⟩)
  | name, prev, ts => (name, ⟨prev, ts⟩)

/-- `parse_call_target_name`. -/
def parseCallTargetName : Parser Text := do
  let tok ← peek
  match tok.kind with
  | .ident name => do
    let _ ← bump
    fun c => .ok (arrowChain tok.start name c.prev c.rest)
  | .lBracket => do
    let toks ← remaining
    match (findMatchingClose toks).bind fun i => toks[i]?.map fun t => (i, t) with
    | none => fail .unexpectedEof
    | some (i, close) => do
      skip (i + 1)
      return cut tok.start close.stop
  | .lParen => do
    let toks ← remaining
    match (findMatchingClose toks).bind fun i => toks[i]?.map fun t => (i, t) with
    | none => fail .unexpectedEof
    | some (i, close) => do
      skip (i + 1)
      return trim (cut tok.stop close.start)
  | kind => failAt "a call target name (identifier, `[…]` or `(…)`)" (describe kind) tok

/-- `flush_call_arg`: the argument of a segment, when there is one. -/
def flushCallArg (segStart segEnd : Text) (segString : Option Text) (count : ℕ) : List Text :=
  if count = 0 then []
  else match segString with
    | some s => if count = 1 then [s] else rawArg
    | none => rawArg
where
  /-- The text of the segment. -/
  rawArg : List Text :=
    let raw := trim (cut segStart segEnd)
    if raw = [] then [] else [raw]

/-- `collect_call_args`, from the middle of a segment on. -/
def collectCallArgs (depth : ℕ) (segStart : Text) (segString : Option Text) (count prev : ℕ) :
    List Token → Run ParseError (List Text × Cursor)
  | [] => .error .panic
  | t :: ts => match t.kind with
    | .lParen | .lBracket => collectCallArgs (depth + 1) segStart segString (count + 1) t.line ts
    | .rParen =>
      if 0 < depth then collectCallArgs (depth - 1) segStart segString (count + 1) t.line ts
      else .ok (flushCallArg segStart t.start segString count, ⟨prev, t :: ts⟩)
    | .rBracket =>
      if 0 < depth then collectCallArgs (depth - 1) segStart segString (count + 1) t.line ts
      else collectCallArgs depth segStart none (count + 1) t.line ts
    | .comma =>
      if depth = 0 then do
        let next := (ts.head?.map Token.start).getD []
        let (args, c) ← collectCallArgs 0 next none 0 t.line ts
        return (flushCallArg segStart t.start segString count ++ args, c)
      else collectCallArgs depth segStart none (count + 1) t.line ts
    | .eof => .error (.err .unexpectedEof)
    | .string s =>
      collectCallArgs depth segStart (if count = 0 then some s else none) (count + 1) t.line ts
    | _ => collectCallArgs depth segStart none (count + 1) t.line ts

/-- The arguments of a call, up to the closing parenthesis. -/
def parseCallArgs : Parser (List Text) := do
  let tok ← peek
  if tok.kind = .rParen then return []
  else fun c => collectCallArgs 0 tok.start none 0 c.prev c.rest

/-- The bytes behind a call: a list of bytes on the same line. -/
def parseCallBytes : Parser Bytes := fun c =>
  match c.rest with
  | [] => .error .panic
  | t :: _ => if t.kind = .lBracket ∧ t.line = c.prev ∧ isByteListBlock c.rest then parseByteList c
    else .ok ([], c)

/-- `parse_call_stmt`. -/
def parseCallStmt : Parser Stmt := do
  let name ← parseCallTargetName
  expect .lParen "`(` after call target name"
  let args ← parseCallArgs
  expect .rParen "`)` to close call argument list"
  let attrs ← parseAttrs
  let direct_target := attrs.findSome? fun a => match a.value with
    | .int n => if a.key = "target".toList then some n else none
    | _ => none
  let bytes ← parseCallBytes
  return .call name args bytes direct_target

/-- Whether a call starts at the tokens, by `parse_call_or_move_stmt`. -/
def startsCall : Bool :=
  match toks.head?.map Token.kind with
  | some (.ident _) =>
    toks[1]?.map Token.kind == some .lParen || lookaheadIsMethodCall toks
  | _ => (findMatchingClose toks).any fun i => toks[i + 1]?.map Token.kind == some .lParen

/-- `parse_call_or_move_stmt`. -/
def parseCallOrMoveStmt : Parser Stmt := do
  let toks ← remaining
  if startsCall toks then parseCallStmt else parseMoveStmt

/-! ## Jumps and returns -/

/-- `parse_return_stmt`. -/
def parseReturnStmt : Parser Stmt := do
  let _ ← bump
  let tok ← peek
  let value_text ← (if tok.kind = .semicolon then pure [] else parseUntilSemicolon)
  expect .semicolon "`;` after `return` value"
  let bytes ← whenKind .lBracket parseByteList []
  return match parseIntLiteral value_text with
    | some value => .return value bytes
    | none => .returnExpr value_text bytes

/-- What the attributes of a conditional jump say. -/
structure JccAttrs where
  cmp_bytes : Bytes
  cond_code : Option UInt8
  wide : Bool
  target : Option UInt64

/-- Take one attribute of a conditional jump into account. -/
def jccAttr (anchor : Token) (found : JccAttrs) (a : Attribute) : Run ParseError JccAttrs :=
  match a.value with
  | .string s =>
    if a.key = "cond".toList then match jccCondCodeFromName s with
      | some code => .ok { found with cond_code := some code }
      | none => .error (.err (.expected "known jcc mnemonic in `cond=\"…\"`".toList (ticked s)
          anchor.line anchor.col))
    else .ok found
  | .byteList bytes =>
    .ok (if a.key = "cmp".toList then { found with cmp_bytes := bytes } else found)
  | .flag => .ok (if a.key = "wide".toList then { found with wide := true } else found)
  | .int n => .ok (if a.key = "target".toList then { found with target := some n } else found)

/-- `parse_jcc_attrs`: the comparison's bytes, the condition, whether the jump is wide, and the
target. -/
def parseJccAttrs (anchor : Token) : Parser (Bytes × UInt8 × Bool × Option UInt64) := do
  let attrs ← parseAttrs
  let found ← StateT.lift (attrs.foldlM (jccAttr anchor) ⟨[], none, false, none⟩)
  match found.cond_code with
  | some code => return (found.cmp_bytes, code, found.wide, found.target)
  | none =>
    failAt "`#[cond=\"…\"]` attribute on the `if (...) goto/return`"
      "no `cond` attribute".toList anchor

/-- `parse_if_goto_tail`. -/
def parseIfGotoTail (cond_text : Text) : Parser Stmt := do
  let _ ← bump
  let labelTok ← peek
  let target_addr ← expectLabel "label name (e.g. `label_1234`)"
    "label name of the form `label_<hex>`"
  let (cmp_bytes, cond_code, wide, _) ← parseJccAttrs labelTok
  expect .semicolon "`;` after `goto` target"
  return .ifGoto cond_text target_addr cmp_bytes cond_code wide

/-- `parse_if_return_tail`. -/
def parseIfReturnTail (cond_text : Text) : Parser Stmt := do
  let anchor ← bump
  let tok ← peek
  let value_text ← (if tok.kind = .semicolon ∨ tok.kind = .hash then pure []
    else parseUntilSemicolonOrAttr)
  let (cmp_bytes, cond_code, wide, target) ← parseJccAttrs anchor
  expect .semicolon "`;` after `return` value"
  match target with
  | some target_addr => return .ifReturn cond_text value_text target_addr cmp_bytes cond_code wide
  | none =>
    failAt "`target=0x…` attribute on `if (...) return …`" "no `target` attribute".toList anchor

/-- `parse_goto_stmt`. -/
def parseGotoStmt : Parser Stmt := do
  let _ ← bump
  let target_addr ← expectLabel "label name (e.g. `label_1234`)"
    "label name of the form `label_<hex>`"
  let attrs ← parseAttrs
  expect .semicolon "`;` after `goto` target"
  return .goto target_addr (attrs.any fun a => a.key = "wide".toList ∧ a.value = .flag)

/-- `parse_label_stmt`. -/
def parseLabelStmt : Parser Stmt := do
  let addr ← expectLabel "label name" "label name of the form `label_<hex>`"
  expect .colon "`:` after label name"
  return .label addr

/-- The jump behind `case N` or `default`. -/
def parseSwitchGoto (after : String) : Parser UInt64 := do
  let tok ← peek
  let kw ← expectIdent "`goto`"
  if kw = "goto".toList then do
    let target ← expectLabel "label name" "label name `label_<hex>`"
    return target
  else failAt after (ticked kw) tok

/-- The cases of a switch and its default, up to the closing brace. -/
def switchLoop : ℕ → Parser (List (UInt64 × UInt64) × Option UInt64)
  | 0 => exhausted
  | n + 1 => do
    let tok ← peek
    if tok.kind = .rBrace then return ([], none)
    else
      let kw ← expectIdent "`case` or `default`"
      if kw = "case".toList then do
        let value ← expectInt "case value"
        expect .colon "`:` after case value"
        let target ← parseSwitchGoto "`goto` after case label"
        expect .semicolon "`;` after case target"
        let (cases, default) ← switchLoop n
        return ((value, target) :: cases, default)
      else if kw = "default".toList then do
        expect .colon "`:` after `default`"
        let target ← parseSwitchGoto "`goto` after `default`"
        expect .semicolon "`;` after `default` target"
        let (cases, default) ← switchLoop n
        -- A later default takes the place of an earlier one.
        return (cases, default.or (some target))
      else failAt "`case` or `default`" (ticked kw) tok

/-- `parse_switch_stmt`. The cases are sorted by their values. -/
def parseSwitchStmt : Parser Stmt := do
  let tok ← bump
  expect .lParen "`(` after `switch`"
  let selector ← parseParenInner
  expect .rParen "`)` to close `switch` selector"
  let attrs ← parseAttrs
  let dispatch := attrs.foldl (fun d a => match a.value with
    | .string s => if a.key = "dispatch".toList then some s else d
    | _ => d) none
  let tableVa := attrs.foldl (fun d a => match a.value with
    | .int n => if a.key = "table_va".toList then some n else d
    | _ => d) none
  match dispatch, tableVa with
  | none, _ =>
    failAt "`#[dispatch=\"...\", table_va=…]` on switch" "no dispatch attribute".toList tok
  | some _, none => failAt "`table_va=<addr>` on switch" "no table_va attribute".toList tok
  | some dispatch, some table_va => do
    expect .lBrace "`\x7b` to open `switch` body"
    let (cases, default) ← bounded switchLoop
    expect .rBrace "`\x7d` to close `switch` body"
    let sorted := cases.mergeSort fun a b => a.1 ≤ b.1
    return .switch selector (sorted.map Prod.snd) (default.getD 0) dispatch table_va

/-! ## Directives -/

/-- The bytes of a prologue with parameters. -/
def encodePrologueBytes (p : PrologueParams) : Option Bytes :=
  X86.encodePrologue ⟨p.saves, p.saves_after, p.frame, p.sub_esp.toNat, p.cf_protect, p.frame_alt⟩
    (Lower.codecBits bits)

/-- The bytes of an epilogue with parameters. -/
def encodeEpilogueBytes (e : EpilogueParams) : Option Bytes :=
  X86.encodeEpilogue ⟨e.saves, e.leave, e.pop_frame, e.add_esp.toNat, e.ret_imm.toNat⟩
    (Lower.codecBits bits)

/-- The loop of `parse_prologue_params`. -/
def prologueParamsLoop : ℕ → PrologueParams → Parser PrologueParams
  | 0, _ => exhausted
  | n + 1, p => do
    let tok ← peek
    if tok.kind = .rParen then return p
    else
      let kw ← expectIdent "prologue field name"
      let p ← prologueField tok kw p
      let _ ← eatKind .comma
      prologueParamsLoop n p
where
  /-- One field of the parameters. -/
  prologueField (tok : Token) (kw : Text) (p : PrologueParams) : Parser PrologueParams :=
    if kw = "saves".toList then do
      expect .colon "`:` after `saves`"
      let saves ← parseRegisterList
      return { p with saves := saves }
    else if kw = "saves_after".toList then do
      expect .colon "`:` after `saves_after`"
      let saves ← parseRegisterList
      return { p with saves_after := saves }
    else if kw = "frame".toList then do
      if ← eatKind .eq then
        let markerTok ← peek
        let marker ← expectIdent "`alt` after `frame=`"
        if marker = "alt".toList then return { p with frame := true, frame_alt := true }
        else failAt "`alt` after `frame=`" (ticked marker) markerTok
      else return { p with frame := true }
    else if kw = "sub".toList then do
      expect .colon "`:` after `sub`"
      let n ← expectInt "sub_esp value"
      return { p with sub_esp := n.toUInt32 }
    else if kw = "cf".toList then return { p with cf_protect := true }
    else failAt "`saves`, `frame`, `sub`, `cf`, or `)`" (ticked kw) tok

/-- The loop of `parse_epilogue_params`. -/
def epilogueParamsLoop : ℕ → EpilogueParams → Parser EpilogueParams
  | 0, _ => exhausted
  | n + 1, e => do
    let tok ← peek
    if tok.kind = .rParen then return e
    else
      let kw ← expectIdent "epilogue field name"
      let e ← epilogueField tok kw e
      let _ ← eatKind .comma
      epilogueParamsLoop n e
where
  /-- One field of the parameters. -/
  epilogueField (tok : Token) (kw : Text) (e : EpilogueParams) : Parser EpilogueParams :=
    if kw = "saves".toList then do
      expect .colon "`:` after `saves`"
      let saves ← parseRegisterList
      return { e with saves := saves }
    else if kw = "leave".toList then return { e with leave := true }
    else if kw = "pop_frame".toList then return { e with pop_frame := true }
    else if kw = "add".toList then do
      expect .colon "`:` after `add`"
      let n ← expectInt "add_esp value"
      return { e with add_esp := n.toUInt32 }
    else if kw = "ret_imm".toList then do
      expect .colon "`:` after `ret_imm`"
      let n ← expectInt "ret_imm value"
      return { e with ret_imm := n.toUInt16 }
    else failAt "`saves`, `leave`, `pop_frame`, `add`, `ret_imm`, or `)`" (ticked kw) tok

/-- A prologue that is given by its parameters. -/
def structuredPrologue (kind : Text) (p : PrologueParams) : Parser Stmt := do
  let bytes ← StateT.lift (orPanic (encodePrologueBytes bits p))
  return .prologue kind (some p) bytes

/-- An epilogue that is given by its parameters. -/
def structuredEpilogue (kind : Text) (e : EpilogueParams) : Parser Stmt := do
  let bytes ← StateT.lift (orPanic (encodeEpilogueBytes bits e))
  return .epilogue kind (some e) bytes

/-- `@prologue`. -/
def parsePrologue : Parser Stmt := do
  expect .lParen "`(` after `@prologue`"
  let kind ← expectString "prologue kind string"
  let tok ← peek
  if tok.kind = .rParen then do
    let _ ← bump
    structuredPrologue bits kind ⟨[], [], false, 0, false, false⟩
  else
    expect .comma "`,` after prologue kind"
    let tok ← peek
    if tok.kind = .lBracket then do
      let bytes ← parseByteList
      expect .rParen "`)` to close `@prologue`"
      return .prologue kind none bytes
    else
      let p ← bounded (prologueParamsLoop · ⟨[], [], false, 0, false, false⟩)
      expect .rParen "`)` to close `@prologue`"
      structuredPrologue bits kind p

/-- `@epilogue`. -/
def parseEpilogue : Parser Stmt := do
  expect .lParen "`(` after `@epilogue`"
  let kind ← expectString "epilogue kind string"
  let tok ← peek
  if tok.kind = .rParen then do
    let _ ← bump
    structuredEpilogue bits kind ⟨[], false, false, 0, 0⟩
  else
    expect .comma "`,` after epilogue kind"
    let tok ← peek
    if tok.kind = .lBracket then do
      let bytes ← parseByteList
      expect .rParen "`)` to close `@epilogue`"
      return .epilogue kind none bytes
    else
      let e ← bounded (epilogueParamsLoop · ⟨[], false, false, 0, 0⟩)
      expect .rParen "`)` to close `@epilogue`"
      structuredEpilogue bits kind e

/-- `@asm`. -/
def parseAsm : Parser Stmt := do
  expect .lParen "`(` after `@asm`"
  let text ← expectString "asm string"
  let more ← eatKind .comma
  let bytes ← (if more then parseByteList else pure [])
  expect .rParen "`)` to close `@asm`"
  return .asm text bytes

/-- `@return`. -/
def parseReturnDirective : Parser Stmt := do
  expect .lParen "`(` after `@return`"
  let value ← expectInt "return value (integer literal)"
  expect .comma "`,` after return value"
  let bytes ← parseByteList
  expect .rParen "`)` to close `@return`"
  return .return value bytes

/-- `@save`. -/
def parseSave : Parser Stmt := do
  expect .lParen "`(` after `@save`"
  let reg ← expectString "save register name"
  expect .comma "`,` after `@save` register"
  let bytes ← parseByteList
  expect .rParen "`)` to close `@save`"
  return .save reg bytes

/-- `@restore`. -/
def parseRestore : Parser Stmt := do
  expect .lParen "`(` after `@restore`"
  let reg ← expectString "restore register name"
  expect .comma "`,` after `@restore` register"
  let bytes ← parseByteList
  expect .rParen "`)` to close `@restore`"
  return .restore reg bytes

/-- `@seh_install`. -/
def parseSehInstall : Parser Stmt := do
  expect .lParen "`(` after `@seh_install`"
  let bytes ← parseByteList
  expect .rParen "`)` to close `@seh_install`"
  return .sehInstall bytes

/-- `@seh_restore`. -/
def parseSehRestore : Parser Stmt := do
  expect .lParen "`(` after `@seh_restore`"
  let bytes ← parseByteList
  expect .rParen "`)` to close `@seh_restore`"
  return .sehRestore bytes

/-- `@return_expr`. -/
def parseReturnExpr : Parser Stmt := do
  expect .lParen "`(` after `@return_expr`"
  let text ← expectString "return-expr text"
  expect .comma "`,` after return-expr text"
  let bytes ← parseByteList
  expect .rParen "`)` to close `@return_expr`"
  return .returnExpr text bytes

/-- `@arg_spill`. -/
def parseArgSpill (dirTok : Token) : Parser Stmt := do
  expect .lParen "`(` after `@arg_spill`"
  let idx ← expectInt "argument index"
  if 2 ^ 32 ≤ idx.toNat then
    failAt "argument index in 0..=u32::MAX" ("integer 0x".toList ++ toHex idx.toNat) dirTok
  else
    expect .comma "`,` after argument index"
    let bytes ← parseByteList
    expect .rParen "`)` to close `@arg_spill`"
    return .argSpill idx.toUInt32 bytes

/-- `@local_set`. -/
def parseLocalSet : Parser Stmt := do
  expect .lParen "`(` after `@local_set`"
  let slot ← expectInt "local-set slot displacement"
  expect .comma "`,` after `@local_set` slot"
  let value ← expectInt "local-set immediate value"
  expect .comma "`,` after `@local_set` value"
  let bytes ← parseByteList
  expect .rParen "`)` to close `@local_set`"
  return .localSet slot.toInt64 value.toInt64 bytes

/-- `@local_arith`. -/
def parseLocalArith : Parser Stmt := do
  expect .lParen "`(` after `@local_arith`"
  let slot ← expectInt "local-arith slot displacement"
  expect .comma "`,` after `@local_arith` slot"
  let op ← expectString "local-arith op string (e.g. \"+=\")"
  expect .comma "`,` after `@local_arith` op"
  let value ← expectInt "local-arith immediate value"
  expect .comma "`,` after `@local_arith` value"
  let bytes ← parseByteList
  expect .rParen "`)` to close `@local_arith`"
  return .localArith slot.toInt64 op value.toInt64 bytes

/-- `@local_compound`. -/
def parseLocalCompound : Parser Stmt := do
  expect .lParen "`(` after `@local_compound`"
  let dst ← expectInt "local-compound dst displacement"
  expect .comma "`,` after `@local_compound` dst"
  let op ← expectString "local-compound op string (e.g. \"+=\")"
  expect .comma "`,` after `@local_compound` op"
  let src ← expectInt "local-compound src displacement"
  expect .comma "`,` after `@local_compound` src"
  let bytes ← parseByteList
  expect .rParen "`)` to close `@local_compound`"
  return .localCompound dst.toInt64 op src.toInt64 bytes

/-- `@move`. -/
def parseMoveDirective : Parser Stmt := do
  expect .lParen "`(` after `@move`"
  let dst ← expectString "move dst operand string"
  expect .comma "`,` after `@move` dst"
  let src ← expectString "move src operand string"
  expect .comma "`,` after `@move` src"
  let bytes ← parseByteList
  expect .rParen "`)` to close `@move`"
  return .move dst src bytes

/-- `@inc16`. -/
def parseInc16 : Parser Stmt := do
  expect .lParen "`(` after `@inc16`"
  let lo ← expectString "inc16 lo operand"
  expect .comma "`,` after `@inc16` lo"
  let hi ← expectString "inc16 hi operand"
  expect .comma "`,` after `@inc16` hi"
  let bytes ← parseByteList
  expect .rParen "`)` to close `@inc16`"
  return .inc16 lo hi bytes

section Bodies

/-! ## Statements with a body -/

variable (b : Build) (bits : ℕ)

/-- The three bodies of an `if`. -/
abbrev IfBody := List Stmt × List Stmt × Option (List Stmt)

variable (list : Parser (List Stmt)) (ifBody : Parser IfBody)

/-- A body in braces. -/
def block (openLabel closeLabel : String) : Parser (List Stmt) := do
  expect .lBrace openLabel
  let body ← list
  expect .rBrace closeLabel
  return body

/-- A list of bytes behind `name=`, when the name is the next token. -/
def namedBytes {α : Type} (name : String) (label : String) (wrap : Bytes → α) (otherwise : α) :
    Parser α :=
  whenKind (.ident name.toList) (do
    let _ ← bump
    expect .eq label
    let bytes ← parseByteList
    return wrap bytes) otherwise

/-- `ensure_head_bytes`. -/
def ensureHeadBytes (cond_text : Text) (pre_body : List Stmt) (attrs : List Attribute) :
    Option (List Attribute) :=
  if pre_body.isEmpty then some attrs
  else if attrs.any (·.key = "head_bytes".toList) then some attrs
  else (X86.encodeHeadFromCondText b.checks cond_text).map fun derived =>
    attrs ++ derived.toList.map fun bytes => ⟨"head_bytes".toList, .byteList bytes⟩

/-- The `else` behind the braces of an `if`, unless there was one inside of them. -/
def parseElse (inBraces : Option (List Stmt)) : Parser (Option (List Stmt)) :=
  match inBraces with
  | some body => pure (some body)
  | none => whenKind (.ident "else".toList) (do
      let _ ← bump
      let body ← block list "`\x7b` after `else`" "`\x7d` to close `else` body"
      return some body) none

/-- The tail of an `if` that is no jump. -/
def parseIfBranchTail (cond_text : Text) : Parser Stmt := do
  let attrs ← parseAttrs
  let cond_bytes ← whenKind .lBracket parseByteList []
  expect .lBrace "`\x7b` to open `if` body"
  let (pre_body, then_body, inBraces) ← ifBody
  expect .rBrace "`\x7d` to close `if` body"
  let else_body ← parseElse list inBraces
  let attrs ← StateT.lift (orPanic (ensureHeadBytes b cond_text pre_body attrs))
  return .ifBranch cond_text cond_bytes attrs pre_body then_body else_body

/-- `parse_if_stmt`. -/
def parseIfStmt : Parser Stmt := do
  let _ ← bump
  expect .lParen "`(` after `if`"
  let cond_text ← parseParenInner
  expect .rParen "`)` to close `if` condition"
  let tok ← peek
  if tok.kind = .ident "return".toList then parseIfReturnTail cond_text
  else if tok.kind = .ident "goto".toList then parseIfGotoTail cond_text
  else parseIfBranchTail b list ifBody cond_text

/-- `parse_do_while_stmt`. -/
def parseDoWhileStmt : Parser Stmt := do
  let _ ← bump
  let entry_jmp_bytes ← namedBytes "entry" "`=` after `entry`" some none
  let body ← block list "`\x7b` to open `do` body" "`\x7d` to close `do` body"
  let tok ← peek
  match tok.kind with
  | .ident name =>
    if name = "while".toList then do
      let _ ← bump
      expect .lParen "`(` after `while`"
      let cond_text ← parseParenInner
      expect .rParen "`)` to close `while` condition"
      let tail_bytes ← parseByteList
      return .loop cond_text entry_jmp_bytes tail_bytes body
    else failAt "`while`" ("identifier ".toList ++ ticked name) tok
  | kind => failAt "`while` after do-body" (describe kind) tok

/-- `parse_ifblock_stmt`. -/
def parseIfblockStmt : Parser Stmt := do
  let _ ← bump
  expect .lParen "`(` after `ifblock`"
  let cond_text ← parseParenInner
  expect .rParen "`)` to close `ifblock` condition"
  let cond_bytes ← parseByteList
  let then_body ← block list "`\x7b` to open `ifblock` body" "`\x7d` to close `ifblock` body"
  let (then_tail_jmp, else_body) ← whenKind (.ident "else".toList) (do
    let _ ← bump
    let tail ← namedBytes "tail" "`=` after `tail`" id []
    let body ← block list "`\x7b` after `else`" "`\x7d` to close `else` body"
    return (tail, body)) ([], [])
  return .ifBlock cond_text cond_bytes then_body then_tail_jmp else_body

/-- `parse_whileblock_stmt`. -/
def parseWhileblockStmt : Parser Stmt := do
  let _ ← bump
  expect .lParen "`(` after `whileblock`"
  let cond_text ← parseParenInner
  expect .rParen "`)` to close `whileblock` condition"
  expectKeyword "entry"
  expect .eq "`=` after `entry`"
  let entry_bytes ← parseByteList
  expectKeyword "tail"
  expect .eq "`=` after `tail`"
  let tail_bytes ← parseByteList
  let body ← block list "`\x7b` to open `whileblock` body" "`\x7d` to close `whileblock` body"
  return .whileBlock cond_text entry_bytes tail_bytes body

/-- `parse_loop_directive`. -/
def parseLoopDirective : Parser Stmt := do
  expect .lParen "`(` after `@loop`"
  let entry_jmp_bytes ← whenKind (.ident "entry_jmp".toList) (do
    let _ ← bump
    expect .eq "`=` after `entry_jmp`"
    let bytes ← parseByteList
    expect .comma "`,` after `entry_jmp` bytes"
    return some bytes) none
  let cond_text ← expectString "loop cond text"
  expect .comma "`,` after loop cond text"
  let tail_bytes ← parseByteList
  expect .rParen "`)` to close `@loop` head"
  let body ← block list "`\x7b` to open `@loop` body" "`\x7d` to close `@loop` body"
  return .loop cond_text entry_jmp_bytes tail_bytes body

/-- The arms of `@if_branch`, up to the closing brace, which is taken. -/
def armsLoop : ℕ → Option (List Stmt) → Option (List Stmt) →
    Parser (Option (List Stmt) × Option (List Stmt))
  | 0, _, _ => exhausted
  | n + 1, then_body, else_body => do
    let tok ← peek
    match tok.kind with
    | .rBrace => do
      let _ ← bump
      return (then_body, else_body)
    | .eof => fail .unexpectedEof
    | .comment _ => do
      let _ ← bump
      armsLoop n then_body else_body
    | .atSign => do
      let _ ← bump
      let armTok ← peek
      let name ← expectIdent "`then` or `else` after `@`"
      if name = "then".toList then
        if then_body.isSome then
          failAt "exactly one `@then` arm" "duplicate `@then`".toList armTok
        else
          let body ← block list "`\x7b` to open `@then` arm" "`\x7d` to close `@then` arm"
          armsLoop n (some body) else_body
      else if name = "else".toList then
        if else_body.isSome then
          failAt "exactly one `@else` arm" "duplicate `@else`".toList armTok
        else
          let body ← block list "`\x7b` to open `@else` arm" "`\x7d` to close `@else` arm"
          armsLoop n then_body (some body)
      else fail (.unknownDirective name armTok.line armTok.col)
    | kind => failAt "`@then`, `@else`, or `\x7d`" (describe kind) tok

/-- `parse_if_branch_directive`. -/
def parseIfBranchDirective (dirTok : Token) : Parser Stmt := do
  expect .lParen "`(` after `@if_branch`"
  let cond_text ← expectString "if-branch cond text"
  expect .comma "`,` after if-branch cond text"
  let cond_bytes ← parseByteList
  expect .rParen "`)` to close `@if_branch` head"
  expect .lBrace "`\x7b` to open `@if_branch` body"
  let (then_body, else_body) ← bounded (armsLoop list · none none)
  match then_body with
  | some then_body => return .ifBranch cond_text cond_bytes [] [] then_body else_body
  | none => failAt "`@then` arm inside `@if_branch`" "missing `@then` arm".toList dirTok

/-- `@if_return`, which is retired. -/
def retiredIfReturn : Parser Stmt :=
  fail (.expected ("C-style `if (cond) return value;` ".toList ++
    "syntax — the legacy `@if_return(...)` directive is retired".toList)
    "`@if_return`".toList 0 0)

/-- The directives of statements, by their names. -/
def stmtDirectives (dirTok : Token) : List (String × Parser Stmt) :=
  [("asm", parseAsm), ("return", parseReturnDirective), ("prologue", parsePrologue bits),
    ("epilogue", parseEpilogue bits), ("save", parseSave), ("restore", parseRestore),
    ("seh_install", parseSehInstall), ("seh_restore", parseSehRestore),
    ("if_return", retiredIfReturn), ("return_expr", parseReturnExpr),
    ("arg_spill", parseArgSpill dirTok), ("if_branch", parseIfBranchDirective list dirTok),
    ("loop", parseLoopDirective list), ("local_set", parseLocalSet),
    ("local_arith", parseLocalArith), ("local_compound", parseLocalCompound),
    ("move", parseMoveDirective), ("inc16", parseInc16)]

/-- `parse_stmt_at_directive`. -/
def parseStmtAtDirective (name : Text) (dirTok : Token) : Parser Stmt :=
  match (stmtDirectives bits list dirTok).find? fun d => d.1.toList = name with
  | some d => d.2
  | none => fail (.unknownDirective name dirTok.line dirTok.col)

/-! ## One statement -/

variable (allowSwitch : Bool)

/-- The statements with a keyword. -/
def keywordStmts : List (String × Parser Stmt) :=
  [("if", parseIfStmt b list ifBody), ("ifblock", parseIfblockStmt list),
    ("whileblock", parseWhileblockStmt list), ("do", parseDoWhileStmt list),
    ("goto", parseGotoStmt), ("return", parseReturnStmt)] ++
    if allowSwitch then [("switch", parseSwitchStmt)] else []

/-- A statement that starts with a name. -/
def parseIdentStmt (name : Text) : Parser Stmt :=
  match (keywordStmts b list ifBody allowSwitch).find? fun k => k.1.toList = name with
  | some k => k.2
  | none => do
    let next ← kindAt 1
    if (parseLabelAddr name).isSome ∧ next = some .colon then parseLabelStmt
    else parseCallOrMoveStmt

/-- `parse_stmt_list_one`, or the loop body of `parse_stmt_list_until_rbrace`, which knows
`switch`. -/
def parseStmt : Parser Stmt := do
  let tok ← peek
  match tok.kind with
  | .eof => fail .unexpectedEof
  | .comment text => do
    let _ ← bump
    return .comment text
  | .atSign => do
    let _ ← bump
    let dirTok ← peek
    let name ← expectIdent "statement directive name"
    parseStmtAtDirective bits list name dirTok
  | .ident name => parseIdentStmt b list ifBody allowSwitch name
  | .lBracket | .lParen | .dollar => parseCallOrMoveStmt
  | kind => failAt "`@asm`, `// comment`, function call, or `\x7d`" (describe kind) tok

end Bodies

/-! ## Lists of statements -/

/-- The name of the arm `@then` or `@else` that starts at the cursor. -/
def armHere : Parser (Option Text) := do
  let tok ← peek
  let next ← kindAt 1
  return match tok.kind, next with
    | .atSign, some (.ident name) =>
      if name = "then".toList ∨ name = "else".toList then some name else none
    | _, _ => none

/-- The bodies of an `if` from the statements outside of arms and the arms. -/
def ifBodyOf (accumulated : List Stmt) (then_body else_body : Option (List Stmt)) : IfBody :=
  match then_body with
  | some then_body => (accumulated, then_body, else_body)
  | none => ([], accumulated, else_body)

mutual

/-- `parse_stmt_list_until_rbrace`, with at most `n` statements and nested bodies. -/
def stmtList (b : Build) (bits : ℕ) : ℕ → Parser (List Stmt)
  | 0 => exhausted
  | n + 1 => do
    let tok ← peek
    if tok.kind = .rBrace then return []
    else
      let s ← parseStmt b bits (stmtList b bits n) (ifBodyLoop b bits n [] none none) true
      let ss ← stmtList b bits n
      return s :: ss

/-- `parse_if_body_with_optional_arms`, behind the statements and the arms already read. -/
def ifBodyLoop (b : Build) (bits : ℕ) :
    ℕ → List Stmt → Option (List Stmt) → Option (List Stmt) → Parser IfBody
  | 0, _, _, _ => exhausted
  | n + 1, accumulated, then_body, else_body => do
    let arm ← armHere
    match arm with
    | some name => do
      let _ ← bump
      let _ ← bump
      let body ← block (stmtList b bits n) "`\x7b` to open `@then` / `@else` arm"
        "`\x7d` to close arm"
      if name = "then".toList then ifBodyLoop b bits n accumulated (some body) else_body
      else ifBodyLoop b bits n accumulated then_body (some body)
    | none => do
      let tok ← peek
      if tok.kind = .rBrace then return ifBodyOf accumulated then_body else_body
      else
        let s ← parseStmt b bits (stmtList b bits n) (ifBodyLoop b bits n [] none none) false
        ifBodyLoop b bits n (accumulated ++ [s]) then_body else_body

end

/-- `parse_stmt_list_until_rbrace`. -/
def parseStmtListUntilRbrace (b : Build) (bits : ℕ) : Parser (List Stmt) :=
  bounded (stmtList b bits)

end Parser

end Univdreams.Ud
