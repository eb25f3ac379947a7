import Univdreams.Ast
import Univdreams.Ud.Lexer

/-!
# The parser: tokens, lists and types

The parts of `src/translate/compile/parser.rs` that the statements share. A parser goes through the
tokens with a cursor. Its loops and its recursion are bounded by a number of rounds, one more than
the tokens that are left. That this is enough for what the printer writes is part of the round
trips.
-/

namespace Univdreams.Ud

open Ast
open Text

/-- `ParseError`. -/
inductive ParseError where
  | lex (e : LexError)
  | expected (expected got : Text) (line col : ℕ)
  | unknownDirective (name : Text) (line col : ℕ)
  | unexpectedEof
  deriving DecidableEq, Repr

/-- The position in the tokens: those that are left, and the line of the one before them. -/
structure Cursor where
  prev : ℕ
  rest : List Token
  deriving DecidableEq, Repr

/-- A parser. -/
abbrev Parser (α : Type) := StateT Cursor (Run ParseError) α

/-- A name in backticks. -/
def ticked (name : Text) : Text := '`' :: name ++ ['`']

/-- `describe`. -/
def describe : TokenKind → Text
  | .lBrace => ticked ['{']
  | .rBrace => ticked ['}']
  | .lParen => ticked ['(']
  | .rParen => ticked [')']
  | .lBracket => ticked ['[']
  | .rBracket => ticked [']']
  | .comma => ticked [',']
  | .colon => ticked [':']
  | .atSign => ticked ['@']
  | .arrow => ticked ['-', '>']
  | .lt => ticked ['<']
  | .gt => ticked ['>']
  | .eq => ticked ['=']
  | .hash => ticked ['#']
  | .dollar => ticked ['$']
  | .semicolon => ticked [';']
  | .plus => ticked ['+']
  | .star => ticked ['*']
  | .ampersand => ticked ['&']
  | .pipe => ticked ['|']
  | .caret => ticked ['^']
  | .tilde => ticked ['~']
  | .dot => ticked ['.']
  | .bang => ticked ['!']
  | .minus => ticked ['-']
  | .slash => ticked ['/']
  | .percent => ticked ['%']
  | .ident n => "identifier ".toList ++ ticked n
  | .string _ => "a string literal".toList
  | .int n => "integer 0x".toList ++ toHex n.toNat
  | .bigInt t => "integer ".toList ++ t ++ " (wider than 64 bits)".toList
  | .comment _ => "a comment".toList
  | .eof => "end of input".toList

namespace Parser

variable {α : Type} (kind : TokenKind) (label : String)

/-! ## Single tokens -/

/-- Fail with an error. -/
def fail (e : ParseError) : Parser α := fun _ => .error (.err e)

/-- Fail at a token, which is described in the message. -/
def failAt (got : Text) (tok : Token) : Parser α :=
  fail (.expected label.toList got tok.line tok.col)

/-- The bound on the rounds of a loop is used up. -/
def exhausted : Parser α := fun _ => .error .panic

/-- `peek`. -/
def peek : Parser Token := fun c =>
  match c.rest with
  | [] => .error .panic
  | t :: _ => .ok (t, c)

/-- The kind of the token `i` tokens behind the next one. -/
def kindAt (i : ℕ) : Parser (Option TokenKind) := fun c => .ok (c.rest[i]?.map Token.kind, c)

/-- `bump`. The last token is never left. -/
def bump : Parser Token := fun c =>
  match c.rest with
  | [] => .error .panic
  | [t] => .ok (t, c)
  | t :: ts => .ok (t, ⟨t.line, ts⟩)

/-- `eat_kind`. -/
def eatKind : Parser Bool := do
  let tok ← peek
  if tok.kind = kind then do
    let _ ← bump
    return true
  else return false

/-- `expect`. -/
def expect : Parser Unit := do
  let tok ← peek
  if tok.kind = kind then do
    let _ ← bump
    return ()
  else failAt label (describe tok.kind) tok

/-- `expect_ident`. -/
def expectIdent : Parser Text := do
  let tok ← peek
  match tok.kind with
  | .ident name => do
    let _ ← bump
    return name
  | kind => failAt label (describe kind) tok

/-- `expect_string`. -/
def expectString : Parser Text := do
  let tok ← peek
  match tok.kind with
  | .string s => do
    let _ ← bump
    return s
  | kind => failAt label (describe kind) tok

/-- `expect_int`. -/
def expectInt : Parser UInt64 := do
  let tok ← peek
  match tok.kind with
  | .int n => do
    let _ ← bump
    return n
  | kind => failAt label (describe kind) tok

/-- `expect_keyword`. -/
def expectKeyword (kw : String) : Parser Unit := do
  let tok ← peek
  if tok.kind = .ident kw.toList then do
    let _ ← bump
    return ()
  else fail (.expected (ticked kw.toList) (describe tok.kind) tok.line tok.col)

/-- Run `p` when the next token has the given kind. -/
def whenKind (p : Parser α) (otherwise : α) : Parser α := do
  let tok ← peek
  if tok.kind = kind then p else return otherwise

/-- Two parsers, one behind the other, succeed when the first does and the second does behind it. -/
theorem bind_eq_ok {α β : Type} {p : Parser α} {f : α → Parser β} {c : Cursor} {r : β × Cursor} :
    (p >>= f) c = .ok r ↔ ∃ a c', p c = .ok (a, c') ∧ f a c' = .ok r := by
  constructor
  · intro h
    obtain ⟨⟨a, c'⟩, hp, hf⟩ := Run.bind_eq_ok.1 h
    exact ⟨a, c', hp, hf⟩
  · rintro ⟨a, c', hp, hf⟩
    exact Run.bind_eq_ok.2 ⟨(a, c'), hp, hf⟩

/-- `peek` succeeds on the next token and stays where it is. -/
theorem peek_eq_ok {c c' : Cursor} {tok : Token} :
    peek c = .ok (tok, c') ↔ c.rest.head? = some tok ∧ c' = c := by
  unfold peek
  cases c.rest with
  | nil => simp
  | cons t ts => simp [eq_comm]

/-! ## Loops -/

/-- Elements with commas between them, and possibly one behind the last when `close` follows. -/
def commaLoop {α : Type} (p : Parser α) (close : TokenKind → Bool) : ℕ → Parser (List α)
  | 0 => exhausted
  | n + 1 => do
    let x ← p
    if ← eatKind .comma then
      let tok ← peek
      if close tok.kind then return [x]
      else
        let xs ← commaLoop p close n
        return x :: xs
    else return [x]

/-- Run a loop with as many rounds as there are tokens. -/
def bounded (loop : ℕ → Parser α) : Parser α := fun c => loop (c.rest.length + 1) c

/-- The elements of a bracketed list, which may be empty. -/
def bracketItems (p : Parser α) : Parser (List α) := do
  let tok ← peek
  if tok.kind = .rBracket then return [] else bounded (commaLoop p (· == .rBracket))

/-! ## Lists of bytes, attributes -/

/-- A number that is a byte. -/
def byteValue : Parser UInt8 := do
  let tok ← peek
  let n ← expectInt "byte value (0..=255)"
  if 0xff < n then failAt "byte value (0..=255)" ("integer 0x".toList ++ toHex n.toNat) tok
  else return n.toUInt8

/-- `parse_byte_list`. -/
def parseByteList : Parser Bytes := do
  expect .lBracket "`[` to open byte list"
  let out ← bracketItems byteValue
  expect .rBracket "`]` to close byte list"
  return out

/-- `parse_attr_value`. -/
def parseAttrValue : Parser AttrValue := do
  let tok ← peek
  match tok.kind with
  | .string s => do
    let _ ← bump
    return .string s
  | .int n => do
    let _ ← bump
    return .int n
  | .lBracket => do
    let bytes ← parseByteList
    return .byteList bytes
  | kind => failAt "an attribute value (string, integer, or `[bytes]`)" (describe kind) tok

/-- An attribute inside of its list. -/
def parseAttr : Parser Attribute := do
  let key ← expectIdent "attribute key"
  let tok ← peek
  if tok.kind = .comma ∨ tok.kind = .rBracket then return ⟨key, .flag⟩
  else
    expect .eq "`=` after attribute key"
    let value ← parseAttrValue
    return ⟨key, value⟩

/-- `parse_attrs`. -/
def parseAttrs : Parser (List Attribute) := whenKind .hash (do
  expect .hash "`#` to open attribute list"
  expect .lBracket "`[` after `#`"
  let out ← bracketItems parseAttr
  expect .rBracket "`]` to close attribute list"
  return out) []

/-- `parse_register_list`. -/
def parseRegisterList : Parser (List Text) := do
  expect .lBracket "`[` to open register list"
  let out ← bracketItems (expectIdent "register name")
  expect .rBracket "`]` to close register list"
  return out

/-! ## Types -/

/-- The type with a name, when that has no parameters. -/
def primitiveType (name : Text) : Option Ty :=
  [("void".toList, Ty.void), ("i8".toList, .i8), ("i16".toList, .i16), ("i32".toList, .i32),
    ("i64".toList, .i64), ("u8".toList, .u8), ("u16".toList, .u16), ("u32".toList, .u32),
    ("u64".toList, .u64), ("f32".toList, .f32), ("f64".toList, .f64), ("bool".toList, .bool),
    ("char".toList, .char), ("unknown".toList, .unknown)].lookup name

/-- `parse_type`. -/
def typeLoop : ℕ → Parser Ty
  | 0 => exhausted
  | n + 1 => do
    let tok ← peek
    let name ← expectIdent "type name"
    match primitiveType name with
    | some t => return t
    | none =>
      if name = "ptr".toList then do
        expect .lt "`<` after `ptr`"
        let inner ← typeLoop n
        expect .gt "`>` to close `ptr<…>`"
        return .pointer inner
      else
        failAt "a type (void, iN, uN, fN, bool, char, ptr<…>, unknown)"
          ("identifier ".toList ++ ticked name) tok

@[inherit_doc typeLoop]
def parseType : Parser Ty := bounded typeLoop

/-! ## Texts that are cut out of the input -/

/-- The loop of `parse_paren_inner`, inside of `depth` brackets: the place of the closing
parenthesis. -/
def parenLoop : ℕ → ℕ → Parser Text
  | 0, _ => exhausted
  | n + 1, depth => do
    let tok ← peek
    match tok.kind with
    | .lParen | .lBracket => do
      let _ ← bump
      parenLoop n (depth + 1)
    | .rParen =>
      if depth = 0 then return tok.start
      else
        let _ ← bump
        parenLoop n (depth - 1)
    | .rBracket => do
      let _ ← bump
      parenLoop n (depth - 1)
    | .eof => fail .unexpectedEof
    | _ => do
      let _ ← bump
      parenLoop n depth

/-- The text from `start` to the closing parenthesis. -/
def parenText (start : Text) : Parser Text := do
  let stop ← bounded (parenLoop · 0)
  return (cut start stop).trim

/-- `parse_paren_inner`. A string literal that is the whole text stands for its value. -/
def parseParenInner : Parser Text := do
  let tok ← peek
  match tok.kind with
  | .rParen => return []
  | .string s => do
    let _ ← bump
    let next ← peek
    if next.kind = .rParen then return s else parenText tok.start
  | _ => parenText tok.start

/-- The loop of `parse_until_semicolon` and its variant: the place of the first token where `stop`
holds. -/
def untilPlace (stop : TokenKind → Bool) : ℕ → Parser Text
  | 0 => exhausted
  | n + 1 => do
    let tok ← peek
    if stop tok.kind then return tok.start
    else if tok.kind = .eof then fail .unexpectedEof
    else
      let _ ← bump
      untilPlace stop n

/-- The text up to the first token at which `stop` holds. -/
def textUntil (stop : TokenKind → Bool) : Parser Text := do
  let tok ← peek
  let place ← bounded (untilPlace stop)
  return (cut tok.start place).trim

/-- `parse_until_semicolon`. -/
def parseUntilSemicolon : Parser Text := textUntil (· == .semicolon)

/-- `parse_until_semicolon_or_attr`. -/
def parseUntilSemicolonOrAttr : Parser Text := textUntil fun k => k == .semicolon || k == .hash

end Parser

end Univdreams.Ud
