import Univdreams.BigEndian
import Univdreams.Text

/-!
# The expression language of lifted EVM statements

The tree of an expression, and its lexer and parser (`src/translate/compile/evm_expr.rs`). The
parser is recursive descent over the remaining tokens: ten levels of left-associative binary
operators, the unary operators, the right-associative power operator, and the primary expressions
with their indices. A budget bounds its recursion, which `parseList` makes large enough.

A text is a list of characters here and a string of bytes in the source. They differ only where the
source steps over a byte inside a string literal: a backslash in front of a character that is not
ASCII leaves the position inside that character, and the next slice panics.
-/

namespace Univdreams.Compile

open Text

/-- `UnOp`: the unary operators. -/
inductive UnOp where
  /-- `!x`. -/
  | not
  /-- `~x`. -/
  | bitNot
  /-- `-x`. -/
  | neg
  /-- `&x`, the storage slot of a storage variable. -/
  | ref
deriving DecidableEq, Repr

/-- `BinOp`: the binary operators. -/
inductive BinOp where
  | add | sub | mul | div | mod | exp | and | or | xor | shl | shr | lt | gt | le | ge | eq | ne
  | logicAnd | logicOr
deriving DecidableEq, Repr

/-- `EExpr`: a parsed expression. -/
inductive EExpr where
  /-- A big-endian constant. -/
  | num (bytes : Bytes)
  /-- An identifier, possibly dotted. -/
  | name (n : Text)
  /-- A string literal. -/
  | str (s : Text)
  | unary (op : UnOp) (x : EExpr)
  | binary (op : BinOp) (a b : EExpr)
  /-- A call of a function by its name. -/
  | call (f : Text) (args : List EExpr)
  /-- `a[b]`. -/
  | index (a b : EExpr)
deriving Repr

/-- `ParseError`: why an expression did not parse. -/
structure ParseError where
  /-- The message. -/
  message : Text
deriving DecidableEq, Repr

/-! ## Tokens -/

/-- The punctuation of the language, in the order in which the lexer tries it (`PUNCTS`). -/
inductive Punct where
  | starStar | shl | shr | le | ge | eqEq | ne | andAnd | orOr | lparen | rparen | lbracket
  | rbracket | comma | bang | tilde | minus | plus | star | slash | percent | amp | pipe | caret
  | lt | gt
deriving DecidableEq, Repr

namespace Punct

/-- `PUNCTS`. -/
def all : List Punct :=
  [.starStar, .shl, .shr, .le, .ge, .eqEq, .ne, .andAnd, .orOr, .lparen, .rparen, .lbracket,
   .rbracket, .comma, .bang, .tilde, .minus, .plus, .star, .slash, .percent, .amp, .pipe, .caret,
   .lt, .gt]

/-- The characters of a punctuation token. -/
def text : Punct → Text
  | starStar => ['*', '*']
  | shl => ['<', '<']
  | shr => ['>', '>']
  | le => ['<', '=']
  | ge => ['>', '=']
  | eqEq => ['=', '=']
  | ne => ['!', '=']
  | andAnd => ['&', '&']
  | orOr => ['|', '|']
  | lparen => ['(']
  | rparen => [')']
  | lbracket => ['[']
  | rbracket => [']']
  | comma => [',']
  | bang => ['!']
  | tilde => ['~']
  | minus => ['-']
  | plus => ['+']
  | star => ['*']
  | slash => ['/']
  | percent => ['%']
  | amp => ['&']
  | pipe => ['|']
  | caret => ['^']
  | lt => ['<']
  | gt => ['>']

end Punct

/-- `Tok`: a token. -/
inductive Tok where
  | num (bytes : Bytes)
  | ident (s : Text)
  | str (s : Text)
  | punct (p : Punct)
deriving DecidableEq, Repr

/-- The first character of an identifier. -/
def isIdentStart (c : Char) : Bool := isAsciiAlphabetic c || c == '_' || c == '$'

/-- A character of an identifier, a dot apart. -/
def isIdentChar (c : Char) : Bool := isAsciiAlphanumeric c || c == '_' || c == '$'

/-- A character of a number token. -/
def isNumberChar (c : Char) : Bool := isAsciiAlphanumeric c || c == '_'

/-- The bytes of pairs of hexadecimal digits, `none` at a character that is not a digit. -/
def hexPairs : Text → Option Bytes
  | a :: b :: rest => do
    let x ← toDigit 16 a
    let y ← toDigit 16 b
    return UInt8.ofNat (16 * x + y) :: (← hexPairs rest)
  | [a] => do return [UInt8.ofNat (← toDigit 16 a)]
  | [] => some []

/-- A little-endian accumulator times ten plus a carry. -/
def timesTen : Bytes → ℕ → Bytes
  | [], carry => (Nat.digits 256 carry).map UInt8.ofNat
  | b :: bs, carry =>
    let v := b.toNat * 10 + carry
    UInt8.ofNat (v % 256) :: timesTen bs (v / 256)

/-- The little-endian bytes of a decimal number. -/
def decimalBytes (text : Text) : Bytes :=
  text.foldl (fun le d => timesTen le (d.toNat - '0'.toNat)) []

/-- The error of a text that is not a number. -/
def badNumber (text : Text) : ParseError := ⟨"bad number `".toList ++ text ++ "`".toList⟩

/-- The bytes that the digits of a number stand for, before leading zeros are dropped. -/
def numberBytes (text : Text) : Run ParseError Bytes :=
  match (stripPrefix? text "0x".toList).orElse fun _ => stripPrefix? text "0X".toList with
  | some hex =>
    if hex.isEmpty || !hex.all (fun c => (toDigit 16 c).isSome) then fail (badNumber text)
    else match hexPairs (if hex.length % 2 = 1 then '0' :: hex else hex) with
      | some bytes => .ok bytes
      | none => fail (badNumber text)
  | none =>
    if !text.all isAsciiDigit then fail (badNumber text)
    else .ok (decimalBytes text).reverse

/-- `parse_number`: a hexadecimal or decimal number as minimal big-endian bytes, at most 32. -/
def parseNumber (text : Text) : Run ParseError Bytes := do
  let bytes ← numberBytes text
  if (stripZeros bytes).length > 32 then
    fail ⟨"constant `".toList ++ text ++ "` is wider than 256 bits".toList⟩
  else .ok (stripZeros bytes)

/-- The longest identifier at the start of a text, and the rest. It has a dot if a letter
follows. -/
def identSpan : Text → Text × Text
  | [] => ([], [])
  | c :: cs =>
    if isIdentChar c || (c == '.' && (cs.head?.map isAsciiAlphabetic).getD false) then
      (c :: (identSpan cs).1, (identSpan cs).2)
    else ([], c :: cs)

/-- A string literal from behind its opening quote on: its characters, and what is behind its
end. -/
def stringSpan : Text → Run ParseError (Text × Text)
  | [] => fail ⟨"unterminated string literal".toList⟩
  | '"' :: cs => .ok ([], cs)
  | ['\\'] => fail ⟨"unterminated string literal".toList⟩
  | '\\' :: e :: cs =>
    -- The byte behind a backslash is taken alone. Where the character has more bytes, the next
    -- slice starts inside it.
    if e.toNat < 128 then do
      let (v, rest) ← stringSpan cs
      return ((if e = 'n' then '\n' else e) :: v, rest)
    else .error .panic
  | c :: cs => do
    let (v, rest) ← stringSpan cs
    return (c :: v, rest)

/-- The token at the start of a text, if it is not white space, and what stands behind it. -/
def lexStep (c : Char) (cs : Text) : Run ParseError (Option Tok × Text) :=
  if isAsciiWhitespace c then .ok (none, cs)
  else if isAsciiDigit c then do
    let bytes ← parseNumber ((c :: cs).takeWhile isNumberChar)
    return (some (.num bytes), (c :: cs).dropWhile isNumberChar)
  else if isIdentStart c then
    .ok (some (.ident (identSpan (c :: cs)).1), (identSpan (c :: cs)).2)
  else if c = '"' then do
    let (v, rest) ← stringSpan cs
    return (some (.str v), rest)
  else match Punct.all.find? (fun p => p.text.isPrefixOf (c :: cs)) with
    | some p => .ok (some (.punct p), (c :: cs).drop p.text.length)
    | none => fail ⟨"unexpected character `".toList ++
        ((utf8 [c]).head?.map fun b => Char.ofNat b.toNat).toList ++ "`".toList⟩

/-- The loop of `lex`, with a budget for its rounds. -/
def lexLoop : ℕ → Text → Run ParseError (List Tok)
  | _, [] => .ok []
  | 0, _ :: _ => .error .panic
  | n + 1, c :: cs => do
    let (tok, rest) ← lexStep c cs
    let toks ← lexLoop n rest
    return tok.toList ++ toks

/-- `lex`. Each round takes at least one character. -/
def lex (text : Text) : Run ParseError (List Tok) := lexLoop text.length text

/-! ## The parser -/

/-- `LEVELS`: the binary operators by level, the loosest first. -/
def levels : List (List (Punct × BinOp)) :=
  [[(.orOr, .logicOr)],
   [(.andAnd, .logicAnd)],
   [(.eqEq, .eq), (.ne, .ne)],
   [(.le, .le), (.ge, .ge), (.lt, .lt), (.gt, .gt)],
   [(.pipe, .or)],
   [(.caret, .xor)],
   [(.amp, .and)],
   [(.shl, .shl), (.shr, .shr)],
   [(.plus, .add), (.minus, .sub)],
   [(.star, .mul), (.slash, .div), (.percent, .mod)]]

/-- `Parser::eat`: what stands behind the token `p`, if it is next. -/
def eat (p : Punct) : List Tok → Option (List Tok)
  | .punct q :: rest => if q = p then some rest else none
  | _ => none

/-- `Parser::expect`. -/
def expect (p : Punct) (toks : List Tok) : Run ParseError (List Tok) :=
  match eat p toks with
  | some rest => .ok rest
  | none => fail ⟨"expected `".toList ++ p.text ++ "`".toList⟩

/-- The first operator of a level that is next, and what stands behind it. -/
def eatOp : List (Punct × BinOp) → List Tok → Option (BinOp × List Tok)
  | [], _ => none
  | (p, op) :: ops, toks => match eat p toks with
    | some rest => some (op, rest)
    | none => eatOp ops toks

/-- The unary operator that is next, and what stands behind it. -/
def eatUnOp (toks : List Tok) : Option (UnOp × List Tok) :=
  match toks with
  | .punct .bang :: rest => some (.not, rest)
  | .punct .tilde :: rest => some (.bitNot, rest)
  | .punct .minus :: rest => some (.neg, rest)
  | .punct .amp :: rest => some (.ref, rest)
  | _ => none

/-- A parse of a part of the remaining tokens. -/
abbrev Parse := Run ParseError (EExpr × List Tok)

mutual

/-- `Parser::binary`. -/
def binary : ℕ → ℕ → List Tok → Parse
  | 0, _, _ => .error .panic
  | n + 1, level, toks => match levels[level]? with
    | none => unary n toks
    | some ops => do
      let (lhs, rest) ← binary n (level + 1) toks
      binaryLoop n level ops lhs rest

/-- The loop of `Parser::binary`: the operators of one level, from the left. -/
def binaryLoop : ℕ → ℕ → List (Punct × BinOp) → EExpr → List Tok → Parse
  | 0, _, _, _, _ => .error .panic
  | n + 1, level, ops, lhs, toks => match eatOp ops toks with
    | some (op, rest) => do
      let (rhs, rest) ← binary n (level + 1) rest
      binaryLoop n level ops (.binary op lhs rhs) rest
    | none => .ok (lhs, toks)

/-- `Parser::unary`. -/
def unary : ℕ → List Tok → Parse
  | 0, _ => .error .panic
  | n + 1, toks => match eatUnOp toks with
    | some (op, rest) => do
      let (x, rest) ← unary n rest
      return (.unary op x, rest)
    | none => power n toks

/-- `Parser::power`. -/
def power : ℕ → List Tok → Parse
  | 0, _ => .error .panic
  | n + 1, toks => do
    let (base, rest) ← indexed n toks
    match eat .starStar rest with
    | some rest => do
      let (exp, rest) ← unary n rest
      return (.binary .exp base exp, rest)
    | none => .ok (base, rest)

/-- `Parser::postfix`. -/
def indexed : ℕ → List Tok → Parse
  | 0, _ => .error .panic
  | n + 1, toks => do
    let (e, rest) ← primary n toks
    indexLoop n e rest

/-- The loop of `Parser::postfix`: the indices behind a primary expression. -/
def indexLoop : ℕ → EExpr → List Tok → Parse
  | 0, _, _ => .error .panic
  | n + 1, e, toks => match eat .lbracket toks with
    | some rest => do
      let (idx, rest) ← binary n 0 rest
      let rest ← expect .rbracket rest
      indexLoop n (.index e idx) rest
    | none => .ok (e, toks)

/-- `Parser::primary`. -/
def primary : ℕ → List Tok → Parse
  | 0, _ => .error .panic
  | _ + 1, [] => fail ⟨"unexpected end of expression".toList⟩
  | _ + 1, .num b :: rest => .ok (.num b, rest)
  | _ + 1, .str s :: rest => .ok (.str s, rest)
  | n + 1, .ident name :: rest => match eat .lparen rest with
    | none => .ok (.name name, rest)
    | some rest => match eat .rparen rest with
      | some rest => .ok (.call name [], rest)
      | none => do
        let (args, rest) ← arguments n rest
        return (.call name args, rest)
  | n + 1, .punct .lparen :: rest => do
    let (e, rest) ← binary n 0 rest
    let rest ← expect .rparen rest
    return (e, rest)
  | _ + 1, .punct p :: _ => fail ⟨"unexpected `".toList ++ p.text ++ "`".toList⟩

/-- The loop over the arguments of a call, from behind the opening parenthesis on. -/
def arguments : ℕ → List Tok → Run ParseError (List EExpr × List Tok)
  | 0, _ => .error .panic
  | n + 1, toks => do
    let (e, rest) ← binary n 0 toks
    match eat .rparen rest with
    | some rest => return ([e], rest)
    | none => do
      let rest ← expect .comma rest
      let (args, rest) ← arguments n rest
      return (e :: args, rest)

end

/-- A budget that no parse of the tokens exhausts: every twenty calls take a token. -/
def parseBudget (toks : List Tok) : ℕ := 20 * (toks.length + 1)

/-- The loop of `parse_list` over the expressions behind a comma. -/
def parseListLoop : ℕ → List Tok → Run ParseError (List EExpr × List Tok)
  | 0, _ => .error .panic
  | n + 1, toks => match eat .comma toks with
    | some rest => do
      let (e, rest) ← binary (parseBudget rest) 0 rest
      let (es, rest) ← parseListLoop n rest
      return (e :: es, rest)
    | none => .ok ([], toks)

/-- `parse_list`: a comma-separated list of expressions. -/
def parseList (text : Text) : Run ParseError (List EExpr) := do
  let toks ← lex text
  if toks.isEmpty then return []
  let (e, rest) ← binary (parseBudget toks) 0 toks
  let (es, rest) ← parseListLoop (rest.length + 1) rest
  if rest.isEmpty then return e :: es
  fail ⟨"unexpected trailing input in `".toList ++ (Text.trim text).take 60 ++ "`".toList⟩

/-- `parse_expr`: one expression. -/
def parseExpr (text : Text) : Run ParseError EExpr := do
  match ← parseList text with
  | [e] => return e
  | list => fail ⟨"expected one expression, found ".toList ++ Text.toDec list.length⟩

end Univdreams.Compile
