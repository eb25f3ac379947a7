import Univdreams.Bytes
import Univdreams.Text

/-!
# The tokens of a `.ud` text

The lexer of `src/translate/compile/lexer.rs`. White space separates tokens and is dropped, and a
line comment is a token of its own, since the parser keeps comments.

A token of the source has the offsets of its first character and of the place behind its last one,
from which the parser cuts texts out of the input. A place is kept here as the text from it on, so
that the tokens of a piece of text do not depend on what stands before it; the text between two
places is `cut`. Lines and columns count without a bound.
-/

namespace Univdreams.Ud

open Text

/-- `TokenKind`. -/
inductive TokenKind where
  | lBrace
  | rBrace
  | lParen
  | rParen
  | lBracket
  | rBracket
  | comma
  | colon
  | atSign
  | arrow
  | lt
  | gt
  | eq
  | hash
  | dollar
  | semicolon
  | plus
  | star
  | slash
  | percent
  | ampersand
  | pipe
  | caret
  | tilde
  | dot
  | bang
  | minus
  | ident (name : Text)
  | string (s : Text)
  | int (n : UInt64)
  /-- A number too wide for 64 bits, kept as its text. -/
  | bigInt (text : Text)
  | comment (text : Text)
  | eof
  deriving DecidableEq, Repr

/-- A position in the input, as it is shown to a reader. -/
structure Pos where
  line : ℕ
  col : ℕ
  deriving DecidableEq, Repr

variable (pos : Pos) (c : Char)

/-- The position behind a character. -/
def Pos.bump : Pos :=
  if c = '\n' then ⟨pos.line + 1, 1⟩ else ⟨pos.line, pos.col + 1⟩

/-- The position behind a text. -/
def Pos.after (text : Text) : Pos := text.foldl Pos.bump pos

/-- `Token`. `start` and `stop` are the texts from its first character and from behind its last one
on. -/
structure Token where
  kind : TokenKind
  line : ℕ
  col : ℕ
  start : Text
  stop : Text
  deriving DecidableEq, Repr

/-- `src[a..b]` for two places of the input. -/
def cut (a b : Text) : Text := a.take (a.length - b.length)

/-- `LexError`. -/
inductive LexError where
  | unexpectedChar (ch : Char) (pos : Pos)
  | unterminatedString (pos : Pos)
  | invalidEscape (ch : Char) (pos : Pos)
  | invalidNumber (text : Text) (pos : Pos) (reason : String)
  deriving DecidableEq, Repr

/-! ## Names, numbers, strings -/

/-- `is_ident_start`. -/
def isIdentStart : Bool := c == '_' || isAsciiAlphabetic c

/-- `is_ident_continue`. -/
def isIdentContinue : Bool := c == '_' || c == '.' || isAsciiAlphanumeric c

/-- A character of a number behind its first one. -/
def isNumberContinue (radix : ℕ) (c : Char) : Bool := c == '_' || (toDigit radix c).isSome

/-- The message of the error of `u64::from_str_radix` for digits that are not a word. -/
def parseIntMessage (body : Text) : String :=
  if body = [] then "cannot parse integer from empty string"
  else "number too large to fit in target type"

/-- The token of the number with the given text, radix and digits. -/
def numberKind (negative : Bool) (radix : ℕ) (text body : Text) : Except LexError TokenKind :=
  match fromStrRadix (2 ^ 64) radix body with
  | some n => .ok (.int (if negative then -UInt64.ofNat n else UInt64.ofNat n))
  | none =>
    if negative = false ∧ body ≠ [] ∧ body.length ≤ (if radix = 16 then 64 else 78) then
      .ok (.bigInt text)
    else .error (.invalidNumber text pos (parseIntMessage body))

/-- `read_number`, behind a sign when there is one: `first` is the first digit. -/
def readNumber (negative : Bool) (first : Char) (cs : Text) : Except LexError (TokenKind × Text) :=
  let sign := if negative then ['-'] else []
  if first = '0' ∧ (cs.head? = some 'x' ∨ cs.head? = some 'X') then do
    let digits := cs.tail.takeWhile (isNumberContinue 16)
    let text := sign ++ first :: cs.take 1 ++ digits
    let kind ← numberKind pos negative 16 text (digits.filter (· ≠ '_'))
    return (kind, cs.tail.dropWhile (isNumberContinue 16))
  else do
    let digits := first :: cs.takeWhile (isNumberContinue 10)
    let kind ← numberKind pos negative 10 (sign ++ digits) (digits.filter (· ≠ '_'))
    return (kind, cs.dropWhile (isNumberContinue 10))

/-- The character of an escape with one letter. -/
def escapeOf : Char → Option Char
  | '"' => some '"'
  | '\\' => some '\\'
  | 'n' => some '\n'
  | 't' => some '\t'
  | 'r' => some '\r'
  | '0' => some '\x00'
  | _ => none

/-- The character of an escape `\xab`. -/
def hexEscape (a b : Char) : Except LexError Char :=
  match fromStrRadix (2 ^ 32) 16 [a, b] with
  | none => .error (.invalidEscape a pos)
  | some n => if n.isValidChar then .ok (Char.ofNat n) else .error (.invalidEscape 'x' pos)

/-- Put a character in front of the text that was read. -/
def pushChar (read : Text × Text) : Text × Text := (c :: read.1, read.2)

/-- `read_string`: the text of the literal at `start` and what is left, where `pos` is reached. -/
def readString (start pos : Pos) : Text → Except LexError (Text × Text)
  | [] => .error (.unterminatedString start)
  | c :: cs =>
    if c = '"' then .ok ([], cs)
    else if c = '\\' then
      match cs with
      | [] => .error (.unterminatedString start)
      | e :: cs =>
        match escapeOf e with
        | some d => (readString start ((pos.bump c).bump e) cs).map (pushChar d)
        | none =>
          if e = 'x' then
            match cs with
            | a :: b :: cs => do
              let d ← hexEscape (pos.bump c) a b
              (readString start ((((pos.bump c).bump e).bump a).bump b) cs).map (pushChar d)
            | _ => .error (.unterminatedString start)
          else .error (.invalidEscape e (pos.bump c))
    else (readString start (pos.bump c) cs).map (pushChar c)

/-! ## Tokens -/

/-- The tokens that one character makes, whatever follows it. -/
def singleKind : Char → Option TokenKind
  | '{' => some .lBrace
  | '}' => some .rBrace
  | '(' => some .lParen
  | ')' => some .rParen
  | '[' => some .lBracket
  | ']' => some .rBracket
  | ',' => some .comma
  | ':' => some .colon
  | '@' => some .atSign
  | '<' => some .lt
  | '>' => some .gt
  | '=' => some .eq
  | '#' => some .hash
  | '$' => some .dollar
  | ';' => some .semicolon
  | '+' => some .plus
  | '*' => some .star
  | '&' => some .ampersand
  | '|' => some .pipe
  | '^' => some .caret
  | '~' => some .tilde
  | '.' => some .dot
  | '!' => some .bang
  | '%' => some .percent
  | _ => none

/-- The token that starts with `c`, and what is left behind it. -/
def lexKind (cs : Text) : Except LexError (TokenKind × Text) :=
  match singleKind c with
  | some kind => .ok (kind, cs)
  | none =>
    if c = '-' then
      match cs with
      | [] => .ok (.minus, cs)
      | d :: ds =>
        if d = '>' then .ok (.arrow, ds)
        else if isAsciiDigit d then readNumber pos true d ds
        else .ok (.minus, cs)
    else if c = '/' then
      if cs.head? = some '/' then
        .ok (.comment (trimStart (cs.tail.takeWhile (· ≠ '\n'))), cs.tail.dropWhile (· ≠ '\n'))
      else .ok (.slash, cs)
    else if c = '"' then do
      let (text, rest) ← readString pos (pos.bump c) cs
      return (.string text, rest)
    else if isAsciiDigit c then readNumber pos false c cs
    else if isIdentStart c then
      .ok (.ident (c :: cs.takeWhile isIdentContinue), cs.dropWhile isIdentContinue)
    else .error (.unexpectedChar c pos)

/-- `Lexer`: the position that is reached and the input from it on. -/
structure Lexer where
  pos : Pos
  rest : Text
  deriving DecidableEq, Repr

namespace Lexer

/-- `Lexer::new`. -/
def new (src : Text) : Lexer := ⟨⟨1, 1⟩, src⟩

/-- `skip_whitespace`. -/
def skipWhitespace (l : Lexer) : Lexer :=
  ⟨l.pos.after (l.rest.takeWhile isWhitespace), l.rest.dropWhile isWhitespace⟩

/-- `next_token` behind the white space. -/
def tokenHere (l : Lexer) : Except LexError (Token × Lexer) :=
  match l.rest with
  | [] => .ok (⟨.eof, l.pos.line, l.pos.col, [], []⟩, l)
  | c :: cs => do
    let (kind, left) ← lexKind l.pos c cs
    return (⟨kind, l.pos.line, l.pos.col, l.rest, left⟩, ⟨l.pos.after (cut l.rest left), left⟩)

/-- `next_token`. -/
def nextToken (l : Lexer) : Except LexError (Token × Lexer) := l.skipWhitespace.tokenHere

/-- The loop of `tokenize`. Every token but the last takes a character. -/
def tokenizeLoop : ℕ → Lexer → Except LexError (List Token)
  | 0, _ => .ok []
  | n + 1, l => do
    let (tok, l) ← l.nextToken
    if tok.kind = .eof then return [tok]
    else
      let toks ← tokenizeLoop n l
      return tok :: toks

end Lexer

/-- `tokenize`. -/
def tokenize (input : Text) : Except LexError (List Token) :=
  (Lexer.new input).tokenizeLoop (input.length + 1)

end Univdreams.Ud
