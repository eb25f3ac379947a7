import Mathlib

/-!
# Texts

A text is the list of the characters of a string. The operations are those of Rust's `str` and
`char`, over characters and not over bytes, and the number formats are those of its formatting and
of `from_str_radix`.
-/

namespace Univdreams

/-- A text: the characters of a string. -/
abbrev Text := List Char

namespace Text

/-! ## Numbers -/

/-- The digit with the value `d`, in lower case. -/
def digitChar (d : ℕ) : Char :=
  if d < 10 then Char.ofNat (48 + d) else Char.ofNat (87 + d)

/-- `{n:x}`: the number in lower-case hexadecimal. -/
def toHex (n : ℕ) : Text :=
  if n = 0 then ['0'] else ((Nat.digits 16 n).map digitChar).reverse

/-- `{n}`: the number in decimal. -/
def toDec (n : ℕ) : Text :=
  if n = 0 then ['0'] else ((Nat.digits 10 n).map digitChar).reverse

/-- `{n}` for a signed number. -/
def intToDec (n : ℤ) : Text := if n < 0 then '-' :: toDec n.natAbs else toDec n.natAbs

variable (radix : ℕ) (s : Text) (c : Char)

/-- `c.to_digit(radix)`. -/
def toDigit : Option ℕ :=
  let d :=
    if '0' ≤ c ∧ c ≤ '9' then c.toNat - 48
    else if 'a' ≤ c ∧ c ≤ 'z' then c.toNat - 87
    else if 'A' ≤ c ∧ c ≤ 'Z' then c.toNat - 55
    else radix
  if d < radix then some d else none

/-- The number with the given digits, when all of them are digits. -/
def ofDigitChars (radix acc : ℕ) : Text → Option ℕ
  | [] => some acc
  | c :: cs => do
    let d ← toDigit radix c
    ofDigitChars radix (acc * radix + d) cs

/-- `uN::from_str_radix(s, radix)`, with `limit` values of the type. A `+` is accepted in front. -/
def fromStrRadix (limit radix : ℕ) (s : Text) : Option ℕ := do
  let digits := match s with
    | '+' :: cs => cs
    | cs => cs
  if digits = [] then none
  else
    let n ← ofDigitChars radix 0 digits
    if n < limit then some n else none

/-- `i64::from_str_radix(s, radix)`, and `s.parse::<i64>()` for ten digits. -/
def i64FromStrRadix : Option ℤ :=
  match s with
  | '-' :: cs => do
    let n ← if cs.head? = some '+' then none else fromStrRadix (2 ^ 63 + 1) radix cs
    return -(n : ℤ)
  | cs => (fromStrRadix (2 ^ 63) radix cs).map Int.ofNat

/-! ## Characters and parts of a text -/

/-- `c.is_whitespace()`: the characters with the Unicode property `White_Space`. -/
def isWhitespace : Bool :=
  (9 ≤ c.toNat && c.toNat ≤ 13) || c.toNat == 0x20 || c.toNat == 0x85 || c.toNat == 0xa0 ||
    c.toNat == 0x1680 || (0x2000 ≤ c.toNat && c.toNat ≤ 0x200a) || c.toNat == 0x2028 ||
    c.toNat == 0x2029 || c.toNat == 0x202f || c.toNat == 0x205f || c.toNat == 0x3000

/-- `c.is_ascii_whitespace()`. -/
def isAsciiWhitespace : Bool :=
  c == ' ' || c == '\t' || c == '\n' || c == '\r' || c.toNat == 12

/-- `c.is_ascii_digit()`. -/
def isAsciiDigit : Bool := '0' ≤ c && c ≤ '9'

/-- `c.is_ascii_alphabetic()`. -/
def isAsciiAlphabetic : Bool := ('a' ≤ c && c ≤ 'z') || ('A' ≤ c && c ≤ 'Z')

/-- `c.is_ascii_alphanumeric()`. -/
def isAsciiAlphanumeric : Bool := isAsciiAlphabetic c || isAsciiDigit c

/-- `c.is_ascii_graphic()`. -/
def isAsciiGraphic : Bool := 0x21 ≤ c.toNat && c.toNat ≤ 0x7e

/-- `c.is_control()`: the characters of the Unicode category `Cc`. -/
def isControl : Bool := c.toNat < 0x20 || (0x7f ≤ c.toNat && c.toNat ≤ 0x9f)

/-- `s.trim_start()`. -/
def trimStart : Text := s.dropWhile isWhitespace

/-- `s.trim_end()`. -/
def trimEnd : Text := s.rdropWhile isWhitespace

/-- `s.trim()`. -/
def trim : Text := trimEnd (trimStart s)

/-- `s.to_ascii_lowercase()`. -/
def toAsciiLowercase : Text := s.map Char.toLower

/-- `s.to_ascii_uppercase()`. -/
def toAsciiUppercase : Text := s.map Char.toUpper

/-- `s.strip_prefix(head)`. -/
def stripPrefix? (s head : Text) : Option Text :=
  if head <+: s then some (s.drop head.length) else none

/-- `s.strip_suffix(tail)`. -/
def stripSuffix? (s tail : Text) : Option Text :=
  if tail <:+ s then some (s.take (s.length - tail.length)) else none

/-- What stands before and behind the first place at which `pat` occurs, where `s.find(pat)` is. -/
def splitAtFirst (pat : Text) : Text → Option (Text × Text)
  | [] => if pat = [] then some ([], []) else none
  | c :: cs =>
    if pat <+: c :: cs then some ([], (c :: cs).drop pat.length)
    else (splitAtFirst pat cs).map fun p => (c :: p.1, p.2)

/-- What stands before and behind the last place at which `pat` occurs, where `s.rfind(pat)` is. -/
def splitAtLast (pat : Text) : Text → Option (Text × Text)
  | [] => if pat = [] then some ([], []) else none
  | c :: cs => match splitAtLast pat cs with
    | some p => some (c :: p.1, p.2)
    | none => if pat <+: c :: cs then some ([], (c :: cs).drop pat.length) else none

/-! ## UTF-8 -/

/-- The UTF-8 bytes of a text. -/
def utf8 : List UInt8 := s.flatMap String.utf8EncodeChar

/-- `str::from_utf8`: the text with the given UTF-8 bytes, when they are well formed. -/
def fromUtf8 (bytes : List UInt8) : Option Text :=
  bytes.toByteArray.utf8Decode?.map Array.toList

/-- A text that was read from bytes has these bytes. -/
theorem utf8_of_fromUtf8 {bytes : List UInt8} {s : Text} (h : fromUtf8 bytes = some s) :
    utf8 s = bytes := by
  obtain ⟨chars, hchars, rfl⟩ := Option.map_eq_some_iff.1 h
  have hback : chars.toList.utf8Encode = bytes.toByteArray := by
    have hsome : bytes.toByteArray.utf8Decode?.isSome = true := by rw [hchars]; rfl
    have hget : bytes.toByteArray.utf8Decode?.get hsome = chars := by simp [hchars]
    rw [← hget]
    exact ByteArray.utf8Encode_get_utf8Decode?
  have hlist := congrArg (fun b => b.data.toList) hback
  simpa [utf8, List.utf8Encode, List.data_toByteArray] using hlist

end Text

end Univdreams
