import Univdreams.Arch.EncodeText
import Univdreams.Ast
import Univdreams.Ud.Lexer

/-!
# The printer

The statements without a nested body and the types of `src/ast/emit.rs`. Names and comments are
written as they are, strings are quoted, and the texts of operands and arguments are written bare
where the printer takes them for safe, and quoted elsewhere.
-/

namespace Univdreams.Ud

open Ast
open Text

/-- What a build decides: whether an overflow panics, and which characters beyond ASCII `{:?}`
escapes. -/
structure Build where
  checks : Bool
  unprintable : Char → Bool

/-! ## Numbers, strings and lists -/

/-- `0x{n:x}`. -/
def hexText (n : ℕ) : Text := '0' :: 'x' :: toHex n

/-- `{n:02x}` for a byte. -/
def hexPair (n : ℕ) : Text := [digitChar (n / 16), digitChar (n % 16)]

/-- The texts, separated by commas. -/
def commaSeparated : List Text → Text
  | [] => []
  | t :: ts => t ++ ts.flatMap fun u => ',' :: ' ' :: u

variable (bytes : Bytes) (b : Build) (s : Text)

/-- `emit_byte_list`. -/
def emitByteList : Text :=
  commaSeparated (bytes.map fun b => '0' :: 'x' :: hexPair b.toNat)

/-- A list of bytes in brackets. -/
def bracketedBytes : Text := '[' :: emitByteList bytes ++ [']']

/-- `emit_signed_hex`. -/
def emitSignedHex (n : Int64) : Text :=
  if n.toInt < 0 then '-' :: hexText n.toInt.natAbs else hexText n.toInt.natAbs

/-- The characters that stand for `c` in a string literal. -/
def escapeChar (c : Char) : Text :=
  if c = '\\' then ['\\', '\\']
  else if c = '"' then ['\\', '"']
  else if c = '\n' then ['\\', 'n']
  else if c = '\r' then ['\\', 'r']
  else if c = '\t' then ['\\', 't']
  else if c.toNat = 0 then ['\\', '0']
  else if c.toNat < 0x20 ∨ c.toNat = 0x7f then '\\' :: 'x' :: hexPair c.toNat
  else [c]

/-- `quote_string`. -/
def quoteString : Text := '"' :: s.flatMap escapeChar ++ ['"']

/-- The characters that stand for `c` in the output of `{:?}`. -/
def debugChar (c : Char) : Text :=
  if c = '\\' then ['\\', '\\']
  else if c = '"' then ['\\', '"']
  else if c = '\n' then ['\\', 'n']
  else if c = '\r' then ['\\', 'r']
  else if c = '\t' then ['\\', 't']
  else if c.toNat = 0 then ['\\', '0']
  else if c.toNat < 0x20 ∨ c.toNat = 0x7f ∨ 0x80 ≤ c.toNat ∧ b.unprintable c then
    '\\' :: 'u' :: '{' :: toHex c.toNat ++ ['}']
  else [c]

/-- `{s:?}`. -/
def debugText : Text := '"' :: s.flatMap (debugChar b) ++ ['"']

/-- The white space at the start of a line. -/
def indentOf (depth : ℕ) : Text := List.replicate (4 * depth) ' '

/-- One step of indentation. -/
def tab : Text := indentOf 1

/-! ## Texts that are written bare -/

/-- `lexes`. -/
def lexes : Bool := (tokenize s).isOk

/-- The state of the scans for delimiters outside of strings. -/
structure Scan where
  depth : ℕ
  inString : Bool
  escape : Bool

/-- The step of a scan inside of a string. -/
def Scan.inner (s : Scan) (c : Char) : Scan :=
  if s.escape then { s with escape := false }
  else if c = '\\' then { s with escape := true }
  else if c = '"' then { s with inString := false }
  else s

/-- The loop of `move_side_is_unquoted_safe`. -/
def moveSideScan : Scan → Text → Bool
  | s, [] => !s.inString && s.depth == 0
  | s, c :: cs =>
    if isControl c then false
    else if s.inString then moveSideScan (s.inner c) cs
    else if c = '"' then moveSideScan { s with inString := true } cs
    else if c = '\\' then false
    else if c = '(' ∨ c = '[' then moveSideScan { s with depth := s.depth + 1 } cs
    else if c = ')' ∨ c = ']' then
      if s.depth = 0 then false else moveSideScan { s with depth := s.depth - 1 } cs
    else moveSideScan s cs

/-- `move_side_is_unquoted_safe`. -/
def moveSideIsUnquotedSafe : Bool :=
  s ≠ [] && lexes s && moveSideScan ⟨0, false, false⟩ s

/-- `emit_move_side`. -/
def emitMoveSide : Text := if moveSideIsUnquotedSafe s then s else quoteString s

/-- The loop of `arg_is_unquoted_safe`. The flag says whether something outside of a string was
seen. -/
def argScan : Scan → (sawNonString : Bool) → Text → Bool
  | s, saw, [] => !s.inString && s.depth == 0 && saw
  | s, saw, c :: cs =>
    if s.inString then
      if isControl c then false else argScan (s.inner c) saw cs
    else if !isAsciiGraphic c && s.depth == 0 then false
    else if isWhitespace c && 0 < s.depth then argScan s true cs
    else if !isAsciiGraphic c then false
    else if c = '"' then argScan { s with inString := true } saw cs
    else if c = '\\' then false
    else if c = '(' ∨ c = '[' then argScan { s with depth := s.depth + 1 } true cs
    else if c = ')' ∨ c = ']' then
      if s.depth = 0 then false else argScan { s with depth := s.depth - 1 } true cs
    else if c = ',' ∧ s.depth = 0 then false
    else argScan s true cs

/-- `arg_is_unquoted_safe`. -/
def argIsUnquotedSafe : Bool :=
  s ≠ [] && lexes s && argScan ⟨0, false, false⟩ false s

/-! ## The parts of a statement -/

/-- `jcc_cond_name_for_emit`. -/
def jccCondNameForEmit (cond_code : UInt8) : Text :=
  (["jo", "jno", "jb", "jae", "je", "jne", "jbe", "ja", "js", "jns", "jp", "jnp", "jl", "jge",
    "jle", "jg"].map String.toList).getD (cond_code &&& 0x0f).toNat []

/-- `emit_jcc_attrs`. -/
def emitJccAttrs (cond_code : UInt8) (wide : Bool) (cmp_bytes : Bytes)
    (target : Option UInt64) : Text :=
  let parts := ["cond=\"".toList ++ jccCondNameForEmit cond_code ++ ['"']] ++
    (if cmp_bytes = [] then [] else ["cmp=".toList ++ bracketedBytes cmp_bytes]) ++
    (if wide then ["wide".toList] else []) ++
    target.toList.map fun t => "target=".toList ++ hexText t.toNat
  " #[".toList ++ commaSeparated parts ++ [']']

/-- A list of register names behind a label. -/
def registerList (label : String) (regs : List Text) : Text :=
  if regs = [] then []
  else ", ".toList ++ label.toList ++ ": [".toList ++ commaSeparated regs ++ [']']

/-- A number behind a label, when it is not zero. -/
def numberField (label : String) (n : ℕ) : Text :=
  if 0 < n then ", ".toList ++ label.toList ++ ": ".toList ++ hexText n else []

/-- `emit_prologue_params`. -/
def emitPrologueParams (p : PrologueParams) : Text :=
  registerList "saves" p.saves ++
    (if p.frame then if p.frame_alt then ", frame=alt".toList else ", frame".toList else []) ++
    numberField "sub" p.sub_esp.toNat ++ registerList "saves_after" p.saves_after ++
    if p.cf_protect then ", cf".toList else []

/-- `emit_epilogue_params`. -/
def emitEpilogueParams (e : EpilogueParams) : Text :=
  registerList "saves" e.saves ++ numberField "add" e.add_esp.toNat ++
    (if e.leave then ", leave".toList else if e.pop_frame then ", pop_frame".toList else []) ++
    numberField "ret_imm" e.ret_imm.toNat

/-- The line of a directive whose arguments are `args`. -/
def directive (indent : Text) (name : String) (args : List Text) : Text :=
  indent ++ '@' :: name.toList ++ '(' :: commaSeparated args ++ ")\n".toList

/-- A list of bytes behind a blank, or nothing when there are none. -/
def trailingBytes : Text := if bytes = [] then [] else ' ' :: bracketedBytes bytes

/-- The text of a call, up to the end of its arguments. -/
def emitCallHead (name : Text) (args : List Text) : Text :=
  let startsOk := name.head?.any fun c =>
    isAsciiAlphabetic c || c == '_' || c == '[' || c == '(' || c == '*' || c == '&'
  (if startsOk && lexes name then name else '(' :: name ++ [')']) ++ '(' ::
    commaSeparated (args.map fun a => if argIsUnquotedSafe a then a else quoteString a) ++ [')']

/-- `label_{addr:x}`. -/
def labelText (addr : UInt64) : Text := "label_".toList ++ toHex addr.toNat

/-- The cases of a switch, the first of them with number `i`. -/
def emitCases (indent : Text) : ℕ → List UInt64 → Text
  | _, [] => []
  | i, target :: cases =>
    indent ++ "case ".toList ++ toDec i ++ ": goto ".toList ++ labelText target ++ ";\n".toList ++
      emitCases indent (i + 1) cases

/-! ## Statements -/

/-- The statements without a nested body. -/
def emitSimple (indent : Text) : Stmt → Text
  | .asm text bytes =>
    directive indent "asm"
      (quoteString text :: if bytes = [] then [] else [bracketedBytes bytes])
  | .comment text => indent ++ "// ".toList ++ text ++ ['\n']
  | .return value bytes =>
    indent ++ "return ".toList ++
      (if value < 10 then toDec value.toNat else hexText value.toNat) ++ ';' ::
      trailingBytes bytes ++ ['\n']
  | .prologue kind (some p) _ =>
    indent ++ "@prologue(".toList ++ quoteString kind ++ emitPrologueParams p ++ ")\n".toList
  | .prologue kind none bytes =>
    directive indent "prologue" [quoteString kind, bracketedBytes bytes]
  | .epilogue kind (some e) _ =>
    indent ++ "@epilogue(".toList ++ quoteString kind ++ emitEpilogueParams e ++ ")\n".toList
  | .epilogue kind none bytes =>
    directive indent "epilogue" [quoteString kind, bracketedBytes bytes]
  | .save reg bytes => directive indent "save" [quoteString reg, bracketedBytes bytes]
  | .restore reg bytes => directive indent "restore" [quoteString reg, bracketedBytes bytes]
  | .ifReturn cond_text value_text target_addr cmp_bytes cond_code wide =>
    indent ++ "if (".toList ++ cond_text ++ ") return".toList ++
      (if value_text = [] then [] else ' ' :: value_text) ++
      emitJccAttrs cond_code wide cmp_bytes (some target_addr) ++ ";\n".toList
  | .label addr =>
    (if 4 ≤ indent.length then indent.take (indent.length - 4) else indent) ++ labelText addr ++
      ":\n".toList
  | .goto target_addr wide =>
    indent ++ "goto ".toList ++ labelText target_addr ++
      (if wide then " #[wide]".toList else []) ++ ";\n".toList
  | .ifGoto cond_text target_addr cmp_bytes cond_code wide =>
    indent ++ "if (".toList ++ cond_text ++ ") goto ".toList ++ labelText target_addr ++
      emitJccAttrs cond_code wide cmp_bytes none ++ ";\n".toList
  | .sehInstall bytes => directive indent "seh_install" [bracketedBytes bytes]
  | .sehRestore bytes => directive indent "seh_restore" [bracketedBytes bytes]
  | .switch selector cases default_addr dispatch table_va =>
    indent ++ "switch (".toList ++ selector ++ ") #[dispatch=".toList ++ debugText b dispatch ++
      ", table_va=".toList ++ hexText table_va.toNat ++ "] \x7b\n".toList ++
      emitCases (indent ++ tab) 0 cases ++ indent ++ tab ++ "default: goto ".toList ++
      labelText default_addr ++ ";\n".toList ++ indent ++ "\x7d\n".toList
  | .returnExpr text bytes =>
    indent ++ "return".toList ++ (if text = [] then [] else ' ' :: text) ++ "; ".toList ++
      bracketedBytes bytes ++ ['\n']
  | .argSpill arg_index bytes =>
    directive indent "arg_spill" [toDec arg_index.toNat, bracketedBytes bytes]
  | .call name args bytes direct_target =>
    indent ++ emitCallHead name args ++
      (direct_target.elim [] fun t => " #[target=".toList ++ hexText t.toNat ++ [']']) ++
      trailingBytes bytes ++ ['\n']
  | .localSet slot value bytes =>
    directive indent "local_set" [emitSignedHex slot, emitSignedHex value, bracketedBytes bytes]
  | .localArith slot op value bytes =>
    directive indent "local_arith"
      [emitSignedHex slot, quoteString op, emitSignedHex value, bracketedBytes bytes]
  | .localCompound dst op src bytes =>
    directive indent "local_compound"
      [emitSignedHex dst, quoteString op, emitSignedHex src, bracketedBytes bytes]
  | .move dst src bytes =>
    indent ++ emitMoveSide dst ++ " = ".toList ++ emitMoveSide src ++ trailingBytes bytes ++ ['\n']
  | .inc16 lo hi bytes =>
    directive indent "inc16" [quoteString lo, quoteString hi, bracketedBytes bytes]
  | .regArith dst op src bytes =>
    indent ++ emitMoveSide dst ++ ' ' :: op ++ ' ' :: emitMoveSide src ++ ';' ::
      trailingBytes bytes ++ ['\n']
  -- The statements with a body are not modelled.
  | _ => []

/-! ## Types -/

/-- The name of a type without parameters. -/
def primitiveName : Ty → String
  | .void => "void"
  | .i8 => "i8"
  | .i16 => "i16"
  | .i32 => "i32"
  | .i64 => "i64"
  | .u8 => "u8"
  | .u16 => "u16"
  | .u32 => "u32"
  | .u64 => "u64"
  | .f32 => "f32"
  | .f64 => "f64"
  | .bool => "bool"
  | .char => "char"
  | .unknown => "unknown"
  | .pointer _ => "ptr"

/-- `emit_type`. -/
def emitType : Ty → Text
  | .pointer inner => "ptr<".toList ++ emitType inner ++ ['>']
  | t => (primitiveName t).toList

end Univdreams.Ud
