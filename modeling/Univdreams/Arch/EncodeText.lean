import Univdreams.Arch.X86

/-!
# Encoding the comparison of a condition text

`src/arch/x86/encode_text.rs`: the bytes of the `cmp` or `test` instruction that a condition text
names, in the forms that the decompiler writes. The printer leaves out the bytes that the text gives
back, and the parser derives them again.

A text that is not recognised has no bytes, which is `some none` here; `none` is a panic. There are
two: the search for an operator slices the text at every byte, which is not possible inside of a
character with more than one byte, and a sign before the least 64-bit number overflows.
-/

namespace Univdreams.Arch.X86

open Text

variable (checks : Bool)
variable (s : Text)

/-! ## Operands -/

/-- `parse_reg32`. -/
def parseReg32 : Option UInt8 :=
  if s = "eax".toList then some 0
  else if s = "ecx".toList then some 1
  else if s = "edx".toList then some 2
  else if s = "ebx".toList then some 3
  else if s = "esp".toList then some 4
  else if s = "ebp".toList then some 5
  else if s = "esi".toList then some 6
  else if s = "edi".toList then some 7
  else none

/-- `parse_reg8`. -/
def parseReg8 : Option UInt8 :=
  if s = "al".toList then some 0
  else if s = "cl".toList then some 1
  else if s = "dl".toList then some 2
  else if s = "bl".toList then some 3
  else if s = "ah".toList then some 4
  else if s = "ch".toList then some 5
  else if s = "dh".toList then some 6
  else if s = "bh".toList then some 7
  else none

/-- The number of `parse_int_literal` without its sign. -/
def unsignedLiteral (body : Text) : Option ℤ :=
  match (stripPrefix? body "0x".toList).or (stripPrefix? body "0X".toList) with
  | some hex => i64FromStrRadix 16 hex
  | none => match (stripSuffix? body ['h']).or (stripSuffix? body ['H']) with
    | some hex => i64FromStrRadix 16 hex
    | none => i64FromStrRadix 10 body

/-- `parse_int_literal`. -/
def parseIntLiteral : Option (Option ℤ) :=
  match trim s with
  | '-' :: rest => match unsignedLiteral (trim rest) with
    | some n => (negI64 checks n).map some
    | none => some none
  | '+' :: rest => some (unsignedLiteral (trim rest))
  | body => some (unsignedLiteral body)

/-- `imm_as_i32`. -/
def immAsI32 (v : ℤ) : Option ℤ :=
  if fitsI32 v then some v
  else if 0 ≤ v ∧ v < 2 ^ 32 then some (v - 2 ^ 32)
  else none

/-- `MemOperand`. -/
inductive MemOperand where
  | basedDisp (base : UInt8) (disp : ℤ)
  | absolute (addr : ℕ)
  deriving DecidableEq, Repr

/-- `split_after_reg`. -/
def splitAfterReg : Option (Text × Text) :=
  let s := trim s
  if s.takeWhile Text.isAsciiAlphabetic = [] then none
  else some (s.takeWhile Text.isAsciiAlphabetic, trim (s.dropWhile Text.isAsciiAlphabetic))

/-- The inside of the brackets of a memory operand. -/
def bracketed : Option Text := do
  let s := trim ((stripPrefix? s "dword ptr ".toList).getD s)
  let s := trim ((stripPrefix? s "qword ptr ".toList).getD s)
  let inner ← stripPrefix? s ['[']
  let inner ← stripSuffix? inner [']']
  return trim inner

/-- The memory operand with the given inside of its brackets. -/
def memOperandOf (inner : Text) : Option (Option MemOperand) :=
  match (splitAfterReg inner).bind fun p => (parseReg32 p.1).map fun reg => (reg, p.2) with
  | some (reg, disp) =>
    if disp = [] then some (some (.basedDisp reg 0))
    else (parseIntLiteral checks disp).map fun d => d.map (.basedDisp reg)
  | none => (parseIntLiteral checks inner).map fun addr =>
      (addr.bind immAsI32).map fun a => .absolute (a % 2 ^ 32).toNat

/-- `parse_mem_dword`. -/
def parseMemDword : Option (Option MemOperand) :=
  let s := trim s
  match stripPrefix? s "arg_".toList with
  | some hex => some ((fromStrRadix (2 ^ 32) 16 hex).map fun off => .basedDisp 5 off)
  | none => match stripPrefix? s "var_".toList with
    | some hex => some ((fromStrRadix (2 ^ 32) 16 hex).map fun off => .basedDisp 5 (-(off : ℤ)))
    | none => match bracketed s with
      | some inner => memOperandOf checks inner
      | none => some none

/-! ## Instructions -/

/-- `mod_rm_reg_reg` and `mod_rm_op_reg`. -/
def modRm (reg rm : UInt8) : UInt8 := (0xc0 : UInt8) ||| (reg <<< 3) ||| rm

/-- `mem_mod_and_disp`. -/
def memModAndDisp (base : UInt8) (disp : ℤ) : UInt8 × Bytes :=
  if disp = 0 ∧ base ≠ 5 then (0, [])
  else if fitsI8 disp then (1, relBytes 1 disp)
  else (2, relBytes 4 disp)

/-- `push_mem_modrm`. -/
def memModrm (reg : UInt8) : MemOperand → Option Bytes
  | .basedDisp base disp =>
    if base = 4 then none
    else
      let (mode, dispBytes) := memModAndDisp base disp
      some (((mode <<< 6) ||| (reg <<< 3) ||| base) :: dispBytes)
  | .absolute addr => some (((reg <<< 3) ||| 5) :: toLe 4 addr)

/-- `encode_modrm_mem`. -/
def encodeModrmMem (opcode reg : UInt8) (mem : MemOperand) : Option Bytes :=
  (memModrm reg mem).map fun modrm => opcode :: modrm

/-- `encode_cmp_reg_imm`. -/
def encodeCmpRegImm (reg : UInt8) (imm : ℤ) (regIsEax : Bool) : Bytes :=
  match immAsI32 imm with
  | some imm32 =>
    if fitsI8 imm32 then 0x83 :: modRm 7 reg :: relBytes 1 imm32
    else if regIsEax then 0x3d :: relBytes 4 imm32
    else 0x81 :: modRm 7 reg :: relBytes 4 imm32
  | none => 0x81 :: modRm 7 reg :: relBytes 4 imm

/-- `encode_cmp_mem_imm`. A memory operand that cannot be encoded gives no bytes. -/
def encodeCmpMemImm (mem : MemOperand) (imm : ℤ) : Bytes :=
  let (opcode, immBytes) : UInt8 × Bytes := match immAsI32 imm with
    | some v => if fitsI8 v then (0x83, relBytes 1 v) else (0x81, relBytes 4 v)
    | none => (0x81, relBytes 4 imm)
  match memModrm 7 mem with
  | some modrm => opcode :: modrm ++ immBytes
  | none => []

/-- `split_two`. -/
def splitTwo : Option (Text × Text) :=
  (splitAtFirst [','] s).map fun p => (trim p.1, trim p.2)

/-- `encode_test`. -/
def encodeTest (operands : Text) : Option Bytes :=
  match splitTwo operands with
  | none => none
  | some (a, b) => match parseReg32 a, parseReg32 b with
    | some r1, some r2 => some [0x85, modRm r2 r1]
    | _, _ => match parseReg8 a, parseReg8 b with
      | some r1, some r2 => some [0x84, modRm r2 r1]
      | _, _ => none

/-- The forms of `encode_cmp` with the memory operand `memA` on the left. -/
def encodeCmpMem (memA : Option MemOperand) (b : Text) (imm : Option ℤ) : Option Bytes :=
  match memA, parseReg32 b with
  | some mem, some reg => encodeModrmMem 0x39 reg mem
  | _, _ => match memA, imm with
    | some mem, some imm => some (encodeCmpMemImm mem imm)
    | _, _ => none

/-- `encode_cmp`. An operand is read only when the forms before it do not fit. -/
def encodeCmp (operands : Text) : Option (Option Bytes) :=
  match splitTwo operands with
  | none => some none
  | some (a, b) => match parseReg8 a, parseReg8 b with
    | some r1, some r2 => some (some [0x3a, modRm r1 r2])
    | _, _ => match parseReg32 a, parseReg32 b with
      | some r1, some r2 => some (some [0x3b, modRm r1 r2])
      | _, _ => do
        let imm ← parseIntLiteral checks b
        match parseReg32 a, imm with
        | some reg, some imm => return some (encodeCmpRegImm reg imm (a = "eax".toList))
        | _, _ => do
          let memB ← parseMemDword checks b
          match parseReg32 a, memB with
          | some reg, some mem => return encodeModrmMem 0x3b reg mem
          | _, _ => do
            let memA ← parseMemDword checks a
            return encodeCmpMem memA b imm

/-- `encode_cmp_or_test`. -/
def encodeCmpOrTest (text : Text) : Option (Option Bytes) :=
  let text := trim text
  match stripPrefix? text "test ".toList with
  | some rest => some (encodeTest (trim rest))
  | none => match stripPrefix? text "cmp ".toList with
    | some rest => encodeCmp checks (trim rest)
    | none => some none

/-! ## Condition texts -/

/-- The relational operators, in the order in which they are tried. -/
def relationalOps : List Text :=
  ["<=u", ">=u", "<u", ">u", "==", "!=", "<=", ">=", "<", ">"].map String.toList

/-- The first operator that stands at the front of `rest`, with the sides that it splits. -/
def relationalAt (seen rest : Text) : Option (Text × Text × Text) :=
  relationalOps.findSome? fun op =>
    if op <+: rest ∧ trim seen ≠ [] ∧ trim (rest.drop op.length) ≠ [] then
      some (trim seen, op, trim (rest.drop op.length))
    else none

/-- The loop of `split_relational`, behind the characters `seen`. It goes byte by byte, and outside
of brackets it slices inside of every character of more than one byte. -/
def splitRelationalFrom (depth : ℤ) (seen : Text) : Text → Option (Option (Text × Text × Text))
  | [] => some none
  | c :: cs =>
    if c = '(' ∨ c = '[' then splitRelationalFrom (depth + 1) (seen ++ [c]) cs
    else if c = ')' ∨ c = ']' then splitRelationalFrom (depth - 1) (seen ++ [c]) cs
    else if depth ≠ 0 then splitRelationalFrom depth (seen ++ [c]) cs
    else match relationalAt seen (c :: cs) with
      | some split => some (some split)
      | none => if c.toNat < 0x80 then splitRelationalFrom depth (seen ++ [c]) cs else none

/-- `split_relational`. -/
def splitRelational (text : Text) : Option (Option (Text × Text × Text)) :=
  splitRelationalFrom 0 [] text

/-- `encode_relational`. -/
def encodeRelational (text : Text) : Option (Option Bytes) := do
  match ← splitRelational text with
  | none => return none
  | some (lhs, op, rhs) =>
    if op.getLast? ≠ some 'u' ∧ rhs = ['0'] ∧ ((parseReg32 lhs).or (parseReg8 lhs)).isSome then
      return match parseReg32 lhs with
        | some r => some [0x85, modRm r r]
        | none => (parseReg8 lhs).map fun r => [0x84, modRm r r]
    else encodeCmp checks (lhs ++ ',' :: rhs)

/-- `encode_head_from_cond_text`. -/
def encodeHeadFromCondText (cond_text : Text) : Option (Option Bytes) :=
  let head := trim (cond_text.takeWhile (· ≠ ';'))
  if head = [] then some none
  else do
    match ← encodeRelational checks head with
    | some bytes => return some bytes
    | none => encodeCmpOrTest checks head

end Univdreams.Arch.X86
