import Univdreams.Arch.X86Assemble

/-!
# The x86 codec

`src/arch/x86/codec.rs` with the branch and dispatch encoders of `src/arch/x86/mod.rs`. Branches are
encoded here; for instructions there is the assembler.
-/

namespace Univdreams.Arch.X86

/-! ## Branches -/

/-- The displacement of `target` from the end of an instruction at `sourceIp`. Only the end
wraps. -/
def displacement (sourceIp size target : ℕ) : ℤ :=
  (target : ℤ) - ((sourceIp + size) % wordSize : ℕ)

/-- Whether a displacement fits a signed byte. -/
def fitsI8 (rel : ℤ) : Bool := -128 ≤ rel ∧ rel ≤ 127

/-- Whether a displacement fits a signed 32-bit word. -/
def fitsI32 (rel : ℤ) : Bool := -2 ^ 31 ≤ rel ∧ rel < 2 ^ 31

/-- The `n` bytes of a signed displacement. -/
def relBytes (n : ℕ) (rel : ℤ) : Bytes := toLe n (rel % 256 ^ n).toNat

/-- A branch with a 32-bit displacement behind the opcode `opcode`. -/
def rel32Branch (opcode : Bytes) (sourceIp target : ℕ) : Run ArchError Bytes :=
  let rel := displacement sourceIp (opcode.length + 4) target
  if fitsI32 rel then .ok (opcode ++ relBytes 4 rel)
  else fail (.outOfRange (.jump sourceIp target))

/-- A branch with the short opcode where that is allowed and the target is near. -/
def branch (short : UInt8) (long : Bytes) (sourceIp target : ℕ) (wide : Bool) :
    Run ArchError Bytes :=
  if !wide && fitsI8 (displacement sourceIp 2 target) then
    .ok (short :: relBytes 1 (displacement sourceIp 2 target))
  else rel32Branch long sourceIp target

/-- The number of bytes of `branch`, predicted. -/
def branchSize (longSize sourceIp target : ℕ) (wide : Bool) : ℕ :=
  if !wide && fitsI8 (displacement sourceIp 2 target) then 2 else longSize

variable (sourceIp target : ℕ)

/-- `encode_jmp`. -/
def encodeJmp (wide : Bool) : Run ArchError Bytes :=
  branch 0xeb [0xe9] sourceIp target wide

/-- `encode_jcc`. -/
def encodeJcc (condCode : UInt8) (wide : Bool) : Run ArchError Bytes :=
  let cc := condCode &&& 0x0f
  branch (0x70 ||| cc) [0x0f, 0x80 ||| cc] sourceIp target wide

/-- `encode_call_rel32`. -/
def encodeCallRel32 : Run ArchError Bytes :=
  rel32Branch [0xe8] sourceIp target

/-! ## Switch dispatch -/

/-- The code of a 32-bit register. -/
def gpr32Code (name : Text) : Option UInt8 :=
  let name := Text.toAsciiLowercase (Text.trim name)
  if name = "eax".toList then some 0
  else if name = "ecx".toList then some 1
  else if name = "edx".toList then some 2
  else if name = "ebx".toList then some 3
  else if name = "ebp".toList then some 5
  else if name = "esi".toList then some 6
  else if name = "edi".toList then some 7
  else none

/-- `encode_msvc_jmp_table_dispatch`: a bounds check, and a jump through the table. -/
def encodeMsvcJmpTableDispatch (selector : Text) (cases defaultAddr tableVa cmpIp : ℕ) :
    Run ArchError Bytes := do
  let some reg := gpr32Code selector | fail (.outOfRange (.unsupportedSelector selector))
  let maxValue := cases - 1
  if 2 ^ 32 ≤ maxValue then fail (.outOfRange (.tooManyCases cases))
  else
    let modrm : UInt8 := 0xf8 ||| reg
    let cmp := if maxValue ≤ 0x7f then [0x83, modrm, UInt8.ofNat maxValue]
      else [0x81, modrm] ++ toLe 4 maxValue
    let jaEnd := cmpIp + cmp.length + 6
    let rel : ℤ := defaultAddr - jaEnd
    if wordSize ≤ jaEnd ∨ ¬fitsI32 rel then fail (.outOfRange (.ja cmpIp defaultAddr))
    else .ok (cmp ++ [0x0f, 0x87] ++ relBytes 4 rel ++
      [0xff, 0x24, (0x85 ||| reg <<< (3 : UInt8) : UInt8)] ++ toLe 4 tableVa)

/-! ## Operands -/

/-- The width of a general-purpose register, by its name. -/
def x86GprWidth (s : Text) : Option ℕ :=
  let s := Text.trim s
  if s ∈ ["rax", "rbx", "rcx", "rdx", "rsi", "rdi", "rbp", "rsp", "r8", "r9", "r10", "r11", "r12",
      "r13", "r14", "r15"].map String.toList then some 64
  else if s ∈ ["eax", "ebx", "ecx", "edx", "esi", "edi", "ebp", "esp"].map String.toList
    then some 32
  else if ['r'] <+: s ∧ ['d'] <:+ s ∧ (Text.utf8 s).length = 3 ∧
      ((Text.utf8 s)[1]?).any (fun b => 48 ≤ b && b ≤ 57) then some 32
  else if ['r', '1'] <+: s ∧ ['d'] <:+ s ∧ (Text.utf8 s).length = 4 then some 32
  else if s ∈ ["ax", "bx", "cx", "dx", "si", "di", "bp", "sp"].map String.toList then some 16
  else if s ∈ ["al", "bl", "cl", "dl", "ah", "bh", "ch", "dh", "sil", "dil", "bpl", "spl"].map
      String.toList then some 8
  else none

/-- Whether a text is a decimal or hexadecimal integer, with an optional sign. -/
def isIntegerLiteral (s : Text) : Bool :=
  let s := Text.trim s
  let s := (Text.stripPrefix? s ['-']).getD s
  match Text.stripPrefix? s ['0', 'x'] with
  | some hex => hex ≠ [] && hex.all fun c => (Text.toDigit 16 c).isSome
  | none => s ≠ [] && s.all fun c => (Text.toDigit 10 c).isSome

/-- The operand of a lifted move as the assembler writes it, with its width if it gives one. -/
def resolveX86Operand (s : Text) : Option (Text × Option ℕ) :=
  let s := Text.trim s
  match Text.stripPrefix? s "var_".toList with
  | some hex => do
    let disp ← Text.fromStrRadix wordSize 16 hex
    return ("[rbp - 0x".toList ++ Text.toHex disp ++ "]".toList, none)
  | none => match Text.stripPrefix? s "arg_".toList with
    | some hex => do
      let disp ← Text.fromStrRadix wordSize 16 hex
      return ("[rbp + 0x".toList ++ Text.toHex disp ++ "]".toList, none)
    | none => match x86GprWidth s with
      | some w => some (s, some w)
      | none => if isIntegerLiteral s then some (s, none) else none

/-! ## The codec -/

/-- The short name of the codec. -/
def Bitness.codecName : Bitness → Text
  | .bits16 => "x86-16".toList
  | .bits32 => "x86-32".toList
  | .bits64 => "x86-64".toList

/-- The result of the assembler, as that of a codec. -/
def assembled : Run AssembleError Bytes → Run ArchError Bytes
  | .ok bytes => .ok bytes
  | .error (.err e) => fail (.assemble e)
  | .error .panic => .error .panic

/-- A memory operand with the size that the assembler asks for. -/
def withSize (width : ℕ) (operand : Text) : Text :=
  if ['['] <+: operand then
    (if width = 8 then "byte ptr ".toList
      else if width = 16 then "word ptr ".toList
      else if width = 32 then "dword ptr ".toList
      else "qword ptr ".toList) ++ operand
  else operand

/-- `X86Codec::encode_move`. -/
def encodeMove (p : Platform) (bitness : Bitness) (dst src : Text) :
    Run ArchError Bytes := do
  let some (asmDst, dstWidth) := resolveX86Operand dst
    | unsupported bitness.codecName "move (unresolved dst)"
  let some (asmSrc, srcWidth) := resolveX86Operand src
    | unsupported bitness.codecName "move (unresolved src)"
  let width := (dstWidth <|> srcWidth).getD 32
  let text := "mov ".toList ++ withSize width asmDst ++ ", ".toList ++ withSize width asmSrc
  assembled (assembleIntel p bitness text 0)

/-- `X86Codec`. -/
def x86Codec (p : Platform) (bitness : Bitness) : ArchCodec where
  assembleOne text addr := assembled (assembleIntel p bitness text addr)
  desymbolize text _ := text
  encodeJump sourceIp target hints := encodeJmp sourceIp target (hints.wideOr false)
  encodeCall sourceIp target _ := encodeCallRel32 sourceIp target
  encodeCondJump _ _ _ _ := unsupported bitness.codecName "cond_jump (text)"
  encodeCondJumpWithCode condCode sourceIp target hints :=
    encodeJcc sourceIp target condCode (hints.wideOr false)
  encodeSwitchDispatch spec :=
    if spec.dispatch ≠ "msvc-jmp-table".toList then
      unsupported bitness.codecName "switch_dispatch (non-msvc)"
    else encodeMsvcJmpTableDispatch spec.selector spec.cases.length spec.default_addr spec.table_va
      spec.cmp_ip
  encodedJumpSize sourceIp target hints := branchSize 5 sourceIp target (hints.wideOr false)
  directCallBytesContainCall := false
  encodeMove := encodeMove p bitness
  encodeArith _ _ _ := unsupported bitness.codecName "arith"
  encodeReturn _ := unsupported bitness.codecName "return"

end Univdreams.Arch.X86
