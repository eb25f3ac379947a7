import Univdreams.Arch.Codec
import Univdreams.Words

/-!
# The x86 assembler

`assemble_intel` of `src/arch/x86/assemble.rs`, which makes the bytes of one instruction of its
text, in the forms that the decompiler writes. The text is brought to lower case with single blanks
and cut into a mnemonic and at most two operands, and an operand is read as a register, as an
immediate or as a memory operand.

The instruction that a text names is encoded by the library `iced_x86`, a field of `Platform`. Of
the encoder it is used that it looks at the address of an instruction only for an operand that is
relative to it. These are the memory operands without a register in 64-bit mode, so that every other
text assembles to the same bytes at all addresses (`assembleIntel_eq_of_not_ripRelative`).
-/

namespace Univdreams.Arch.X86

open Text

/-! ## Instructions -/

/-- `Bitness`: the mode of the processor. -/
inductive Bitness where
  | bits16
  | bits32
  | bits64
  deriving DecidableEq, Repr

/-- The registers that a text can name, by their numbers, with `Register::None` and `Register::RIP`.
The numbers four to seven of eight bits are `SPL` to `DIL`. -/
inductive Register where
  | none
  | rip
  | gpr64 (n : Fin 16)
  | gpr32 (n : Fin 16)
  | gpr16 (n : Fin 16)
  | gpr8 (n : Fin 16)
  /-- `AH`, `CH`, `DH` and `BH`. -/
  | high8 (n : Fin 4)
  | xmm (n : Fin 16)
  deriving DecidableEq, Repr

/-- The instruction forms of the library that the assembler uses. -/
inductive Code where
  | push_r64
  | push_r32
  | push_r16
  | pop_r64
  | pop_r32
  | pop_r16
  | push_rm64
  | push_rm32
  | pushq_imm8
  | pushq_imm32
  | call_rm64
  | call_rm32
  | jmp_rm64
  | jmp_rm32
  | nop_rm32
  | nopw
  | nopd
  | nopq
  | xchg_rm64_r64
  | xchg_rm32_r32
  | xchg_rm16_r16
  | xchg_rm8_r8
  | mov_rm64_r64
  | mov_rm32_r32
  | mov_rm16_r16
  | mov_rm8_r8
  | endbr64
  | endbr32
  | hlt
  | int3
  | retnq
  | retnd
  | cdqe
  | cwde
  | cbw
  | leaveq
  | syscall
  | ud2
  | pause
  | rdtsc
  | cpuid
  deriving DecidableEq, Repr

/-- `MemoryOperand`. -/
structure MemoryOperand where
  base : Register
  index : Register
  scale : ℕ
  displacement : ℤ
  displSize : ℕ
  deriving DecidableEq, Repr

/-- An operand of an instruction. -/
inductive Operand where
  | reg (r : Register)
  | imm (value : ℤ)
  | mem (m : MemoryOperand)
  deriving DecidableEq, Repr

/-- `Instruction`, by what it was made of. -/
structure Instruction where
  code : Code
  operands : List Operand
  deriving DecidableEq, Repr

/-- Whether an operand is relative to the address of the instruction. -/
def Instruction.ripRelative (i : Instruction) : Bool :=
  i.operands.any fun
    | .mem m => m.base = .rip
    | _ => false

/-- What the assembler takes from its build and from libraries. -/
structure Platform where
  checks : Bool
  /-- `char::to_lowercase`. -/
  lower : Char → Text
  /-- `Instruction::with`, `with1` or `with2` with `Encoder::encode` behind it: the bytes of an
  instruction at an address, or the message of an error. -/
  encode : Bitness → Instruction → (rip : ℕ) → Except Text Bytes
  /-- The encoder looks at the address for an operand that is relative to it. -/
  encode_rip : ∀ bitness i rip rip', i.ripRelative = false →
    encode bitness i rip = encode bitness i rip'

/-! ## Texts -/

/-- The loop of `normalize`, where `prevSpace` says that a blank would be the second one. -/
def collapseBlanks (lower : Char → Text) : (prevSpace : Bool) → Text → Text
  | _, [] => []
  | prevSpace, c :: cs =>
    if isAsciiWhitespace c then
      if prevSpace then collapseBlanks lower true cs else ' ' :: collapseBlanks lower true cs
    else lower c ++ collapseBlanks lower false cs

/-- `normalize`. -/
def normalize (lower : Char → Text) (text : Text) : Text :=
  let out := collapseBlanks lower true text
  if out.getLast? = some ' ' then out.dropLast else out

/-- `split_mnemonic_and_rest`. -/
def splitMnemonicAndRest (s : Text) : Text × Text :=
  let s := (stripPrefix? s "notrack ".toList).getD s
  match splitAtFirst [' '] s with
  | some (mnemonic, rest) => (mnemonic, trimStart rest)
  | none => (s, [])

/-! ## Operands -/

/-- The names of the general-purpose registers by size, in the order of their numbers. -/
def gprNames : List (List String) :=
  [["rax", "rcx", "rdx", "rbx", "rsp", "rbp", "rsi", "rdi", "r8", "r9", "r10", "r11", "r12", "r13",
      "r14", "r15"],
    ["eax", "ecx", "edx", "ebx", "esp", "ebp", "esi", "edi", "r8d", "r9d", "r10d", "r11d", "r12d",
      "r13d", "r14d", "r15d"],
    ["ax", "cx", "dx", "bx", "sp", "bp", "si", "di", "r8w", "r9w", "r10w", "r11w", "r12w", "r13w",
      "r14w", "r15w"],
    ["al", "cl", "dl", "bl", "spl", "bpl", "sil", "dil", "r8b", "r9b", "r10b", "r11b", "r12b",
      "r13b", "r14b", "r15b"]]

/-- The number of a name in a list of names. -/
def numberOf (names : List String) (name : Text) : Option ℕ :=
  (names.map String.toList).idxOf? name

/-- `parse_register`. -/
def parseRegister (name : Text) : Option Register :=
  let gpr (i : ℕ) := (numberOf (gprNames.getD i []) name).map (Fin.ofNat 16)
  let low8 := (numberOf ["r8l", "r9l", "r10l", "r11l", "r12l", "r13l", "r14l", "r15l"] name).map
    fun n => Fin.ofNat 16 (n + 8)
  let xmm := (numberOf ["xmm0", "xmm1", "xmm2", "xmm3", "xmm4", "xmm5", "xmm6", "xmm7", "xmm8",
    "xmm9", "xmm10", "xmm11", "xmm12", "xmm13", "xmm14", "xmm15"] name).map (Fin.ofNat 16)
  (gpr 0).map .gpr64 <|> (gpr 1).map .gpr32 <|> (gpr 2).map .gpr16 <|> (gpr 3).map .gpr8 <|>
    ((numberOf ["ah", "ch", "dh", "bh"] name).map (Fin.ofNat 4)).map .high8 <|>
    low8.map .gpr8 <|> xmm.map .xmm

/-- `register_width`. -/
def registerWidth : Register → Option ℕ
  | .gpr64 _ => some 64
  | .gpr32 _ => some 32
  | .gpr16 _ => some 16
  | .gpr8 _ | .high8 _ => some 8
  | _ => none

section Operands

variable (checks : Bool)
variable (s : Text) (text : Text) (mnemonic : Text) (bitness : Bitness)

/-- `parse_immediate`. The outer `none` is a panic. -/
def parseImmediate : Option (Option ℤ) :=
  let body := (stripPrefix? s ['-']).getD s
  let v := match stripPrefix? body "0x".toList with
    | some rest => i64FromStrRadix 16 rest
    | none => if body.all isAsciiDigit ∧ body ≠ [] then i64FromStrRadix 10 body else none
  match v with
  | none => some none
  | some v => if s.head? = some '-' then (negI64 checks v).map some else some (some v)

/-- `MemSize`. -/
inductive MemSize where
  | none
  | byte
  | word
  | dword
  | qword
  deriving DecidableEq, Repr

/-- `ParsedMemory`. -/
structure ParsedMemory where
  sizeHint : MemSize
  base : Register
  index : Register
  scale : ℕ
  displacement : ℤ
  deriving DecidableEq, Repr

/-- `parse_size_prefix`. -/
def parseSizePrefix : MemSize × Text :=
  let rest := [("qword ptr ", MemSize.qword), ("dword ptr ", .dword), ("word ptr ", .word),
    ("byte ptr ", .byte)].findSome? fun (size : String × MemSize) =>
      (stripPrefix? s size.1.toList).map fun rest => (size.2, rest)
  rest.getD (.none, s)

/-- The loop of `tokenize_addr`, with the sign of the term so far and its text. -/
def tokenizeAddrFrom (neg : Bool) (cur : Text) : Text → List (Bool × Text)
  | [] => [(neg, cur)]
  | c :: cs =>
    if (c = '+' ∨ c = '-') ∧ cur ≠ [] then (neg, cur) :: tokenizeAddrFrom (c = '-') [] cs
    else tokenizeAddrFrom neg (cur ++ [c]) cs

/-- `tokenize_addr`. -/
def tokenizeAddr : List (Bool × Text) := tokenizeAddrFrom false [] s

/-- The loop of `parse_memory` over the terms of an address. -/
def parseTerms : ParsedMemory → List (Bool × Text) → Option (Option ParsedMemory)
  | m, [] => some (some m)
  | m, (sign, term) :: terms =>
    let term := trim term
    match splitAtFirst ['*'] term with
    | some (regPart, scalePart) =>
      match parseRegister (trim regPart), fromStrRadix (2 ^ 32) 10 (trim scalePart) with
      | some r, some scale =>
        if m.index ≠ .none then some none
        else parseTerms { m with index := r, scale := scale } terms
      | _, _ => some none
    | none => match parseRegister term with
      | some r =>
        if m.base = .none then parseTerms { m with base := r } terms
        else if m.index = .none then parseTerms { m with index := r } terms
        else some none
      | none => match parseImmediate checks term with
        | none => none
        | some none => some none
        | some (some v) => match if sign then negI64 checks v else some v with
          | none => none
          | some v => match checkedAddI64 m.displacement v with
            | none => some none
            | some displacement => parseTerms { m with displacement := displacement } terms

/-- `parse_memory`. -/
def parseMemory : Option (Option ParsedMemory) :=
  let (sizeHint, body) := parseSizePrefix s
  match (stripPrefix? body ['[']).bind fun rest => stripSuffix? rest [']'] with
  | none => some none
  | some inner =>
    parseTerms checks ⟨sizeHint, .none, .none, 1, 0⟩ (tokenizeAddr (trim inner))

/-- `build_memory_operand`. -/
def buildMemoryOperand (mem : ParsedMemory) : MemoryOperand :=
  ⟨mem.base, mem.index, mem.scale, mem.displacement, 0⟩

/-- `build_rip_relative_operand`. -/
def buildRipRelativeOperand (target : ℤ) : MemoryOperand := ⟨.rip, .none, 1, target, 4⟩

/-! ## Forms -/

/-- `zero_operand_code`. -/
def zeroOperandCode : Option Code :=
  [("endbr64".toList, Code.endbr64), ("endbr32".toList, .endbr32), ("hlt".toList, .hlt),
    ("nop".toList, .nopd), ("int3".toList, .int3), ("ret".toList, .retnq), ("retq".toList, .retnq),
    ("retn".toList, .retnd), ("cdqe".toList, .cdqe), ("cwde".toList, .cwde), ("cbw".toList, .cbw),
    ("leave".toList, .leaveq), ("leaveq".toList, .leaveq), ("syscall".toList, .syscall),
    ("ud2".toList, .ud2), ("pause".toList, .pause), ("rdtsc".toList, .rdtsc),
    ("cpuid".toList, .cpuid)].lookup mnemonic

/-- The form of an instruction with one register. -/
def registerCode (width : Option ℕ) : Option Code :=
  if mnemonic = "push".toList then
    match width with
    | some 64 => some .push_r64
    | some 32 => some .push_r32
    | some 16 => some .push_r16
    | _ => none
  else if mnemonic = "pop".toList then
    match width with
    | some 64 => some .pop_r64
    | some 32 => some .pop_r32
    | some 16 => some .pop_r16
    | _ => none
  else if mnemonic = "call".toList then
    if bitness = .bits64 ∧ width = some 64 then some .call_rm64
    else if bitness ≠ .bits64 ∧ width = some 32 then some .call_rm32 else none
  else if mnemonic = "jmp".toList then
    if bitness = .bits64 ∧ width = some 64 then some .jmp_rm64
    else if bitness ≠ .bits64 ∧ width = some 32 then some .jmp_rm32 else none
  else none

/-- The form of an instruction with one immediate, the shorter one where the immediate fits it. -/
def immediateCode (imm : ℤ) : Option Code :=
  if mnemonic ≠ "push".toList then none
  else if -128 ≤ imm ∧ imm ≤ 127 then some .pushq_imm8
  else some .pushq_imm32

/-- The form of an instruction with one memory operand. -/
def memoryCode (size : MemSize) : Option Code :=
  let indirect (code64 code32 : Code) :=
    if bitness = .bits64 ∧ size = .qword then some code64
    else if bitness ≠ .bits64 ∧ size = .dword then some code32 else none
  if mnemonic = "call".toList then indirect .call_rm64 .call_rm32
  else if mnemonic = "jmp".toList then indirect .jmp_rm64 .jmp_rm32
  else if mnemonic = "push".toList then indirect .push_rm64 .push_rm32
  else if mnemonic = "nop".toList ∧ size = .none then some .nop_rm32
  else none

/-- The memory operand of an instruction. Without a register it is relative to the instruction in
64-bit mode. -/
def memoryOperandOf (mem : ParsedMemory) : MemoryOperand :=
  if bitness = .bits64 ∧ mem.base = .none ∧ mem.index = .none then
    buildRipRelativeOperand mem.displacement
  else buildMemoryOperand mem

/-- `unsupported`, when there is no form. -/
def formOr (operands : List Operand) : Option Code → Run AssembleError Instruction
  | some code => .ok ⟨code, operands⟩
  | none => fail (.unsupported text)

/-- `value as i32`. -/
def wrapI32 (v : ℤ) : ℤ := (v + 2 ^ 31) % 2 ^ 32 - 2 ^ 31

/-- `parse_single_operand`. -/
def parseSingleOperand (mnemonic operand : Text) (bitness : Bitness) (text : Text) :
    Run AssembleError Instruction :=
  match parseRegister operand with
  | some reg => formOr text [.reg reg] (registerCode mnemonic bitness (registerWidth reg))
  | none => do
    match ← orPanic (parseImmediate checks operand) with
    | some imm => formOr text [.imm (wrapI32 imm)] (immediateCode mnemonic imm)
    | none => match ← orPanic (parseMemory checks operand) with
      | some mem =>
        formOr text [.mem (memoryOperandOf bitness mem)] (memoryCode mnemonic bitness mem.sizeHint)
      | none => fail (.unsupported text)

/-- The form of an exchange of registers that does nothing and is printed as an exchange. -/
def nopCode (ra rb : Register) : Option Code :=
  if ra ≠ rb then none
  else if ra = .gpr16 0 then some .nopw
  else if ra = .gpr32 0 then some .nopd
  else if ra = .gpr64 0 then some .nopq
  else none

/-- `parse_two_operand`. -/
def parseTwoOperand (mnemonic a b text : Text) : Run AssembleError Instruction :=
  match parseRegister a, parseRegister b with
  | some ra, some rb => match registerWidth ra, registerWidth rb with
    | some wa, some wb =>
      if wa ≠ wb then fail (.unsupported text)
      else if mnemonic = "xchg".toList then
        match nopCode ra rb with
        | some code => .ok ⟨code, []⟩
        | none => formOr text [.reg ra, .reg rb] <|
          [(64, Code.xchg_rm64_r64), (32, .xchg_rm32_r32), (16, .xchg_rm16_r16),
            (8, .xchg_rm8_r8)].lookup wa
      else if mnemonic = "mov".toList then
        formOr text [.reg ra, .reg rb] <|
          [(64, Code.mov_rm64_r64), (32, .mov_rm32_r32), (16, .mov_rm16_r16),
            (8, .mov_rm8_r8)].lookup wa
      else fail (.unsupported text)
    | _, _ => fail (.unsupported text)
  | _, _ => fail (.unsupported text)

/-- `parse_text`. -/
def parseText : Run AssembleError Instruction :=
  let (mnemonic, operands) := splitMnemonicAndRest text
  if operands = [] then formOr text [] (zeroOperandCode mnemonic)
  else match splitOperandsFrom 0 [] operands with
    | [a] => parseSingleOperand checks mnemonic a bitness text
    | [a, b] => parseTwoOperand mnemonic a b text
    | _ => fail (.unsupported text)

end Operands

variable (p : Platform)

/-- The instruction that a text names. -/
def instructionOf (bitness : Bitness) (text : Text) : Run AssembleError Instruction :=
  let normalized := normalize p.lower text
  if normalized = [] then fail .empty else parseText p.checks normalized bitness

/-- `encode_insn`. -/
def encodeInsn (insn : Instruction) (bitness : Bitness) (rip : ℕ) : Run AssembleError Bytes :=
  (p.encode bitness insn rip).mapError fun message => .err (.encodeFailed message)

/-- `assemble_intel`. -/
def assembleIntel (bitness : Bitness) (text : Text) (rip : ℕ) : Run AssembleError Bytes := do
  let insn ← instructionOf p bitness text
  encodeInsn p insn bitness rip

/-- A text without an operand relative to its address assembles to the same bytes everywhere. -/
theorem assembleIntel_eq_of_not_ripRelative {p : Platform} {bitness : Bitness} {text : Text}
    (h : ∀ insn, instructionOf p bitness text = .ok insn → insn.ripRelative = false)
    (rip rip' : ℕ) : assembleIntel p bitness text rip = assembleIntel p bitness text rip' := by
  unfold assembleIntel
  cases hinsn : instructionOf p bitness text with
  | error e => rfl
  | ok insn =>
    simp only [encodeInsn, bind, Except.bind]
    rw [p.encode_rip bitness insn rip rip' (h insn hinsn)]

end Univdreams.Arch.X86
