import Univdreams.Arch.Codec
import Univdreams.Words

/-!
# The BPF codec

`src/arch/bpf/codec.rs` and the assembler of `src/arch/bpf/assemble.rs`. A text is assembled to one
slot of eight bytes. Symbolic texts name a target by its address; they are resolved to an offset
from the slot behind the instruction before they are assembled.

`length_assembleBpf` is what the rest of the development uses: whatever is assembled has eight
bytes.
-/

namespace Univdreams.Arch.Bpf

/-- The dialects of BPF. -/
inductive BpfVariant where
  | linux
  | sbfv1
  | sbfv2
  deriving DecidableEq, Repr

/-! ## Slots -/

/-- What is encoded in one slot. -/
inductive Slot where
  | insn (opcode dst src : ℕ) (offset imm : ℤ)
  /-- A word that was not decoded. -/
  | word (value : ℕ)
  deriving DecidableEq, Repr

/-- `encode_slot`. -/
def Slot.bytes : Slot → Bytes
  | .insn opcode dst src offset imm =>
    [UInt8.ofNat opcode, UInt8.ofNat (dst % 16 + 16 * (src % 16))] ++
      toLe 2 (offset % 2 ^ 16).toNat ++ toLe 4 (imm % 2 ^ 32).toNat
  | .word value => toLe 8 value

theorem Slot.length_bytes (slot : Slot) : slot.bytes.length = 8 := by
  cases slot <;> simp [Slot.bytes]

/-! ## Operands -/

/-- `v as i64`. -/
def toI64 (v : ℕ) : ℤ := if v < 2 ^ 63 then v else v - 2 ^ 64

/-- `i16::try_from(off)`. -/
def toI16 (off : ℤ) : Run BpfError ℤ :=
  if -2 ^ 15 ≤ off ∧ off < 2 ^ 15 then .ok off else fail (.offsetOverflow off)

/-- A text that has to be a number. -/
def expect {α : Type} (operand : Text) (context : String) : Option α → Run BpfError α
  | some a => .ok a
  | none => fail (.badOperand operand context.toList)

/-- `split_operands`. -/
def splitOperands (rest : Text) : List Text := if rest = [] then [] else splitOperandsFrom 0 [] rest

variable (s : Text) (text : Text) (context : String)

/-- `parse_reg`. -/
def parseReg : Run BpfError ℕ := do
  let t := Text.trim text
  let rest ← expect t "register" (Text.stripPrefix? t ['r'])
  let n ← expect t "register number" (Text.fromStrRadix (2 ^ 32) 10 rest)
  if 10 < n then fail (.badRegister n) else return n

/-- `parse_uint`. -/
def parseUint : Run BpfError ℕ :=
  let t := Text.trim text
  match Text.stripPrefix? t "0x".toList with
  | some hex => expect t context (Text.fromStrRadix wordSize 16 hex)
  | none => expect t context (Text.fromStrRadix wordSize 10 t)

/-- `parse_int`: a pattern of 32 bits. -/
def parseInt : Run BpfError ℤ := do
  let v ← parseUint text context
  if 2 ^ 32 ≤ v then fail (.immediateOverflow v 32) else return (v : ℤ)

/-- `parse_int_signed`. -/
def parseIntSigned : Run BpfError ℤ :=
  let t := Text.trim text
  match Text.stripPrefix? t ['-'] with
  | some rest => do
    let v ← parseUint rest context
    if 0x80000000 < v then fail (.immediateOverflow v 32) else return -(v : ℤ)
  | none => parseInt t context

/-- `parse_alu_rhs`: whether the operand is a register, the register and the immediate. -/
def parseAluRhs : Run BpfError (Bool × ℕ × ℤ) :=
  let t := Text.trim text
  if ['r'] <+: t then do
    let r ← parseReg t
    return (true, r, 0)
  else do
    let imm ← parseInt t "alu rhs"
    return (false, 0, imm)

/-- `parse_offset_value`. -/
def parseOffsetValue : Run BpfError ℤ :=
  let t := Text.trim text
  match Text.stripPrefix? t "0x".toList with
  | some hex => do
    let v ← expect t "offset" (Text.fromStrRadix wordSize 16 hex)
    return toI64 v
  | none => expect t "offset" (Text.i64FromStrRadix 10 t)

section Assembler

variable (checks : Bool)
variable (text : Text) (mnemonic : Text) (operands : List Text)

/-- `parse_mem`: the base register and the offset. -/
def parseMem : Run BpfError (ℕ × ℤ) := do
  let t := Text.trim text
  let inner ← expect t "memory operand"
    ((Text.stripPrefix? t ['[']).bind fun s => Text.stripSuffix? s [']'])
  let inner := Text.trim inner
  match Text.splitAtLast " + ".toList inner with
  | some (reg, off) =>
    let reg ← parseReg (Text.trim reg)
    let off ← parseOffsetValue off
    let off ← toI16 off
    return (reg, off)
  | none => match Text.splitAtLast " - ".toList inner with
    | some (reg, off) =>
      let reg ← parseReg (Text.trim reg)
      let off ← parseOffsetValue off
      let neg ← orPanic (negI64 checks off)
      let off ← toI16 neg
      return (reg, off)
    | none =>
      let reg ← parseReg inner
      return (reg, 0)

/-- `parse_branch_offset`. -/
def parseBranchOffset : Run BpfError ℤ := do
  let t := Text.trim text
  let (negative, rest) ← match t with
    | '+' :: rest => pure (false, rest)
    | '-' :: rest => pure (true, rest)
    | _ => fail (.badOperand t "branch offset".toList)
  let v ← match Text.stripPrefix? rest "0x".toList with
    | some hex => expect t "branch offset" (Text.fromStrRadix wordSize 16 hex)
    | none => expect t "branch offset" (Text.fromStrRadix wordSize 10 rest)
  let signed ← if negative then orPanic (negI64 checks (toI64 v)) else pure (toI64 v)
  toI16 signed

/-! ## Instructions -/

/-- The operands of an instruction that takes one. -/
def unary : List Text → Run BpfError Text
  | [a] => .ok a
  | operands => fail (.wrongArity mnemonic 1 operands.length)

/-- The operands of an instruction that takes two. -/
def binary : List Text → Run BpfError (Text × Text)
  | [a, b] => .ok (a, b)
  | operands => fail (.wrongArity mnemonic 2 operands.length)

/-- `size_letter_to_bits`. -/
def sizeLetterToBits (suffix : Text) : ℕ :=
  if suffix = "h".toList then 0x08
  else if suffix = "b".toList then 0x10
  else if suffix = "dw".toList then 0x18
  else 0x00

/-- `assemble_lddw`: the first slot of the instruction. -/
def assembleLddw : Run BpfError Slot := do
  let (dst, imm) ← binary "lddw".toList operands
  let dst ← parseReg dst
  let imm ← parseUint imm "lddw"
  return .insn 0x18 dst 0 0 imm

/-- `assemble_ldx`. -/
def assembleLdx : Run BpfError Slot := do
  let (dst, mem) ← binary mnemonic operands
  let dst ← parseReg dst
  let (src, offset) ← parseMem checks mem
  return .insn (0x60 + sizeLetterToBits (mnemonic.drop 3) + 0x01) dst src offset 0

/-- `assemble_st`. -/
def assembleSt : Run BpfError Slot := do
  let (mem, imm) ← binary mnemonic operands
  let (dst, offset) ← parseMem checks mem
  let imm ← parseInt imm "st"
  return .insn (0x60 + sizeLetterToBits (mnemonic.drop 2) + 0x02) dst 0 offset imm

/-- `assemble_stx`. -/
def assembleStx : Run BpfError Slot := do
  let (mem, src) ← binary mnemonic operands
  let (dst, offset) ← parseMem checks mem
  let src ← parseReg src
  return .insn (0x60 + sizeLetterToBits (mnemonic.drop 3) + 0x03) dst src offset 0

/-- `assemble_endian`, for the byte order `opcode` and a width. -/
def assembleEndian (opcode width : ℕ) (operands : List Text) : Run BpfError Slot := do
  let dst ← unary mnemonic operands
  let dst ← parseReg dst
  return .insn opcode dst 0 0 width

/-- `assemble_ja`. -/
def assembleJa : Run BpfError Slot := do
  let off ← unary "ja".toList operands
  let off ← parseBranchOffset checks off
  return .insn 0x05 0 0 off 0

/-- `assemble_call`. -/
def assembleCall (src : ℕ) (operands : List Text) : Run BpfError Slot := do
  let imm ← unary "call".toList operands
  let imm ← parseIntSigned imm "call"
  return .insn 0x85 0 src 0 imm

/-- `assemble_call_local`. -/
def assembleCallLocal : Run BpfError Slot := do
  let imm ← unary "call_local".toList operands
  let imm ← parseIntSigned imm "call_local"
  return .insn 0x8d 0 0 0 imm

/-- `assemble_callx`. -/
def assembleCallx : Run BpfError Slot := do
  let dst ← unary "callx".toList operands
  let dst ← parseReg dst
  return .insn 0x8d dst 0 0 0

/-- The value of a name in a table. -/
def lookup (table : List (String × ℕ)) (name : Text) : Option ℕ :=
  (table.find? fun entry => entry.1.toList = name).map Prod.snd

/-- `alu_op_nibble`. -/
def aluOpNibble (base : Text) : Option ℕ :=
  lookup [("add", 0x0), ("sub", 0x1), ("mul", 0x2), ("div", 0x3), ("udiv", 0x3), ("or", 0x4),
    ("and", 0x5), ("lsh", 0x6), ("rsh", 0x7), ("neg", 0x8), ("mod", 0x9), ("urem", 0x9),
    ("xor", 0xa), ("mov", 0xb), ("arsh", 0xc), ("sdiv", 0xe), ("srem", 0xf)] base

/-- `jmp_op_nibble`. -/
def jmpOpNibble (base : Text) : Option ℕ :=
  lookup [("jeq", 0x1), ("jgt", 0x2), ("jge", 0x3), ("jset", 0x4), ("jne", 0x5), ("jsgt", 0x6),
    ("jsge", 0x7), ("jlt", 0xa), ("jle", 0xb), ("jslt", 0xc), ("jsle", 0xd)] base

/-- `assemble_jmp`. -/
def assembleJmp (opNibble : ℕ) (is32 : Bool) : List Text → Run BpfError Slot
  | [dst, rhs, off] => do
    let dst ← parseReg dst
    let (isReg, src, imm) ← parseAluRhs rhs
    let off ← parseBranchOffset checks off
    return .insn (16 * opNibble + (if isReg then 0x08 else 0) + (if is32 then 0x06 else 0x05)) dst
      src off imm
  | operands => fail (.wrongArity "jcc".toList 3 operands.length)

/-- The arithmetic of `assemble_alu_or_jmp`. -/
def assembleAlu (opNibble aluClass : ℕ) (operands : List Text) : Run BpfError Slot :=
  if opNibble = 0x8 then do
    let dst ← unary mnemonic operands
    let dst ← parseReg dst
    return .insn (16 * opNibble + aluClass) dst 0 0 0
  else do
    let (dst, rhs) ← binary mnemonic operands
    let dst ← parseReg dst
    let (isReg, src, imm) ← parseAluRhs rhs
    return .insn (16 * opNibble + (if isReg then 0x08 else 0) + aluClass) dst src 0 imm

/-- `assemble_alu_or_jmp`: the mnemonic with its suffix for the width. -/
def assembleAluOrJmp : Run BpfError Slot :=
  let (base, alu64, jmp32) := match Text.stripSuffix? mnemonic "64".toList with
    | some b => (b, true, false)
    | none => match Text.stripSuffix? mnemonic "32".toList with
      | some b => (b, false, true)
      | none => (mnemonic, false, false)
  match jmpOpNibble base with
  | some opNibble => assembleJmp checks opNibble jmp32 operands
  | none => match aluOpNibble base with
    | none => fail (.unknownMnemonic mnemonic)
    | some opNibble => assembleAlu mnemonic opNibble (if alu64 then 0x07 else 0x04) operands

/-- An instruction with operands, by its mnemonic. -/
def assembleMnemonic : Run BpfError Slot :=
  if mnemonic = "lddw".toList then assembleLddw operands
  else if (["ldxw", "ldxh", "ldxb", "ldxdw"].map String.toList).contains mnemonic then
    assembleLdx checks mnemonic operands
  else if (["stw", "sth", "stb", "stdw"].map String.toList).contains mnemonic then
    assembleSt checks mnemonic operands
  else if (["stxw", "stxh", "stxb", "stxdw"].map String.toList).contains mnemonic then
    assembleStx checks mnemonic operands
  else if mnemonic = "le16".toList then assembleEndian mnemonic 0xd4 16 operands
  else if mnemonic = "le32".toList then assembleEndian mnemonic 0xd4 32 operands
  else if mnemonic = "le64".toList then assembleEndian mnemonic 0xd4 64 operands
  else if mnemonic = "be16".toList then assembleEndian mnemonic 0xdc 16 operands
  else if mnemonic = "be32".toList then assembleEndian mnemonic 0xdc 32 operands
  else if mnemonic = "be64".toList then assembleEndian mnemonic 0xdc 64 operands
  else if mnemonic = "ja".toList then assembleJa checks operands
  else if mnemonic = "call".toList then assembleCall 0 operands
  else if mnemonic = "call_internal".toList then assembleCall 1 operands
  else if mnemonic = "call_local".toList then assembleCallLocal operands
  else if mnemonic = "callx".toList then assembleCallx operands
  else assembleAluOrJmp checks mnemonic operands

/-- A text between a head and `>` that is a hexadecimal number. -/
def bracketed (limit : ℕ) (rest : Text) : Run BpfError ℕ :=
  match (Text.stripSuffix? rest ['>']).bind (Text.fromStrRadix limit 16) with
  | some v => .ok v
  | none => fail .notRecognised

/-- The slot of a text. -/
def assembleSlot : Run BpfError Slot :=
  let text := Text.trim text
  if text = [] then fail .empty
  else match Text.stripPrefix? text "<bpf 0x".toList with
    | some rest => do
      let v ← bracketed wordSize rest
      return .word v
    | none => match Text.stripPrefix? text "<lddw-cont 0x".toList with
      | some rest => do
        let high ← bracketed (2 ^ 32) rest
        return .insn 0x00 0 0 0 high
      | none =>
        if text = "exit".toList then return .insn 0x95 0 0 0 0
        else
          let isName (c : Char) : Bool := !Text.isWhitespace c
          assembleMnemonic checks (text.takeWhile isName)
            (splitOperands (Text.trim (text.dropWhile isName)))

/-- `assemble_bpf`. -/
def assembleBpf : Run ArchError Bytes :=
  match assembleSlot checks text with
  | .ok slot => .ok slot.bytes
  | .error (.err e) => fail (.assembleBpf e)
  | .error .panic => .error .panic

/-- An assembled instruction has eight bytes. -/
theorem length_assembleBpf {text : Text} {bytes : Bytes}
    (h : assembleBpf checks text = .ok bytes) : bytes.length = 8 := by
  unfold assembleBpf at h
  split at h
  · obtain rfl := Except.ok.inj h
    exact Slot.length_bytes _
  · simp [fail] at h
  · simp at h

end Assembler

/-! ## Symbolic texts -/

/-- The signed distance in bytes from the slot behind `sourceIp` to `target`, on 64 bits. -/
def slotDelta (sourceIp target : ℕ) : ℤ :=
  toI64 ((target + wordSize - (sourceIp + 8) % wordSize) % wordSize)

/-- `slot_offset_from`: the distance in slots, when it is one. -/
def slotOffsetFrom (target insnAddr : ℕ) : Option ℤ :=
  let delta := slotDelta insnAddr target
  if delta % 8 ≠ 0 then none else some (delta / 8)

/-- A branch offset as the assembler reads it. -/
def offsetText (slots : ℤ) : Text :=
  (if 0 ≤ slots then "+0x".toList else "-0x".toList) ++ Text.toHex slots.natAbs

/-- `is_symbolic_callee`. -/
def isSymbolicCallee (name : Text) : Bool :=
  match Text.trim name with
  | [] => false
  | c :: cs => !("0x".toList <+: c :: cs) && !("0X".toList <+: c :: cs) &&
      !("sub_".toList <+: c :: cs) && !('0' ≤ c && c ≤ '9') && !(c :: cs).contains ','

/-- `rewrite_stack_slot`. Each round removes an occurrence of `head`, so the length bounds them. -/
def rewriteStackSlot (head replacement : Text) : ℕ → Text → Text
  | 0, rest => rest
  | fuel + 1, rest => match Text.splitAtFirst head rest with
    | none => rest
    | some (before, after) => match Text.splitAtFirst [']'] after with
      | none => rest
      | some (hex, rest) =>
        before ++ replacement ++ hex ++ [']'] ++ rewriteStackSlot head replacement fuel rest

/-- A jump to a label, resolved: the text before the label, and its address in hexadecimal. -/
def desymbolizeLabel (head separator hex : Text) (insnAddr : ℕ) : Option Text := do
  let target ← Text.fromStrRadix wordSize 16 (Text.trim hex)
  let slots ← slotOffsetFrom target insnAddr
  return head ++ separator ++ offsetText slots

/-- The load of a constant that is shown as a string, with the constant in its place. -/
def desymbolizeLddw : Option Text := do
  let rest ← Text.stripPrefix? text "lddw ".toList
  let (head, imm) ← Text.splitAtFirst " @0x".toList rest
  let (reg, _) ← Text.splitAtFirst [','] head
  return "lddw ".toList ++ Text.trim reg ++ ", 0x".toList ++ Text.trim imm

/-- The names of stack slots, resolved. -/
def desymbolizeSlots : Text :=
  let text := rewriteStackSlot "[local_".toList "[r10 - 0x".toList text.length text
  rewriteStackSlot "[arg_".toList "[r10 + 0x".toList text.length text

/-- A call to a function that is named by its address, resolved. -/
def desymbolizeCall (mnemonic hex : Text) (insnAddr : ℕ) : Option Text := do
  let target ← Text.fromStrRadix wordSize 16 (Text.trim hex)
  let slots ← slotOffsetFrom target insnAddr
  return mnemonic ++ [' '] ++ Text.intToDec slots

/-- `desymbolize_bpf_text`, without a hint about the opcode, as every codec calls it. -/
def desymbolizeBpfText (insnAddr : ℕ) : Option Text :=
  match Text.stripPrefix? text "call_local sub_".toList with
  | some hex => desymbolizeCall "call_local".toList hex insnAddr
  | none => match Text.stripPrefix? text "call sub_".toList with
    | some hex => desymbolizeCall "call_internal".toList hex insnAddr
    | none =>
      if (Text.stripPrefix? text "call ".toList).any isSymbolicCallee then
        some "call_internal -1".toList
      else if (Text.stripPrefix? text "call_local ".toList).any isSymbolicCallee then
        some "call_local -1".toList
      else match Text.splitAtFirst ", label_".toList text with
        | some (head, hex) => desymbolizeLabel head ", ".toList hex insnAddr
        | none => match Text.splitAtFirst " label_".toList text with
          | some (head, hex) => desymbolizeLabel head " ".toList hex insnAddr
          | none => match desymbolizeLddw text with
            | some resolved => some resolved
            | none => some (desymbolizeSlots text)

/-! ## Moves and arithmetic -/

/-- `is_bpf_reg`. -/
def isBpfReg : Bool :=
  (["r0", "r1", "r2", "r3", "r4", "r5", "r6", "r7", "r8", "r9", "r10"].map String.toList).contains
    (Text.trim s)

/-- `is_bracket_mem`. -/
def isBracketMem : Bool := ['['] <+: Text.trim s && [']'] <:+ Text.trim s

/-- `split_size_suffix`: the operand without the width of its access, and the width. -/
def splitSizeSuffix : Text × Option ℕ :=
  let s := Text.trim s
  match Text.splitAtLast ":u".toList s with
  | none => (s, none)
  | some (core, suffix) => match Text.fromStrRadix (2 ^ 32) 10 suffix with
    | none => (s, none)
    | some n => if [8, 16, 32, 64].contains n then (Text.trimEnd core, some n) else (s, none)

/-- `size_suffix_for_bits`. -/
def sizeSuffixForBits (bits : ℕ) : Run ArchError Text :=
  if bits = 8 then .ok "b".toList
  else if bits = 16 then .ok "h".toList
  else if bits = 32 then .ok "w".toList
  else if bits = 64 then .ok "dw".toList
  else fail (.outOfRange (.accessWidth bits))

/-- Whether a text is a hexadecimal digit or more. -/
def isHexDigits (hex : Text) : Bool := hex ≠ [] && hex.all fun c => (Text.toDigit 16 c).isSome

/-- `is_lddw_imm`. -/
def isLddwImm : Bool :=
  let s := Text.trim s
  let s := (Text.stripPrefix? s ['-']).getD s
  match Text.stripPrefix? s "0x".toList with
  | none => false
  | some hex => isHexDigits hex && (Text.fromStrRadix wordSize 16 hex).any fun v => 2 ^ 32 ≤ v

/-- `is_bpf_imm`. -/
def isBpfImm : Bool :=
  let s := Text.trim s
  let s := (Text.stripPrefix? s ['-']).getD s
  match Text.stripPrefix? s "0x".toList with
  | some hex => isHexDigits hex
  | none => s ≠ [] && s.all fun c => (Text.toDigit 10 c).isSome

/-- `desymbolize_mem`. -/
def desymbolizeMem (operand : Text) : Text := (desymbolizeBpfText operand 0).getD operand

/-- The short name of the codec. -/
def BpfVariant.codecName : BpfVariant → Text
  | .linux => "bpf-linux".toList
  | .sbfv1 => "bpf-sbf-v1".toList
  | .sbfv2 => "bpf-sbf-v2".toList

section Codec

variable (checks : Bool) (variant : BpfVariant)

/-- `BpfCodec::encode_move`. -/
def encodeMove (dst src : Text) : Run ArchError Bytes :=
  let (dstCore, dstSize) := splitSizeSuffix (Text.trim dst)
  let (srcCore, srcSize) := splitSizeSuffix (Text.trim src)
  if isBpfReg dstCore && (srcSize = some 64 || isLddwImm srcCore) then
    assembleBpf checks ("lddw ".toList ++ dstCore ++ ", ".toList ++ Text.trim srcCore)
  else if isBpfReg dstCore && isBracketMem srcCore then do
    let suffix ← sizeSuffixForBits (srcSize.getD 64)
    assembleBpf checks ("ldx".toList ++ suffix ++ [' '] ++ dstCore ++ ", ".toList ++
      desymbolizeMem srcCore)
  else if isBracketMem dstCore && isBpfReg srcCore then do
    let suffix ← sizeSuffixForBits (dstSize.getD 64)
    assembleBpf checks ("stx".toList ++ suffix ++ [' '] ++ desymbolizeMem dstCore ++
      ", ".toList ++ srcCore)
  else if isBpfReg dstCore && (isBpfReg srcCore || isBpfImm srcCore) then
    assembleBpf checks ("mov64 ".toList ++ dstCore ++ ", ".toList ++ srcCore)
  else unsupported variant.codecName "move (unrecognised operand shape)"

/-- The mnemonic of an arithmetic operator. -/
def arithMnemonic (op : Text) : Option Text :=
  ([("+=", "add64"), ("-=", "sub64"), ("*=", "mul64"), ("/=", "div64"), ("%=", "mod64"),
    ("|=", "or64"), ("&=", "and64"), ("^=", "xor64"), ("<<=", "lsh64"), (">>=", "rsh64")].find?
      fun entry => entry.1.toList = op).map fun entry => entry.2.toList

/-- `BpfCodec::encode_arith`. -/
def encodeArith (dst op src : Text) : Run ArchError Bytes :=
  let dst := Text.trim dst
  let src := Text.trim src
  if !isBpfReg dst then unsupported variant.codecName "arith (non-register dst)"
  else if !(isBpfReg src || isBpfImm src) then
    unsupported variant.codecName "arith (unsupported src shape)"
  else match arithMnemonic op with
    | none => unsupported variant.codecName "arith (unsupported op)"
    | some mnemonic =>
      assembleBpf checks (mnemonic ++ [' '] ++ dst ++ ", ".toList ++ src)

/-! ## Branches -/

variable (sourceIp target : ℕ)

/-- `slot_offset`. -/
def slotOffset : Run ArchError ℤ :=
  let delta := slotDelta sourceIp target
  if delta % 8 ≠ 0 then fail (.outOfRange (.slotMisaligned delta))
  else
    let slots := delta / 8
    if -2 ^ 15 ≤ slots ∧ slots < 2 ^ 15 then .ok slots else fail (.outOfRange (.slotOverflow slots))

/-- `BpfCodec::encode_jump`, which is `assemble_bpf_ja` at the offset of the target. -/
def encodeJump : Run ArchError Bytes := do
  let off ← slotOffset sourceIp target
  assembleBpf checks ("ja ".toList ++ offsetText off)

/-- `BpfCodec::encode_call`. -/
def encodeCall (hints : EncodeHints) : Run ArchError Bytes := do
  let slots ← slotOffset sourceIp target
  let mnemonic := if hints.bpf_call_local.getD false then "call_local" else "call_internal"
  assembleBpf checks (mnemonic.toList ++ [' '] ++ Text.intToDec slots)

/-- `parse_ifblock_cond`: the operands of a comparison, and the mnemonic of the jump for its
failure. -/
def parseIfblockCond (cond : Text) : Run ArchError (Text × String × Text) :=
  let cond := Text.trim cond
  if ['('] <+: cond then fail (.assembleBpf .notRecognised)
  else
    match [("!=", "jeq"), ("==", "jne"), ("<=", "jgt"), (">=", "jlt"), ("<", "jge"),
        (">", "jle")].findSome? fun entry =>
      (Text.splitAtFirst entry.1.toList cond).map fun p =>
        (Text.trim p.1, entry.2, Text.trim p.2) with
    | some parsed => .ok parsed
    | none => fail (.assembleBpf .notRecognised)

/-- `BpfCodec::encode_cond_jump`, which is `assemble_bpf_ifblock_cond` at the offset of the
target. -/
def encodeCondJump (condText : Text) (sourceIp target : ℕ) : Run ArchError Bytes := do
  let off ← slotOffset sourceIp target
  let (lhs, mnemonic, rhs) ← parseIfblockCond condText
  assembleBpf checks (mnemonic.toList ++ [' '] ++ lhs ++ ", ".toList ++ rhs ++
    ", ".toList ++ offsetText off)

/-- `BpfCodec`. -/
def bpfCodec : ArchCodec where
  assembleOne text _ := assembleBpf checks text
  desymbolize text addr := (desymbolizeBpfText text addr).getD text
  encodeJump sourceIp target _ := encodeJump checks sourceIp target
  encodeCall := encodeCall checks
  encodeCondJump condText sourceIp target _ := encodeCondJump checks condText sourceIp target
  encodeCondJumpWithCode _ _ _ _ := unsupported variant.codecName "cond_jump_with_code"
  encodeSwitchDispatch _ := unsupported variant.codecName "switch_dispatch"
  encodedJumpSize _ _ _ := 8
  directCallBytesContainCall := true
  encodeMove := encodeMove checks variant
  encodeArith := encodeArith checks variant
  encodeReturn _ := assembleBpf checks "exit".toList

end Codec

end Univdreams.Arch.Bpf
