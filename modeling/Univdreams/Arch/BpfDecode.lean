import Univdreams.Arch.Bpf

/-!
# Decoding and formatting BPF

The decoder and the text form of `src/arch/bpf/mod.rs`. A program is a sequence of slots of eight
bytes. Every slot is decoded by itself, but for the load of a 64-bit constant, which takes two.
-/

namespace Univdreams.Arch.Bpf

/-- `InsnKind`. -/
inductive InsnKind where
  | alu32
  | alu64
  | jmp
  | jmpCond
  | jmpCond32
  | call
  | callReg
  | exit
  | load
  | store
  /-- The first slot of a load of a 64-bit constant. -/
  | lddw
  /-- The second slot of a load of a 64-bit constant. -/
  | lddwSecondHalf
  | endian
  | unknown
  deriving DecidableEq, Repr

/-- `DecodedInsn`. -/
structure DecodedInsn where
  addr : ℕ
  bytes : Bytes
  kind : InsnKind
  opcode : ℕ
  dst : ℕ
  src : ℕ
  offset : ℤ
  imm : ℤ
  imm64 : Option ℕ
  deriving DecidableEq, Repr

/-- The errors of the decoder. -/
inductive DecodeError where
  | misaligned (len : ℕ)
  deriving DecidableEq, Repr

/-! ## Classes of opcodes -/

/-- `classify_jmp`. -/
def classifyJmp (opcode : ℕ) (variant : BpfVariant) : InsnKind :=
  if opcode / 16 = 0x0 then .jmp
  else if opcode / 16 = 0x8 then
    if opcode = 0x8d ∧ variant ≠ .linux then .callReg
    else if opcode = 0x8d then .call
    else if opcode = 0x85 then .call
    else .jmpCond
  else if opcode = 0x95 then .exit
  else .jmpCond

/-- `classify_opcode`. The class is the low three bits of the opcode. -/
def classifyOpcode (opcode : ℕ) (variant : BpfVariant) : InsnKind :=
  if opcode % 8 = 0x00 ∨ opcode % 8 = 0x01 then .load
  else if opcode % 8 = 0x02 ∨ opcode % 8 = 0x03 then .store
  else if opcode % 8 = 0x04 then if opcode / 16 = 0xd then .endian else .alu32
  else if opcode % 8 = 0x05 then classifyJmp opcode variant
  else if opcode % 8 = 0x06 then .jmpCond32
  else if opcode / 16 = 0xd then .endian else .alu64

/-! ## Decoding -/

/-- A word of `w` bits as a signed number. -/
def signedWord (w v : ℕ) : ℤ := if v < 2 ^ (w - 1) then v else v - 2 ^ w

/-- The byte at an offset of a slot. -/
def byteAt (slot : Bytes) (i : ℕ) : ℕ := (slot.getD i 0).toNat

/-- The fields of a slot, with the given kind and constant. -/
def decodeSlot (addr : ℕ) (slot : Bytes) (kind : InsnKind) (imm64 : Option ℕ) : DecodedInsn where
  addr := addr
  bytes := slot
  kind := kind
  opcode := byteAt slot 0
  dst := byteAt slot 1 % 16
  src := byteAt slot 1 / 16
  offset := signedWord 16 (readLe 2 slot 2)
  imm := signedWord 32 (readLe 4 slot 4)
  imm64 := imm64

/-- A slot that is decoded by itself. -/
def decodeSingle (addr : ℕ) (slot : Bytes) (variant : BpfVariant) : DecodedInsn :=
  decodeSlot addr slot
    (if byteAt slot 0 = 0x18 then .unknown else classifyOpcode (byteAt slot 0) variant) none

/-- The constant of a load that takes two slots. -/
def lddwImm (slot next : Bytes) : ℕ := readLe 4 slot 4 + 2 ^ 32 * readLe 4 next 4

/-- The loop of `decode`, from the slots at offset `i` on. -/
def decodeSlots (start : ℕ) (variant : BpfVariant) : (i : ℕ) → List Bytes → List DecodedInsn
  | _, [] => []
  | i, [slot] => [decodeSingle (saturatingAdd start i) slot variant]
  | i, slot :: next :: slots =>
    let addr := saturatingAdd start i
    if byteAt slot 0 = 0x18 ∧ byteAt next 0 = 0 then
      decodeSlot addr slot .lddw (some (lddwImm slot next)) ::
        decodeSlot ((addr + 8) % wordSize) next .lddwSecondHalf none ::
        decodeSlots start variant (i + 16) slots
    else decodeSingle addr slot variant :: decodeSlots start variant (i + 8) (next :: slots)

/-- The first `n` slots of some bytes. -/
def slotsOf : ℕ → Bytes → List Bytes
  | 0, _ => []
  | n + 1, bytes => bytes.take 8 :: slotsOf n (bytes.drop 8)

/-- `decode`. -/
def decode (bytes : Bytes) (start : ℕ) (variant : BpfVariant) :
    Except DecodeError (List DecodedInsn) :=
  if bytes.length % 8 ≠ 0 then .error (.misaligned bytes.length)
  else .ok (decodeSlots start variant 0 (slotsOf (bytes.length / 8) bytes))

/-! ## Targets -/

/-- The address `slots` slots behind the next one, on 64 bits. -/
def targetAt (addr : ℕ) (slots : ℤ) : ℕ := ((addr + 8 + slots * 8) % wordSize).toNat

variable (insn : DecodedInsn)

/-- `jump_target`. -/
def jumpTarget : ℕ := targetAt insn.addr insn.offset

/-- `call_target`. -/
def callTarget : ℕ := targetAt insn.addr insn.imm

/-! ## Text -/

/-- `imm as u32`. -/
def DecodedInsn.immWord : ℕ := (insn.imm % 2 ^ 32).toNat

/-- `0x{n:x}`. -/
def hexOf (n : ℕ) : Text := "0x".toList ++ Text.toHex n

/-- `0x{n:08x}`. -/
def hexPadded (n : ℕ) : Text :=
  "0x".toList ++ List.replicate (8 - (Text.toHex n).length) '0' ++ Text.toHex n

/-- `r{n}`. -/
def regText (n : ℕ) : Text := 'r' :: Text.toDec n

/-- `size_letter`. -/
def sizeLetter (opcode : ℕ) : Text :=
  if opcode / 8 % 4 = 0 then "w".toList
  else if opcode / 8 % 4 = 1 then "h".toList
  else if opcode / 8 % 4 = 2 then "b".toList
  else "dw".toList

/-- `format_offset`. -/
def formatOffset (offset : ℤ) : Text :=
  if offset = 0 then []
  else if 0 < offset then " + ".toList ++ hexOf offset.natAbs
  else " - ".toList ++ hexOf offset.natAbs

/-- A memory operand. -/
def memText (reg : ℕ) (offset : ℤ) : Text := '[' :: regText reg ++ formatOffset offset ++ [']']

/-- `format_ld`. -/
def formatLd : Text :=
  if insn.opcode = 0x18 then
    "lddw ".toList ++ regText insn.dst ++ ", ".toList ++ hexOf (insn.imm64.getD insn.immWord)
  else if insn.opcode = 0 then "<lddw-cont ".toList ++ hexPadded insn.immWord ++ ['>']
  else if insn.opcode ∈ [0x20, 0x28, 0x30, 0x38, 0x40, 0x48, 0x50] then
    "ld_abs_".toList ++ sizeLetter insn.opcode ++ " r0, ".toList ++ hexOf insn.immWord
  else
    "ldx".toList ++ sizeLetter insn.opcode ++ [' '] ++ regText insn.dst ++ ", ".toList ++
      memText insn.src insn.offset

/-- `format_st`. -/
def formatSt : Text :=
  if insn.opcode % 8 = 0x02 then
    "st".toList ++ sizeLetter insn.opcode ++ [' '] ++ memText insn.dst insn.offset ++ ", ".toList ++
      hexOf insn.immWord
  else
    "stx".toList ++ sizeLetter insn.opcode ++ [' '] ++ memText insn.dst insn.offset ++
      ", ".toList ++ regText insn.src

/-- `format_endian`. -/
def formatEndian : Text :=
  (if insn.opcode / 8 % 2 = 0 then "le".toList else "be".toList) ++ Text.intToDec insn.imm ++
    [' '] ++ regText insn.dst

/-- The mnemonic of an arithmetic instruction, by the high half of its opcode. -/
def aluMnemonic (opNibble : ℕ) (variant : BpfVariant) : Text :=
  match opNibble with
  | 0x0 => "add".toList
  | 0x1 => "sub".toList
  | 0x2 => "mul".toList
  | 0x3 => if variant = .sbfv2 then "udiv".toList else "div".toList
  | 0x4 => "or".toList
  | 0x5 => "and".toList
  | 0x6 => "lsh".toList
  | 0x7 => "rsh".toList
  | 0x8 => "neg".toList
  | 0x9 => if variant = .sbfv2 then "urem".toList else "mod".toList
  | 0xa => "xor".toList
  | 0xb => "mov".toList
  | 0xc => "arsh".toList
  | 0xe => if variant = .sbfv2 then "sdiv".toList else "<alu?>".toList
  | 0xf => if variant = .sbfv2 then "srem".toList else "<alu?>".toList
  | _ => "<alu?>".toList

/-- `format_alu`. -/
def formatAlu (alu64 : Bool) (variant : BpfVariant) : Text :=
  let opNibble := insn.opcode / 16
  let suffix := if alu64 then "64".toList else "32".toList
  if opNibble = 0xd then formatEndian insn
  else if opNibble = 0x8 then "neg".toList ++ suffix ++ [' '] ++ regText insn.dst
  else aluMnemonic opNibble variant ++ suffix ++ [' '] ++ regText insn.dst ++ ", ".toList ++
    if insn.opcode / 8 % 2 = 1 then regText insn.src else hexOf insn.immWord

/-- `format_branch_offset`. -/
def formatBranchOffset (offset : ℤ) : Text := offsetText offset

/-- The mnemonic of a conditional jump, by the high half of its opcode. -/
def jmpMnemonic : ℕ → Text
  | 0x1 => "jeq".toList
  | 0x2 => "jgt".toList
  | 0x3 => "jge".toList
  | 0x4 => "jset".toList
  | 0x5 => "jne".toList
  | 0x6 => "jsgt".toList
  | 0x7 => "jsge".toList
  | 0xa => "jlt".toList
  | 0xb => "jle".toList
  | 0xc => "jslt".toList
  | 0xd => "jsle".toList
  | _ => "<jcc?>".toList

/-- `format_jmp`. -/
def formatJmp (is32 : Bool) : Text :=
  if insn.opcode / 16 = 0 ∧ is32 = false ∧ insn.opcode = 0x05 then
    "ja ".toList ++ formatBranchOffset insn.offset
  else if insn.opcode = 0x85 then "call ".toList ++ hexOf insn.immWord
  else if insn.opcode = 0x8d then "callx ".toList ++ regText insn.dst
  else if insn.opcode = 0x95 then "exit".toList
  else
    jmpMnemonic (insn.opcode / 16) ++ (if is32 then "32".toList else []) ++ [' '] ++
      regText insn.dst ++ ", ".toList ++
      (if insn.opcode / 8 % 2 = 1 then regText insn.src else hexOf insn.immWord) ++ ", ".toList ++
      formatBranchOffset insn.offset

/-- `format_insn`. -/
def formatInsn (variant : BpfVariant) : Text :=
  if insn.kind = .lddwSecondHalf then "<lddw-cont ".toList ++ hexPadded insn.immWord ++ ['>']
  else if insn.opcode % 8 = 0x00 ∨ insn.opcode % 8 = 0x01 then formatLd insn
  else if insn.opcode % 8 = 0x02 ∨ insn.opcode % 8 = 0x03 then formatSt insn
  else if insn.opcode % 8 = 0x04 then formatAlu insn false variant
  else if insn.opcode % 8 = 0x05 then formatJmp insn false
  else if insn.opcode % 8 = 0x06 then formatJmp insn true
  else formatAlu insn true variant

end Univdreams.Arch.Bpf
