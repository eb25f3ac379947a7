import Univdreams.Bytes
import Univdreams.Text
import Univdreams.Words

/-!
# Default prologues and epilogues of x86 functions

The encoding half of `src/arch/x86/prologue_codec.rs`. The lowering generates the prologue and the
epilogue of a function that is marked for it from the function's profile. The decoding half is in
`Univdreams.Arch.PrologueDecode`.
-/

namespace Univdreams.Arch.X86

/-- The bit width of the codec. -/
inductive CodecBits where
  | bits32
  | bits64
  deriving DecidableEq, Repr

/-- A prologue, by its parameters. -/
structure StructuredPrologue where
  saves : List Text
  saves_after : List Text
  frame : Bool
  sub_esp : ℕ
  cf_protect : Bool
  frame_alt_encoding : Bool
  deriving DecidableEq, Repr

/-- An epilogue, by its parameters. -/
structure StructuredEpilogue where
  saves : List Text
  leave : Bool
  pop_frame : Bool
  add_esp : ℕ
  ret_imm : ℕ
  deriving DecidableEq, Repr

/-- What the defaults depend on. -/
structure ProfileInputs where
  saves_used : List Text
  frame_required : Bool
  sub_esp : ℕ
  cf_protect : Bool
  stack_arg_count : ℕ
  abi : Text
  bits : ℕ
  frame_alt : Bool
  body_has_call : Bool
  deriving DecidableEq, Repr

/-! ## Encoding -/

/-- The number of a register in an opcode, and whether it needs a REX prefix. -/
def encodeIndexOf (name : Text) : Option (UInt8 × Bool) :=
  if name = "eax".toList ∨ name = "rax".toList then some (0, false)
  else if name = "ecx".toList ∨ name = "rcx".toList then some (1, false)
  else if name = "edx".toList ∨ name = "rdx".toList then some (2, false)
  else if name = "ebx".toList ∨ name = "rbx".toList then some (3, false)
  else if name = "esp".toList ∨ name = "rsp".toList then some (4, false)
  else if name = "ebp".toList ∨ name = "rbp".toList then some (5, false)
  else if name = "esi".toList ∨ name = "rsi".toList then some (6, false)
  else if name = "edi".toList ∨ name = "rdi".toList then some (7, false)
  else if name = "r8".toList then some (0, true)
  else if name = "r9".toList then some (1, true)
  else if name = "r10".toList then some (2, true)
  else if name = "r11".toList then some (3, true)
  else if name = "r12".toList then some (4, true)
  else if name = "r13".toList then some (5, true)
  else if name = "r14".toList then some (6, true)
  else if name = "r15".toList then some (7, true)
  else none

/-- The push (`opcode = 0x50`) or pop (`opcode = 0x58`) of a register. An unknown name encodes to
nothing, and a register with a REX prefix panics outside of 64-bit code. -/
def regEncoded (opcode : UInt8) (bits : CodecBits) (name : Text) : Option Bytes :=
  match encodeIndexOf name with
  | none => some []
  | some (idx, true) => if bits = .bits64 then some [0x41, opcode + idx] else none
  | some (idx, false) => some [opcode + idx]

/-- `push_reg_encoded`. -/
def pushRegEncoded (bits : CodecBits) (name : Text) : Option Bytes := regEncoded 0x50 bits name

/-- `pop_reg_encoded`. -/
def popRegEncoded (bits : CodecBits) (name : Text) : Option Bytes := regEncoded 0x58 bits name

/-- An addition to or a subtraction from the stack pointer, which differ in the ModR/M byte. -/
def adjustEsp (modrm : UInt8) (imm : ℕ) (bits : CodecBits) : Bytes :=
  (if bits = .bits64 then [0x48] else []) ++
    if imm < 0x80 then [0x83, modrm, UInt8.ofNat imm] else [0x81, modrm] ++ toLe 4 imm

/-- `encode_sub_esp`. -/
def encodeSubEsp (imm : ℕ) (bits : CodecBits) : Bytes := adjustEsp 0xec imm bits

/-- `encode_add_esp`. -/
def encodeAddEsp (imm : ℕ) (bits : CodecBits) : Bytes := adjustEsp 0xc4 imm bits

/-- The landing pad of a function. -/
def endbr : CodecBits → Bytes
  | .bits32 => [0xf3, 0x0f, 0x1e, 0xfb]
  | .bits64 => [0xf3, 0x0f, 0x1e, 0xfa]

/-- The move of the stack pointer to the frame pointer, in one of its two encodings. -/
def movBpSp : CodecBits → Bool → Bytes
  | .bits32, false => [0x8b, 0xec]
  | .bits32, true => [0x89, 0xe5]
  | .bits64, false => [0x48, 0x8b, 0xec]
  | .bits64, true => [0x48, 0x89, 0xe5]

/-- The bytes of a prologue. -/
def encodePrologue (p : StructuredPrologue) (bits : CodecBits) : Option Bytes := do
  let saves ← p.saves.mapM (pushRegEncoded bits)
  let savesAfter ← p.saves_after.mapM (pushRegEncoded bits)
  return (if p.cf_protect then endbr bits else []) ++ saves.flatten ++
    (if p.frame then 0x55 :: movBpSp bits p.frame_alt_encoding else []) ++
    (if 0 < p.sub_esp then encodeSubEsp p.sub_esp bits else []) ++ savesAfter.flatten

/-- The bytes of an epilogue. -/
def encodeEpilogue (e : StructuredEpilogue) (bits : CodecBits) : Option Bytes := do
  let saves ← e.saves.mapM (popRegEncoded bits)
  return saves.flatten ++ (if 0 < e.add_esp then encodeAddEsp e.add_esp bits else []) ++
    (if e.leave then [0xc9] else if e.pop_frame then [0x5d] else []) ++
    (if e.ret_imm = 0 then [0xc3] else 0xc2 :: toLe 2 e.ret_imm)

/-! ## Defaults -/

variable (checks : Bool) (inputs : ProfileInputs)

/-- `(n + 15) & !15` on 32-bit words. -/
def alignUp16 (n : ℕ) : Option ℕ := do
  let m ← checkOverflow checks (2 ^ 32) (n + 15)
  return m / 16 * 16

/-- The stack space that a prologue reserves. -/
def computeAlignedSubEsp : Option ℕ :=
  if inputs.bits = 64 then
    if inputs.frame_required then alignUp16 checks inputs.sub_esp
    else if inputs.sub_esp = 0 ∧ ¬inputs.body_has_call then some 0
    else if inputs.sub_esp ≤ 8 then some 8
    else do
      let m ← alignUp16 checks (inputs.sub_esp - 8)
      checkOverflow checks (2 ^ 32) (m + 8)
  else some inputs.sub_esp

/-- The default prologue of a profile: with a frame the registers are saved behind it. -/
def defaultPrologue : Option StructuredPrologue := do
  let sub_esp ← computeAlignedSubEsp checks inputs
  return {
    saves := if inputs.frame_required then [] else inputs.saves_used
    saves_after := if inputs.frame_required then inputs.saves_used else []
    frame := inputs.frame_required
    sub_esp := sub_esp
    cf_protect := inputs.cf_protect
    frame_alt_encoding := inputs.frame_alt }

/-- The default epilogue of a profile. -/
def defaultEpilogue : Option StructuredEpilogue := do
  let calleeCleanup := inputs.abi = "stdcall".toList ∨ inputs.abi = "thiscall".toList ∨
    inputs.abi = "fastcall".toList
  -- The multiplication is on 32-bit words; a result that is no 16-bit word counts as none.
  let cleanup ← if calleeCleanup then
    checkOverflow checks (2 ^ 32) (inputs.stack_arg_count * 4) else some 0
  let sub_esp ← computeAlignedSubEsp checks inputs
  let leave := inputs.frame_required && decide (0 < sub_esp)
  return {
    saves := inputs.saves_used.reverse
    leave := leave
    pop_frame := inputs.frame_required && !leave
    add_esp := if inputs.frame_required then 0 else sub_esp
    ret_imm := if cleanup < 2 ^ 16 then cleanup else 0 }

end Univdreams.Arch.X86
