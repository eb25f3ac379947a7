import Univdreams.Bytes
import Univdreams.Text

/-!
# The interface of an architecture

The trait `ArchCodec` of `src/arch/codec/mod.rs`, as a structure of functions. Every decision about
the encoding of an instruction belongs to a codec; the lowering and the byte-drop passes take one as
a parameter. Addresses are natural numbers below `2 ^ 64`.
-/

namespace Univdreams.Arch

/-- An operand that does not fit its encoding. -/
inductive RangeError where
  /-- A branch to a target that is too far away. -/
  | jump (source target : ℕ)
  | unsupportedSelector (name : Text)
  | tooManyCases (count : ℕ)
  /-- A switch dispatch whose default target is too far away. -/
  | ja (cmpIp default : ℕ)
  /-- A BPF branch by a number of bytes that is not one of slots. -/
  | slotMisaligned (delta : ℤ)
  /-- A BPF branch by a number of slots that does not fit its field. -/
  | slotOverflow (slots : ℤ)
  | accessWidth (bits : ℕ)
  deriving DecidableEq, Repr

/-- The errors of the BPF assembler. -/
inductive BpfError where
  | empty
  | unknownMnemonic (mnemonic : Text)
  | badOperand (operand context : Text)
  | wrongArity (mnemonic : Text) (expected got : ℕ)
  | immediateOverflow (value bits : ℕ)
  | offsetOverflow (offset : ℤ)
  | badRegister (n : ℕ)
  | notRecognised
  deriving DecidableEq, Repr

/-- `AssembleError`: the errors of the x86 assembler. -/
inductive AssembleError where
  | empty
  | unsupported (form : Text)
  | encodeFailed (message : Text)
  deriving DecidableEq, Repr

/-- The errors of a codec. The source renders the cause of an operand or assembler error to a text
at once; here the cause is kept. The error for an unknown architecture comes from no codec. -/
inductive ArchError where
  | unsupported (arch operation : Text)
  | assemble (cause : AssembleError)
  | assembleBpf (cause : BpfError)
  | outOfRange (cause : RangeError)
  | other (message : Text)
  deriving DecidableEq, Repr

/-- The choices of an encoding that a caller can ask for. -/
structure EncodeHints where
  wide : Option Bool
  bpf_call_local : Option Bool
  deriving DecidableEq, Repr

namespace EncodeHints

/-- `EncodeHints::default()`. -/
def default : EncodeHints := ⟨none, none⟩

/-- `EncodeHints::wide(wide)`. -/
def ofWide (wide : Bool) : EncodeHints := ⟨some wide, none⟩

/-- `hints.wide_or(default)`. -/
def wideOr (hints : EncodeHints) (default : Bool) : Bool := hints.wide.getD default

end EncodeHints

/-- A switch dispatch that is to be encoded. -/
structure SwitchSpec where
  selector : Text
  cases : List ℕ
  default_addr : ℕ
  dispatch : Text
  table_va : ℕ
  cmp_ip : ℕ
  deriving DecidableEq, Repr

/-- An architecture's codec. -/
structure ArchCodec where
  assembleOne : Text → ℕ → Run ArchError Bytes
  desymbolize : Text → ℕ → Text
  encodeJump : (sourceIp target : ℕ) → EncodeHints → Run ArchError Bytes
  encodeCall : (sourceIp target : ℕ) → EncodeHints → Run ArchError Bytes
  encodeCondJump : Text → (sourceIp target : ℕ) → EncodeHints → Run ArchError Bytes
  encodeCondJumpWithCode : UInt8 → (sourceIp target : ℕ) → EncodeHints → Run ArchError Bytes
  encodeSwitchDispatch : SwitchSpec → Run ArchError Bytes
  encodedJumpSize : (sourceIp target : ℕ) → EncodeHints → ℕ
  directCallBytesContainCall : Bool
  encodeMove : (dst src : Text) → Run ArchError Bytes
  encodeArith : (dst op src : Text) → Run ArchError Bytes
  encodeReturn : Option ℕ → Run ArchError Bytes

/-- The default of the trait for an operation that a codec does not model. -/
def unsupported {α : Type} (arch : Text) (operation : String) : Run ArchError α :=
  fail (.unsupported arch operation.toList)

/-- The loop of `split_operands`, with the depth of brackets and the operand so far. -/
def splitOperandsFrom (depth : ℤ) (cur : Text) : Text → List Text
  | [] => [Text.trim cur]
  | c :: cs =>
    if c = '[' then splitOperandsFrom (depth + 1) (cur ++ [c]) cs
    else if c = ']' then splitOperandsFrom (depth - 1) (cur ++ [c]) cs
    else if c = ',' ∧ depth = 0 then Text.trim cur :: splitOperandsFrom depth [] cs
    else splitOperandsFrom depth (cur ++ [c]) cs

end Univdreams.Arch
