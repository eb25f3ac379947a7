import Univdreams.Text
import Univdreams.Evm.Machine

/-!
# The opcodes of EVM bytecode

The opcode table of `src/arch/evm/table.rs` and the linear decoder of `src/arch/evm/mod.rs`. The
table gives each byte its mnemonic, the number of immediate bytes behind it, and how many stack
items it takes and leaves. `opInfo_of_arity` compares it with the machine of `Evm.Machine`: an
opcode that computes a word there takes as many items as the table says, and leaves one.
-/

namespace Univdreams.Evm

/-- `OpInfo`: the static description of one opcode. -/
structure OpInfo where
  /-- The mnemonic, empty for an undefined opcode. -/
  name : Text
  /-- The number of immediate bytes behind the opcode. -/
  immLen : ℕ
  /-- The number of stack items taken. -/
  pops : ℕ
  /-- The number of stack items left. -/
  pushes : ℕ
deriving DecidableEq, Repr

/-- `OpInfo::UNDEFINED`. -/
def OpInfo.undefined : OpInfo := ⟨[], 0, 0, 0⟩

/-- `OpInfo::is_defined`. -/
def OpInfo.isDefined (info : OpInfo) : Bool := !info.name.isEmpty

/-- The opcodes that `build_table` enters one by one, with their stack effects. -/
def singleOps : List (UInt8 × String × ℕ × ℕ) :=
  [(0x00, "STOP", 0, 0), (0x01, "ADD", 2, 1), (0x02, "MUL", 2, 1), (0x03, "SUB", 2, 1),
   (0x04, "DIV", 2, 1), (0x05, "SDIV", 2, 1), (0x06, "MOD", 2, 1), (0x07, "SMOD", 2, 1),
   (0x08, "ADDMOD", 3, 1), (0x09, "MULMOD", 3, 1), (0x0a, "EXP", 2, 1),
   (0x0b, "SIGNEXTEND", 2, 1), (0x10, "LT", 2, 1), (0x11, "GT", 2, 1), (0x12, "SLT", 2, 1),
   (0x13, "SGT", 2, 1), (0x14, "EQ", 2, 1), (0x15, "ISZERO", 1, 1), (0x16, "AND", 2, 1),
   (0x17, "OR", 2, 1), (0x18, "XOR", 2, 1), (0x19, "NOT", 1, 1), (0x1a, "BYTE", 2, 1),
   (0x1b, "SHL", 2, 1), (0x1c, "SHR", 2, 1), (0x1d, "SAR", 2, 1), (0x1e, "CLZ", 1, 1),
   (0x20, "KECCAK256", 2, 1), (0x30, "ADDRESS", 0, 1), (0x31, "BALANCE", 1, 1),
   (0x32, "ORIGIN", 0, 1), (0x33, "CALLER", 0, 1), (0x34, "CALLVALUE", 0, 1),
   (0x35, "CALLDATALOAD", 1, 1), (0x36, "CALLDATASIZE", 0, 1), (0x37, "CALLDATACOPY", 3, 0),
   (0x38, "CODESIZE", 0, 1), (0x39, "CODECOPY", 3, 0), (0x3a, "GASPRICE", 0, 1),
   (0x3b, "EXTCODESIZE", 1, 1), (0x3c, "EXTCODECOPY", 4, 0), (0x3d, "RETURNDATASIZE", 0, 1),
   (0x3e, "RETURNDATACOPY", 3, 0), (0x3f, "EXTCODEHASH", 1, 1), (0x40, "BLOCKHASH", 1, 1),
   (0x41, "COINBASE", 0, 1), (0x42, "TIMESTAMP", 0, 1), (0x43, "NUMBER", 0, 1),
   (0x44, "PREVRANDAO", 0, 1), (0x45, "GASLIMIT", 0, 1), (0x46, "CHAINID", 0, 1),
   (0x47, "SELFBALANCE", 0, 1), (0x48, "BASEFEE", 0, 1), (0x49, "BLOBHASH", 1, 1),
   (0x4a, "BLOBBASEFEE", 0, 1), (0x50, "POP", 1, 0), (0x51, "MLOAD", 1, 1),
   (0x52, "MSTORE", 2, 0), (0x53, "MSTORE8", 2, 0), (0x54, "SLOAD", 1, 1),
   (0x55, "SSTORE", 2, 0), (0x56, "JUMP", 1, 0), (0x57, "JUMPI", 2, 0), (0x58, "PC", 0, 1),
   (0x59, "MSIZE", 0, 1), (0x5a, "GAS", 0, 1), (0x5b, "JUMPDEST", 0, 0), (0x5c, "TLOAD", 1, 1),
   (0x5d, "TSTORE", 2, 0), (0x5e, "MCOPY", 3, 0), (0x5f, "PUSH0", 0, 1), (0xf0, "CREATE", 3, 1),
   (0xf1, "CALL", 7, 1), (0xf2, "CALLCODE", 7, 1), (0xf3, "RETURN", 2, 0),
   (0xf4, "DELEGATECALL", 6, 1), (0xf5, "CREATE2", 4, 1), (0xfa, "STATICCALL", 6, 1),
   (0xfd, "REVERT", 2, 0), (0xfe, "INVALID", 0, 0), (0xff, "SELFDESTRUCT", 1, 0)]

/-- `OPCODE_TABLE`, as `build_table` fills it. -/
def opInfo (op : UInt8) : OpInfo :=
  let family (name : String) (base : UInt8) : Text := name.toList ++ Text.toDec (op - base).toNat
  if 0x60 ≤ op ∧ op ≤ 0x7f then ⟨family "PUSH" 0x5f, (op - 0x5f).toNat, 0, 1⟩
  else if 0x80 ≤ op ∧ op ≤ 0x8f then
    ⟨family "DUP" 0x7f, 0, (op - 0x7f).toNat, (op - 0x7f).toNat + 1⟩
  else if 0x90 ≤ op ∧ op ≤ 0x9f then
    ⟨family "SWAP" 0x8f, 0, (op - 0x8f).toNat + 1, (op - 0x8f).toNat + 1⟩
  else if 0xa0 ≤ op ∧ op ≤ 0xa4 then ⟨family "LOG" 0xa0, 0, (op - 0xa0).toNat + 2, 0⟩
  else match singleOps.lookup op with
    | some (name, pops, pushes) => ⟨name.toList, 0, pops, pushes⟩
    | none => .undefined

/-- The mnemonic that a historical alias stands for. -/
def canonicalMnemonic (upper : Text) : Text :=
  if upper = "SHA3".toList then "KECCAK256".toList
  else if upper = "DIFFICULTY".toList then "PREVRANDAO".toList
  else if upper = "SUICIDE".toList then "SELFDESTRUCT".toList
  else upper

/-- `opcode_by_name`: the opcode of a mnemonic, in any case. -/
def opcodeByName (name : Text) : Option UInt8 :=
  let canonical := canonicalMnemonic (Text.toAsciiUppercase name)
  ((List.range 256).map UInt8.ofNat).find? fun b => (opInfo b).name = canonical

/-- An opcode that computes a word has no immediate, takes its operands, and leaves one item. -/
theorem opInfo_of_arity {op : UInt8} {n : ℕ} (h : arity op = some n) :
    (opInfo op).immLen = 0 ∧ (opInfo op).pops = n ∧ (opInfo op).pushes = 1 := by
  have all : ∀ op : UInt8, ∀ n ∈ arity op,
      (opInfo op).immLen = 0 ∧ (opInfo op).pops = n ∧ (opInfo op).pushes = 1 := by decide +kernel
  exact all op n h

end Univdreams.Evm
