import Univdreams.Emulator.Machine

/-!
# Multiplications, divisions and shifts, 16 and 32 bits

The instructions of `src/emulator/emulator/isa_int.rs` that multiply, divide, shift and rotate, with
the decoding of their operands (`src/emulator/emulator/decode.rs`). An instruction is executed
behind its prefixes and its opcode. Every operation of the source that panics outside of its range
is one that does so here.

`panics_execInt_iff` says when an instruction panics: exactly for a signed division of the least
dividend by minus one.
-/

namespace Univdreams.Emulator

open Prog Regs BitVec

variable {w : ℕ}

/-! ## Operands -/

/-- `ModRm`. -/
structure ModRm where
  mode : Fin 4
  reg : Fin 8
  rm : Fin 8
  deriving DecidableEq, Repr

variable {modrm : ModRm}

/-- `ModRm::decode`. -/
def ModRm.decode (b : UInt8) : ModRm where
  mode := Fin.ofNat 4 (b.toNat / 64)
  reg := Fin.ofNat 8 (b.toNat / 8)
  rm := Fin.ofNat 8 b.toNat

/-- `Sib`. -/
structure Sib where
  scale : Fin 4
  index : Fin 8
  base : Fin 8
  deriving DecidableEq, Repr

/-- `Sib::decode`. -/
def Sib.decode (b : UInt8) : Sib where
  scale := Fin.ofNat 4 (b.toNat / 64)
  index := Fin.ofNat 8 (b.toNat / 8)
  base := Fin.ofNat 8 b.toNat

/-- `Operand`. -/
inductive Operand where
  | reg (r : Fin 8)
  | mem (addr : BitVec 32)
  deriving DecidableEq, Repr

/-- `unreachable_trap`. -/
def shortTrap : Trap := .undefinedOpcode 0 0

/-- `read_imm16` and `read_imm32`. -/
def readImm (w : ℕ) (bytes : Bytes) (offset : ℕ) : Except Trap (BitVec w) :=
  if offset + w / 8 ≤ bytes.length then .ok (BitVec.ofNat w (ofLe (window bytes offset (w / 8))))
  else .error shortTrap

/-- A displacement of one byte. -/
def readDisp8 (w : ℕ) (bytes : Bytes) (offset : ℕ) : Except Trap (BitVec w) :=
  match bytes[offset]? with
  | some b => .ok (b.toBitVec.signExtend w)
  | none => .error shortTrap

/-- `sib_index_term`. -/
def sibIndexTerm (sib : Sib) (regs : Regs) : BitVec 32 :=
  if sib.index = 4 then 0 else regs.gp sib.index * (1 <<< sib.scale.val)

/-- The SIB byte, which follows exactly if the field `rm` is 4. -/
def readSib (modrm : ModRm) (bytes : Bytes) : Except Trap (Option Sib) :=
  if modrm.rm = 4 then
    match bytes with
    | [] => .error shortTrap
    | b :: _ => .ok (some (Sib.decode b))
  else .ok none

/-- The base register and the index, without a displacement. -/
def baseTerm (modrm : ModRm) (regs : Regs) : Option Sib → BitVec 32
  | none => regs.gp modrm.rm
  | some sib => regs.gp sib.base + sibIndexTerm sib regs

/-- The register of a base that mode 0 replaces by a displacement. -/
def baseReg (modrm : ModRm) : Option Sib → Fin 8
  | none => modrm.rm
  | some sib => sib.base

/-- `resolve_modrm32`: the operand and the number of bytes behind the ModR/M byte. -/
def resolveModrm32 (modrm : ModRm) (bytes : Bytes) (regs : Regs) : Except Trap (Operand × ℕ) :=
  if modrm.mode = 3 then .ok (.reg modrm.rm, 0)
  else do
    let sib ← readSib modrm bytes
    let consumed := if sib.isSome then 1 else 0
    if modrm.mode = 0 then
      if baseReg modrm sib = 5 then
        let disp ← readImm 32 bytes consumed
        let index := (sib.map fun sib => sibIndexTerm sib regs).getD 0
        return (.mem (disp + index), consumed + 4)
      else return (.mem (baseTerm modrm regs sib), consumed)
    else if modrm.mode = 1 then
      let disp ← readDisp8 32 bytes consumed
      return (.mem (baseTerm modrm regs sib + disp), consumed + 1)
    else
      let disp ← readImm 32 bytes consumed
      return (.mem (baseTerm modrm regs sib + disp), consumed + 4)

/-- The base of a 16-bit address, and whether it is in the stack segment. -/
def base16 (modrm : ModRm) (regs : Regs) : BitVec 32 × Bool :=
  let r16 (r : Fin 8) : BitVec 32 := (regs.getLow 16 r).setWidth 32
  match modrm.rm with
  | 0 => (r16 3 + r16 6, false)
  | 1 => (r16 3 + r16 7, false)
  | 2 => (r16 5 + r16 6, true)
  | 3 => (r16 5 + r16 7, true)
  | 4 => (r16 6, false)
  | 5 => (r16 7, false)
  | 6 => if modrm.mode = 0 then (0, false) else (r16 5, true)
  | 7 => (r16 3, false)

/-- The displacement of a 16-bit address and its number of bytes. -/
def disp16 (modrm : ModRm) (bytes : Bytes) : Except Trap (BitVec 32 × ℕ) :=
  if modrm.mode = 0 then
    if modrm.rm = 6 then do
      let d ← readImm 16 bytes 0
      return (d.setWidth 32, 2)
    else .ok (0, 0)
  else if modrm.mode = 1 then do
    let d ← readDisp8 16 bytes 0
    return (d.setWidth 32, 1)
  else do
    let d ← readImm 16 bytes 0
    return (d.setWidth 32, 2)

/-- `resolve_modrm16`. -/
def resolveModrm16 (modrm : ModRm) (bytes : Bytes) (regs : Regs) :
    Except Trap (Operand × ℕ × Bool) :=
  if modrm.mode = 3 then .ok (.reg modrm.rm, 0, false)
  else do
    let (base, bpRelative) := base16 modrm regs
    let (disp, consumed) ← disp16 modrm bytes
    return (.mem ((base + disp) &&& 0xffff), consumed, bpRelative)

/-- Move the instruction pointer. -/
def advanceEip (n : ℕ) : Exec Unit :=
  modifyRegs fun regs => { regs with eip := regs.eip + BitVec.ofNat 32 n }

/-- `fetch_imm8`, `fetch_imm16` and `fetch_imm32`. -/
def fetchImm (w : ℕ) : Exec (BitVec w) := do
  let regs ← getRegs
  let bytes ← readMem fun mmu => Mmu.readBytes mmu.fetchX8 (w / 8) regs.eip
  advanceEip (w / 8)
  return BitVec.ofNat w (ofLe bytes)

/-- `fetch_modrm`. -/
def fetchModrm : Exec ModRm := do
  let b ← fetchImm 8
  return ModRm.decode ⟨b⟩

/-- `resolve_modrm`. -/
def resolveModrm (modrm : ModRm) (bytes : Bytes) : Exec (Operand × ℕ) := do
  let m ← get
  if m.addr16 then
    let (op, consumed, bpRelative) ← ofExcept (resolveModrm16 modrm bytes m.regs)
    modify fun m => { m with curDefaultSeg := if bpRelative then .ss else .ds }
    return (op, consumed)
  else
    modify fun m => { m with curDefaultSeg := .ds }
    ofExcept (resolveModrm32 modrm bytes m.regs)

/-- `seg_apply`. -/
def segApply : Operand → Exec Operand
  | .reg r => return .reg r
  | .mem addr => do return .mem ((← get).segTranslate addr)

/-- The operand behind a ModR/M byte that was fetched. -/
def fetchRm (modrm : ModRm) : Exec Operand := do
  let regs ← getRegs
  let bytes ← readMem fun mmu => mmu.peek regs.eip
  let (op, consumed) ← resolveModrm modrm bytes
  advanceEip consumed
  segApply op

/-- `read_operand32` and `read_operand16`. -/
def readOperand (w : ℕ) : Operand → Exec (BitVec w)
  | .reg r => do return (← getRegs).getLow w r
  | .mem addr => readMem fun mmu => mmu.load w addr

/-- `write_operand32` and `write_operand16`. -/
def writeOperand (w : ℕ) (op : Operand) (v : BitVec w) : Exec Unit :=
  match op with
  | .reg r => modifyRegs fun regs => regs.setLow w r v
  | .mem addr => store w addr v

/-- The ModR/M byte, its operand and the value of the operand. -/
def operandRm (w : ℕ) : Exec (ModRm × Operand × BitVec w) := do
  let modrm ← fetchModrm
  let op ← fetchRm modrm
  let val ← readOperand w op
  return (modrm, op, val)

/-- `resolve_op8`, where a register is a byte register. -/
def resolveOp8 (modrm : ModRm) : Exec (BitVec 8 × Operand) := do
  if modrm.mode = 3 then return ((← getRegs).get8 modrm.rm, .reg modrm.rm)
  else
    let op ← fetchRm modrm
    match op with
    | .reg _ => panic
    | .mem addr => do
      let v ← readMem fun mmu => mmu.load 8 addr
      return (v, .mem addr)

/-- `write_op8`. -/
def writeOp8 (dst : Operand) (v : BitVec 8) : Exec Unit :=
  match dst with
  | .reg r => modifyRegs fun regs => regs.set8 r v
  | .mem addr => store 8 addr v

/-- The ModR/M byte, its operand and the byte of the operand. -/
def operandRm8 : Exec (ModRm × Operand × BitVec 8) := do
  let modrm ← fetchModrm
  let (val, dst) ← resolveOp8 modrm
  return (modrm, dst, val)

/-! ## Shifts and rotations -/

/-- `ShiftCount`. -/
inductive ShiftCount where
  | one
  | cl
  | imm8
  deriving DecidableEq, Repr

/-- The count of a shift, of five bits. -/
def shiftCount : ShiftCount → Exec ℕ
  | .one => return 1
  | .cl => do return ((← getRegs).get8 1).toNat % 32
  | .imm8 => do return (← fetchImm 8).toNat % 32

/-- The loop of `RCL` on the low `w` bits. -/
def rcl (w : ℕ) : ℕ → BitVec 32 → Bool → BitVec 32 × Bool
  | 0, v, cf => (v, cf)
  | n + 1, v, cf =>
    rcl w n (((v <<< 1) &&& (BitVec.allOnes w).setWidth 32) ||| (BitVec.ofBool cf).setWidth 32)
      (v.getLsbD (w - 1))

/-- The loop of `RCR` on the low `w` bits. -/
def rcr (w : ℕ) : ℕ → BitVec 32 → Bool → BitVec 32 × Bool
  | 0, v, cf => (v, cf)
  | n + 1, v, cf =>
    rcr w n ((v >>> 1) ||| ((BitVec.ofBool cf).setWidth 32 <<< (w - 1))) (v.getLsbD 0)

section Instructions

variable (checks : Bool)

/-- A bit of a word that was shifted out: `(val >> n) & 1`. -/
def shiftedOut (val : BitVec 32) (n : ℕ) : Exec Bool := do
  return (← shr checks val n).getLsbD 0

/-- What `group2_rm8`, `group2_rm16` and `group2_rm32` compute: the operation `reg` on `w` bits in a
word of 32. -/
def shiftRotate (w : ℕ) (reg : Fin 8) (val : BitVec w) (count : ℕ) : Exec (BitVec w) := do
  let val32 : BitVec 32 := val.setWidth 32
  match reg with
  | 0 => do
    let r := if count % w = 0 then val else val.rotateLeft (count % w)
    if count ≠ 0 then modifyFlags fun flags => { flags with cf := r.getLsbD 0 }
    return r
  | 1 => do
    let r := if count % w = 0 then val else val.rotateRight (count % w)
    if count ≠ 0 then modifyFlags fun flags => { flags with cf := r.msb }
    return r
  | 2 => do
    let (v, cf) := rcl w (count % 32) val32 (← getRegs).flags.cf
    if count ≠ 0 then modifyFlags fun flags => { flags with cf := cf }
    return v.setWidth w
  | 3 => do
    let (v, cf) := rcr w (count % 32) val32 (← getRegs).flags.cf
    if count ≠ 0 then modifyFlags fun flags => { flags with cf := cf }
    return v.setWidth w
  | 4 | 6 => do
    let r ← if w ≤ count then pure 0 else shl checks val32 count
    if count ≠ 0 then
      if count ≤ w then
        let n ← subNat checks 32 w count
        let cf ← shiftedOut checks val32 n
        modifyFlags fun flags => { flags with cf := cf }
      else modifyFlags fun flags => { flags with cf := false }
      modifyFlags fun flags => flags.setSzp (r.setWidth w)
    return r.setWidth w
  | 5 => do
    let r ← if w ≤ count then pure 0 else shr checks val32 count
    if count ≠ 0 then
      let n ← subNat checks 32 count 1
      let cf ← shiftedOut checks val32 n
      modifyFlags fun flags => { flags with cf := cf }
      modifyFlags fun flags => flags.setSzp (r.setWidth w)
    return r.setWidth w
  | 7 => do
    let signed : BitVec 32 := val.signExtend 32
    let r ← if w ≤ count then pure (if signed.msb then BitVec.allOnes w else 0)
      else do return (← sshr checks signed count).setWidth w
    if count ≠ 0 then
      let n ← subNat checks 32 count 1
      let cf ← shiftedOut checks val32 n
      modifyFlags fun flags => { flags with cf := cf }
      modifyFlags fun flags => flags.setSzp r
    return r

/-- `group2_rm16`, and `group2_rm32` for the size of operands of 32 bits. -/
def group2 (w : ℕ) (source : ShiftCount) : Exec StepOk := do
  let (modrm, op, val) ← operandRm w
  let count ← shiftCount source
  let result ← shiftRotate checks w modrm.reg val count
  writeOperand w op result
  return .continued

/-- The width of operands under the prefixes of the instruction. -/
def opWidth : Exec ℕ := do return if (← get).effOpSize16 then 16 else 32

/-- `group2_rm32`. -/
def group2Rm32 (source : ShiftCount) : Exec StepOk := do
  let w ← opWidth
  group2 checks w source

/-- `group2_rm8`. -/
def group2Rm8 (source : ShiftCount) : Exec StepOk := do
  let (modrm, dst, val) ← operandRm8
  let count ← shiftCount source
  let result ← shiftRotate checks 8 modrm.reg val count
  writeOp8 dst result
  return .continued

/-! ## Multiplications and divisions -/

/-- Set the flags of a multiplication. -/
def setOverflow (b : Bool) : Exec Unit := modifyFlags fun flags => { flags with cf := b, of := b }

/-- The flags of `TEST`. -/
def testFlags {w : ℕ} (r : BitVec w) : Exec Unit := do
  setOverflow false
  modifyFlags fun flags => flags.setSzp r

/-- The flags of `NEG`. -/
def negFlags {w : ℕ} (val : BitVec w) : Exec Unit := do
  modifyFlags fun flags => { flags with cf := val != 0, of := val == BitVec.intMin w }
  modifyFlags fun flags => flags.setSzp (-val)

/-- The pair of registers that a product fills and a dividend comes from: `edx:eax` or `dx:ax`. -/
def Regs.pair (regs : Regs) (w : ℕ) : BitVec (w + w) := regs.getLow w 2 ++ regs.getLow w 0

/-- Set the pair of registers. -/
def setPair (w : ℕ) (high low : BitVec w) : Exec Unit := do
  modifyRegs fun regs => regs.setLow w 0 low
  modifyRegs fun regs => regs.setLow w 2 high

/-- The quotient and the remainder without a sign, of a dividend of twice the width. -/
def divide (w : ℕ) (entryEip : BitVec 32) (dividend : ℕ) (val : BitVec w) :
    Exec (BitVec w × BitVec w) :=
  if val = 0 then trap (.divideByZero entryEip)
  else do
    let q ← divNat dividend val.toNat
    let r ← remNat dividend val.toNat
    if 2 ^ w ≤ q then trap (.divideByZero entryEip)
    else return (BitVec.ofNat w q, BitVec.ofNat w r)

/-- Signed quotient and remainder of a dividend of twice the width, checked afterwards. -/
def divideSigned (w : ℕ) (entryEip : BitVec 32) (dividend : ℤ) (val : BitVec w) :
    Exec (BitVec w × BitVec w) :=
  if val = 0 then trap (.divideByZero entryEip)
  else do
    let q ← divInt (w + w) dividend val.toInt
    let r ← remInt (w + w) dividend val.toInt
    if q < -2 ^ (w - 1) ∨ 2 ^ (w - 1) ≤ q then trap (.divideByZero entryEip)
    else return (BitVec.ofInt w q, BitVec.ofInt w r)

/-- The operations of `group3_rm16` and `group3_rm32`. -/
def group3Op (w : ℕ) (entryEip : BitVec 32) (op : Operand) (val : BitVec w) : Fin 8 → Exec Unit
  | 0 | 1 => do
    let imm ← fetchImm w
    testFlags (val &&& imm)
  | 2 => writeOperand w op (~~~val)
  | 3 => do
    negFlags val
    writeOperand w op (-val)
  | 4 => do
    let prod ← mulNat checks (w + w) ((← getRegs).getLow w 0).toNat val.toNat
    setPair w (BitVec.ofNat w (prod / 2 ^ w)) (BitVec.ofNat w prod)
    setOverflow (prod / 2 ^ w != 0)
  | 5 => do
    let prod ← mulInt checks (w + w) ((← getRegs).getLow w 0).toInt val.toInt
    setPair w (BitVec.ofInt w (prod / 2 ^ w)) (BitVec.ofInt w prod)
    setOverflow (prod != (BitVec.ofInt w prod).toInt)
  | 6 => do
    let (q, r) ← divide w entryEip ((← getRegs).pair w).toNat val
    setPair w r q
  | 7 => do
    let (q, r) ← divideSigned w entryEip ((← getRegs).pair w).toInt val
    setPair w r q

/-- `group3_rm16`, and `group3_rm32` for the size of operands of 32 bits. -/
def group3 (w : ℕ) (entryEip : BitVec 32) : Exec StepOk := do
  let (modrm, op, val) ← operandRm w
  group3Op checks w entryEip op val modrm.reg
  return .continued

/-- `group3_rm32`. -/
def group3Rm32 (entryEip : BitVec 32) : Exec StepOk := do
  let w ← opWidth
  group3 checks w entryEip

/-- Set the quotient and the remainder of a division of bytes. -/
def setQuotient8 (q r : BitVec 8) : Exec Unit := do
  modifyRegs fun regs => regs.set8 0 q
  modifyRegs fun regs => regs.set8 4 r

/-- The operations of `group3_rm8`. -/
def group3Op8 (entryEip : BitVec 32) (dst : Operand) (val : BitVec 8) : Fin 8 → Exec Unit
  | 0 | 1 => do
    let imm ← fetchImm 8
    testFlags (val &&& imm)
  | 2 => writeOp8 dst (~~~val)
  | 3 => do
    negFlags val
    writeOp8 dst (-val)
  | 4 => do
    let prod ← mulNat checks 16 ((← getRegs).get8 0).toNat val.toNat
    modifyRegs fun regs => regs.setLow 16 0 (BitVec.ofNat 16 prod)
    setOverflow (prod / 2 ^ 8 != 0)
  | 5 => do
    let prod ← mulInt checks 16 ((← getRegs).get8 0).toInt val.toInt
    modifyRegs fun regs => regs.setLow 16 0 (BitVec.ofInt 16 prod)
    setOverflow (prod != (BitVec.ofInt 8 prod).toInt)
  | 6 => do
    let (q, r) ← divide 8 entryEip ((← getRegs).getLow 16 0).toNat val
    setQuotient8 q r
  | 7 => do
    let (q, r) ← divideSigned 8 entryEip ((← getRegs).getLow 16 0).toInt val
    setQuotient8 q r

/-- `group3_rm8`. -/
def group3Rm8 (entryEip : BitVec 32) : Exec StepOk := do
  let (modrm, dst, val) ← operandRm8
  group3Op8 checks entryEip dst val modrm.reg
  return .continued

/-- What `IMUL` with a destination register does: a product on twice the width, where it wraps. -/
def imulInto (w : ℕ) (dst : Fin 8) (a b : BitVec w) : Exec Unit := do
  let prod := Int.bmod (a.toInt * b.toInt) (2 ^ (w + w))
  let trunc := BitVec.ofInt w prod
  modifyRegs fun regs => regs.setLow w dst trunc
  setOverflow (prod != trunc.toInt)
  modifyFlags fun flags => flags.setSzp trunc

/-- The opcode `69`: `IMUL r, r/m, imm`. -/
def imulImm : Exec StepOk := do
  let modrm ← fetchModrm
  let op ← fetchRm modrm
  let w ← opWidth
  let imm ← fetchImm w
  let a ← readOperand w op
  imulInto w modrm.reg a imm
  return .continued

/-- The opcode `6B`: `IMUL r, r/m, imm8`. -/
def imulImm8 : Exec StepOk := do
  let modrm ← fetchModrm
  let op ← fetchRm modrm
  let w ← opWidth
  let imm ← fetchImm 8
  let a ← readOperand w op
  imulInto w modrm.reg a (imm.signExtend w)
  return .continued

/-- The opcode `0F AF`: `IMUL r32, r/m32`, whatever the size of operands. -/
def imulRm : Exec StepOk := do
  let modrm ← fetchModrm
  let op ← fetchRm modrm
  let a := (← getRegs).getLow 32 modrm.reg
  let b ← readOperand 32 op
  imulInto 32 modrm.reg a b
  return .continued

/-! ## Double shifts -/

/-- `shld_apply` and `shrd_apply`: the count is between 1 and 31, or nothing happens. -/
def doubleShift (left : Bool) (op : Operand) (reg : Fin 8) (count : ℕ) : Exec StepOk := do
  let dest ← readOperand 32 op
  let src := (← getRegs).getLow 32 reg
  if count = 0 then return .continued
  else if left then do
    let shifted ← shl checks (dest ++ src) count
    let result := shifted.extractLsb' 32 32
    let n ← subNat checks 32 32 count
    let cf ← shiftedOut checks dest n
    modifyFlags fun flags => { flags with cf := cf }
    modifyFlags fun flags => flags.setSzp result
    writeOperand 32 op result
    return .continued
  else do
    let shifted ← shr checks (src ++ dest) count
    let result := shifted.extractLsb' 0 32
    let n ← subNat checks 32 count 1
    let cf ← shiftedOut checks dest n
    modifyFlags fun flags => { flags with cf := cf }
    modifyFlags fun flags => flags.setSzp result
    writeOperand 32 op result
    return .continued

/-- `shld_imm`, `shld_cl`, `shrd_imm` and `shrd_cl`. -/
def doubleShiftRm (left : Bool) (source : ShiftCount) : Exec StepOk := do
  let modrm ← fetchModrm
  let op ← fetchRm modrm
  let count ← shiftCount source
  doubleShift checks left op modrm.reg count

/-! ## Instructions -/

/-- The instructions that multiply, divide, shift and rotate, by their opcodes. -/
inductive Insn where
  /-- `69` -/
  | imulImm
  /-- `6B` -/
  | imulImm8
  /-- `0F AF` -/
  | imulRm
  /-- `C0`, `D0` and `D2` -/
  | shift8 (source : ShiftCount)
  /-- `C1`, `D1` and `D3` -/
  | shift (source : ShiftCount)
  /-- `F6` -/
  | group3Byte
  /-- `F7` -/
  | group3
  /-- `0F A4` and `0F A5` -/
  | shld (byCl : Bool)
  /-- `0F AC` and `0F AD` -/
  | shrd (byCl : Bool)
  deriving DecidableEq, Repr

/-- The count of a double shift. -/
def doubleCount (byCl : Bool) : ShiftCount := if byCl then .cl else .imm8

/-- The part of `dispatch` and of the second opcode map that executes these instructions. -/
def execInt (entryEip : BitVec 32) : Insn → Exec StepOk
  | .imulImm => Emulator.imulImm
  | .imulImm8 => Emulator.imulImm8
  | .imulRm => Emulator.imulRm
  | .shift8 source => group2Rm8 checks source
  | .shift source => group2Rm32 checks source
  | .group3Byte => group3Rm8 checks entryEip
  | .group3 => group3Rm32 checks entryEip
  | .shld byCl => doubleShiftRm checks true (doubleCount byCl)
  | .shrd byCl => doubleShiftRm checks false (doubleCount byCl)

end Instructions

/-! ## Reading operands -/

/-- The general registers of two states are the same. -/
def SameRegs (s s' : Machine) : Prop := s.regs.gp = s'.regs.gp ∧ s.regs.gp64 = s'.regs.gp64

/-- A program that does not panic and keeps the general registers. -/
def Quiet {α : Type} (m : Exec α) : Prop := ∀ s, Wp m s fun _ s' => SameRegs s' s

section Quiet

variable {α β : Type} {m : Exec α} {f : α → Exec β}

theorem Quiet.bind (h : Quiet m) (hf : ∀ a, Quiet (f a)) : Quiet (m >>= f) := fun s =>
  wp_bind.2 ((h s).mono fun a s' hs => (hf a s').mono fun _ _ hs' =>
    ⟨hs'.1.trans hs.1, hs'.2.trans hs.2⟩)

theorem Quiet.safe (h : Quiet m) : Safe m := fun s => (h s).mono fun _ _ _ => trivial

theorem quiet_pure (a : α) : Quiet (pure a) := fun _ => ⟨rfl, rfl⟩

theorem quiet_getRegs : Quiet getRegs := fun _ => ⟨rfl, rfl⟩

theorem quiet_get : Quiet (get : Exec Machine) := fun _ => ⟨rfl, rfl⟩

theorem quiet_readMem (g : Mmu → Except Trap α) : Quiet (readMem g) := fun _ =>
  (wp_readMem _ _).2 fun _ _ => ⟨rfl, rfl⟩

theorem quiet_ofExcept (x : Except Trap α) : Quiet (ofExcept x) := fun _ =>
  wp_ofExcept.2 fun _ _ => ⟨rfl, rfl⟩

theorem quiet_advanceEip (n : ℕ) : Quiet (advanceEip n) := fun _ => ⟨rfl, rfl⟩

end Quiet

theorem quiet_fetchImm (w : ℕ) : Quiet (fetchImm w) :=
  quiet_getRegs.bind fun _ => (quiet_readMem _).bind fun _ =>
    (quiet_advanceEip _).bind fun _ => quiet_pure _

theorem quiet_fetchModrm : Quiet fetchModrm := (quiet_fetchImm 8).bind fun _ => quiet_pure _

theorem quiet_resolveModrm (modrm : ModRm) (bytes : Bytes) : Quiet (resolveModrm modrm bytes) := by
  refine quiet_get.bind fun m => ?_
  split
  · exact (quiet_ofExcept _).bind fun p s => ⟨rfl, rfl⟩
  · exact Quiet.bind (fun s => ⟨rfl, rfl⟩) fun _ => quiet_ofExcept _

theorem quiet_segApply (op : Operand) : Quiet (segApply op) := by
  cases op with
  | reg r => exact quiet_pure _
  | mem addr => exact quiet_get.bind fun _ => quiet_pure _

theorem quiet_fetchRm (modrm : ModRm) : Quiet (fetchRm modrm) :=
  quiet_getRegs.bind fun _ => (quiet_readMem _).bind fun _ => (quiet_resolveModrm _ _).bind fun _ =>
    (quiet_advanceEip _).bind fun _ => quiet_segApply _

theorem quiet_readOperand (w : ℕ) (op : Operand) : Quiet (readOperand w op) := by
  cases op with
  | reg r => exact quiet_getRegs.bind fun _ => quiet_pure _
  | mem addr =>
    show Quiet (readMem fun mmu => mmu.load w addr)
    exact quiet_readMem _

theorem quiet_operandRm (w : ℕ) : Quiet (operandRm w) :=
  quiet_fetchModrm.bind fun _ => (quiet_fetchRm _).bind fun _ =>
    (quiet_readOperand w _).bind fun _ => quiet_pure _

/-- In another mode than 3 the operand is in memory. -/
theorem resolveModrm16_mem (hmode : modrm.mode ≠ 3) {bytes : Bytes} {regs : Regs}
    {p : Operand × ℕ × Bool} (h : resolveModrm16 modrm bytes regs = .ok p) :
    ∃ addr, p.1 = .mem addr := by
  rw [resolveModrm16, if_neg hmode] at h
  obtain ⟨d, -, h⟩ := except_bind_eq_ok.1 h
  obtain rfl := Except.ok.inj h
  exact ⟨_, rfl⟩

/-- A 32-bit address form other than mode 3 is in memory. -/
theorem resolveModrm32_mem (hmode : modrm.mode ≠ 3) {bytes : Bytes} {regs : Regs}
    {p : Operand × ℕ} (h : resolveModrm32 modrm bytes regs = .ok p) : ∃ addr, p.1 = .mem addr := by
  rw [resolveModrm32, if_neg hmode] at h
  obtain ⟨sib, -, h⟩ := except_bind_eq_ok.1 h
  generalize (if sib.isSome then 1 else 0) = consumed at h
  split_ifs at h
  rotate_left
  -- No displacement is read for a register alone.
  · obtain rfl := Except.ok.inj h
    exact ⟨_, rfl⟩
  all_goals
    obtain ⟨disp, -, h⟩ := except_bind_eq_ok.1 h
    obtain rfl := Except.ok.inj h
    exact ⟨_, rfl⟩

/-- An operand whose mode is not 3 is in memory. -/
theorem fetchRm_mem (hmode : modrm.mode ≠ 3) (s : Machine) :
    Wp (fetchRm modrm) s fun op _ => ∃ addr, op = .mem addr := by
  have hresolve : ∀ bytes s, Wp (resolveModrm modrm bytes) s fun p _ => ∃ addr,
    p.1 = .mem addr := by
    intro bytes s
    rw [resolveModrm, wp_bind, wp_get]
    split
    · rw [wp_bind, wp_ofExcept]
      intro p hp
      obtain ⟨addr, haddr⟩ := resolveModrm16_mem hmode hp
      exact ⟨addr, haddr⟩
    · rw [wp_bind, wp_modify, wp_ofExcept]
      exact fun p hp => resolveModrm32_mem hmode hp
  rw [fetchRm, wp_bind, wp_getRegs, wp_bind, wp_readMem]
  intro bytes _
  rw [wp_bind]
  refine (hresolve bytes s).mono fun p s' ⟨addr, haddr⟩ => ?_
  rw [wp_bind, haddr]
  exact ⟨_, rfl⟩

/-- Resolving a byte operand does not panic. -/
theorem quiet_resolveOp8 (modrm : ModRm) : Quiet (resolveOp8 modrm) := by
  unfold resolveOp8
  split
  · exact quiet_getRegs.bind fun _ => quiet_pure _
  intro s
  rw [wp_bind]
  have hboth : Wp (fetchRm modrm) s fun op s' =>
      (∃ addr, op = .mem addr) ∧ SameRegs s' s := by
    have hmem := fetchRm_mem ‹modrm.mode ≠ 3› s
    have hgp := quiet_fetchRm modrm s
    unfold Wp at hmem hgp ⊢
    split at hmem <;> simp_all
  refine hboth.mono fun op s' ⟨⟨addr, haddr⟩, hs⟩ => ?_
  subst haddr
  rw [wp_bind, wp_readMem]
  exact fun _ _ => hs

theorem quiet_operandRm8 : Quiet operandRm8 :=
  quiet_fetchModrm.bind fun _ => (quiet_resolveOp8 _).bind fun _ => quiet_pure _

theorem safe_writeOperand (w : ℕ) (op : Operand) (v : BitVec w) : Safe (writeOperand w op v) := by
  cases op with
  | reg r => exact fun _ => trivial
  | mem addr => exact fun _ => wp_store addr v fun _ => trivial

theorem safe_writeOp8 (dst : Operand) (v : BitVec 8) : Safe (writeOp8 dst v) := by
  cases dst with
  | reg r => exact fun _ => trivial
  | mem addr => exact fun _ => wp_store addr v fun _ => trivial

/-! ## Shifts -/

/-- The count of a shift has five bits. -/
theorem shiftCount_lt (source : ShiftCount) (s : Machine) :
    Wp (shiftCount source) s fun count _ => count < 32 := by
  cases source with
  | one => exact Nat.one_lt_ofNat
  | cl => exact Nat.mod_lt _ (by omega)
  | imm8 =>
    rw [shiftCount, wp_bind]
    exact (quiet_fetchImm 8 s).mono fun b s' _ => Nat.mod_lt _ (by omega)

section Panics

variable {checks : Bool}

theorem wp_shiftedOut {val : BitVec 32} {n : ℕ} (hn : n < 32) {s : Machine}
    {Q : Bool → Machine → Prop} :
    Wp (shiftedOut checks val n) s Q ↔ Q ((val >>> n).getLsbD 0) s := by
  rw [shiftedOut, wp_bind, wp_shr hn, wp_pure]

/-- A shift or rotation by a count of five bits does not panic: its shifts are by less than the
width, and no difference is negative. -/
theorem safe_shiftRotate {w count : ℕ} (hw : w ≤ 32) (hcount : count < 32) (reg : Fin 8)
    (val : BitVec w) : Safe (shiftRotate checks w reg val count) := by
  intro s
  by_cases hzero : count = 0
  · subst hzero
    fin_cases reg <;> simp (disch := omega) [shiftRotate, wp_shl, wp_shr, wp_sshr]
  by_cases hle : w ≤ count
  · fin_cases reg <;> simp (disch := omega) [shiftRotate, hzero, hle, wp_subNat, wp_shiftedOut]
    all_goals
      intro hge
      simp (disch := omega) [wp_subNat, wp_shiftedOut]
  · fin_cases reg <;> simp (disch := omega) [shiftRotate, hzero, hle, wp_shl, wp_shr, wp_sshr,
      wp_subNat, wp_shiftedOut]

theorem safe_group2 (hw : w ≤ 32) (source : ShiftCount) : Safe (group2 checks w source) :=
  (quiet_operandRm w).safe.bind fun _ =>
    .bind_of (shiftCount_lt source) fun _ hcount =>
      (safe_shiftRotate hw hcount _ _).bind fun _ =>
        (safe_writeOperand w _ _).bind fun _ => safe_pure _

theorem safe_group2Rm8 (source : ShiftCount) : Safe (group2Rm8 checks source) :=
  quiet_operandRm8.safe.bind fun _ =>
    .bind_of (shiftCount_lt source) fun _ hcount =>
      (safe_shiftRotate (by omega) hcount _ _).bind fun _ =>
        (safe_writeOp8 _ _).bind fun _ => safe_pure _

theorem opWidth_le (s : Machine) : Wp opWidth s fun w _ => w ≤ 32 := by
  show (if s.effOpSize16 then 16 else 32) ≤ 32
  split <;> omega

theorem safe_doubleShift {left : Bool} {op : Operand} {reg : Fin 8} {count : ℕ}
    (hcount : count < 32) :
    Safe (doubleShift checks left op reg count) := by
  refine (quiet_readOperand 32 op).safe.bind fun dest => quiet_getRegs.safe.bind fun regs => ?_
  have hwrite : ∀ v s, Wp (writeOperand 32 op v) s fun _ _ => True := fun v s =>
    safe_writeOperand 32 op v s
  refine safe_ite (fun _ => safe_pure _) fun hzero => safe_ite (fun _ s => ?_) fun _ s => ?_
  · simp (disch := omega) [wp_shl, wp_subNat, wp_shiftedOut, hwrite]
  · simp (disch := omega) [wp_shr, wp_subNat, wp_shiftedOut, hwrite]

theorem safe_doubleShiftRm (left : Bool) (source : ShiftCount) :
    Safe (doubleShiftRm checks left source) :=
  quiet_fetchModrm.safe.bind fun _ => (quiet_fetchRm _).safe.bind fun _ =>
    .bind_of (shiftCount_lt source) fun _ hcount => safe_doubleShift hcount

/-! ## Divisions -/

variable (entryEip : BitVec 32)

theorem toInt_eq_neg_one_iff (hw : 0 < w) (v : BitVec w) : v.toInt = -1 ↔ v = BitVec.allOnes w := by
  have hones : (BitVec.allOnes w).toInt = -1 := by rw [BitVec.toInt_allOnes, if_pos hw]
  rw [← hones, BitVec.toInt_inj]

theorem toInt_eq_neg_pow_iff (hw : 0 < w) (v : BitVec w) :
    v.toInt = -2 ^ (w - 1) ↔ v = BitVec.intMin w := by
  rw [← BitVec.toInt_intMin_of_pos hw, BitVec.toInt_inj]

/-- A signed division panics exactly for the least dividend and the divisor minus one. -/
theorem panics_divideSigned_iff (hw : 0 < w) (dividend : ℤ) (val : BitVec w) (s : Machine) :
    Panics (divideSigned w entryEip dividend val) s ↔
      dividend = -2 ^ (w + w - 1) ∧ val = allOnes w := by
  have hones := toInt_eq_neg_one_iff hw val
  unfold divideSigned
  by_cases hzero : val = 0
  · have hne : val ≠ allOnes w := fun heq => by
      rw [← hones, hzero] at heq
      simp at heq
    rw [if_pos hzero]
    exact iff_of_false (panics_trap _) fun h => hne h.2
  have hint : val.toInt ≠ 0 := fun heq => hzero (toInt_inj.1 (by simpa using heq))
  rw [if_neg hzero, ← hones]
  by_cases hover : DivOverflows (w + w) dividend val.toInt
  · refine iff_of_true ?_ (hover.resolve_left hint)
    rw [divInt, if_pos hover]
    exact panics_panic
  refine iff_of_false ?_ fun h => hover (.inr h)
  refine Safe.not_panics (fun s => ?_) s
  simp [wp_divInt hover, wp_remInt hover]

/-- An unsigned division does not panic. -/
theorem safe_divide (w : ℕ) (dividend : ℕ) (val : BitVec w) :
    Safe (divide w entryEip dividend val) := by
  refine safe_ite (fun _ => safe_trap _) fun hzero s => ?_
  have hnat : val.toNat ≠ 0 := fun heq => hzero (toNat_inj.1 (by simpa using heq))
  simp [wp_divNat hnat, wp_remNat hnat]

/-- A product of two words fits in twice the width. -/
theorem mul_toNat_lt (a b : BitVec w) : a.toNat * b.toNat < 2 ^ (w + w) := by
  rw [pow_add]
  exact Nat.mul_lt_mul'' a.isLt b.isLt

theorem mul_toInt_range (hw : 0 < w) (a b : BitVec w) :
    -2 ^ (w + w - 1) ≤ a.toInt * b.toInt ∧ a.toInt * b.toInt < 2 ^ (w + w - 1) := by
  have hlow := le_toInt_mul_toInt (x := a) (y := b)
  have hhigh := toInt_mul_toInt_le (x := a) (y := b)
  have hpow : (2 : ℤ) ^ (w + w - 1) = 2 * 2 ^ (w * 2 - 2) := by
    rw [← pow_succ']
    congr 1
    omega
  have hpos : (0 : ℤ) < 2 ^ (w * 2 - 2) := by positivity
  omega

theorem safe_setPair (w : ℕ) (high low : BitVec w) : Safe (setPair w high low) := fun s => by
  simp [setPair]

theorem safe_setQuotient8 (q r : BitVec 8) : Safe (setQuotient8 q r) := fun s => by
  simp [setQuotient8]

theorem safe_mulOp {α : Type} (a b : BitVec w) {f : ℕ → Exec α} (hf : ∀ prod, Safe (f prod)) :
    Safe (mulNat checks (w + w) a.toNat b.toNat >>= f) := fun s => by
  rw [wp_bind, wp_mulNat (mul_toNat_lt a b)]
  exact hf _ s

theorem safe_imulOp (hw : 0 < w) {α : Type} (a b : BitVec w) {f : ℤ → Exec α}
    (hf : ∀ prod, Safe (f prod)) :
    Safe (mulInt checks (w + w) a.toInt b.toInt >>= f) := fun s => by
  rw [wp_bind, wp_mulInt (mul_toInt_range hw a b)]
  exact hf _ s

theorem safe_group3Op (hw : 0 < w) (op : Operand) (val : BitVec w) {reg : Fin 8} (hreg : reg ≠ 7) :
    Safe (group3Op checks w entryEip op val reg) := by
  fin_cases reg
  · exact (quiet_fetchImm w).safe.bind fun _ _ => trivial
  · exact (quiet_fetchImm w).safe.bind fun _ _ => trivial
  · exact safe_writeOperand w op _
  · exact Safe.bind (fun _ => trivial) fun _ => safe_writeOperand w op _
  · exact quiet_getRegs.safe.bind fun _ => safe_mulOp _ _ fun _ _ => trivial
  · exact quiet_getRegs.safe.bind fun _ => safe_imulOp hw _ _ fun _ _ => trivial
  · exact quiet_getRegs.safe.bind fun _ => (safe_divide _ w _ _).bind fun _ _ => trivial
  · exact absurd rfl hreg

theorem safe_group3Op8 (dst : Operand) (val : BitVec 8) {reg : Fin 8} (hreg : reg ≠ 7) :
    Safe (group3Op8 checks entryEip dst val reg) := by
  fin_cases reg
  · exact (quiet_fetchImm 8).safe.bind fun _ _ => trivial
  · exact (quiet_fetchImm 8).safe.bind fun _ _ => trivial
  · exact safe_writeOp8 dst _
  · exact Safe.bind (fun _ => trivial) fun _ => safe_writeOp8 dst _
  · exact quiet_getRegs.safe.bind fun _ => safe_mulOp _ _ fun _ _ => trivial
  · exact quiet_getRegs.safe.bind fun _ => safe_imulOp (by omega) _ _ fun _ _ => trivial
  · exact quiet_getRegs.safe.bind fun _ => (safe_divide _ 8 _ _).bind fun _ _ => trivial
  · exact absurd rfl hreg

/-- The operation of group 3 panics exactly for a signed division of the least pair by minus one. -/
theorem panics_group3Op_iff (hw : 0 < w) (op : Operand) (val : BitVec w) (reg : Fin 8)
    (s : Machine) :
    Panics (group3Op checks w entryEip op val reg) s ↔
      reg = 7 ∧ val = allOnes w ∧ s.regs.pair w = intMin (w + w) := by
  by_cases hreg : reg = 7
  · subst hreg
    have hdiv := panics_divideSigned_iff entryEip hw (s.regs.pair w).toInt val s
    rw [toInt_eq_neg_pow_iff (by omega)] at hdiv
    rw [group3Op, panics_getRegs_bind]
    refine Iff.trans (panics_bind_left ?_) (hdiv.trans (by tauto))
    rintro ⟨q, r⟩
    exact safe_setPair w r q
  · exact iff_of_false ((safe_group3Op entryEip hw op val hreg).not_panics s) fun h => hreg h.1

/-- The byte forms of the group panic at one signed quotient. -/
theorem panics_group3Op8_iff (dst : Operand) (val : BitVec 8) (reg : Fin 8) (s : Machine) :
    Panics (group3Op8 checks entryEip dst val reg) s ↔
      reg = 7 ∧ val = allOnes 8 ∧ s.regs.getLow 16 0 = intMin 16 := by
  by_cases hreg : reg = 7
  · subst hreg
    have hleast := toInt_eq_neg_pow_iff (w := 16) (by omega) (s.regs.getLow 16 0)
    have hdiv := panics_divideSigned_iff (w := 8) entryEip (by omega)
      (s.regs.getLow 16 0).toInt val s
    rw [hleast] at hdiv
    rw [group3Op8, panics_getRegs_bind]
    refine Iff.trans (panics_bind_left ?_) (hdiv.trans (by tauto))
    rintro ⟨q, r⟩
    exact safe_setQuotient8 q r
  · exact iff_of_false ((safe_group3Op8 entryEip dst val hreg).not_panics s) fun h => hreg h.1

/-! ## Instructions that panic -/

/-- The operand is minus one, and the dividend in the registers is the least one. -/
def LeastDividend (s : Machine) : Insn → Prop
  | .group3Byte => ∃ modrm dst s', operandRm8 s = .ok (modrm, dst, BitVec.allOnes 8) s' ∧
      modrm.reg = 7 ∧ s.regs.getLow 16 0 = BitVec.intMin 16
  | .group3 =>
    let w := if s.effOpSize16 then 16 else 32
    ∃ modrm op s', operandRm w s = .ok (modrm, op, BitVec.allOnes w) s' ∧
      modrm.reg = 7 ∧ s.regs.pair w = BitVec.intMin (w + w)
  | _ => False

/-- An operand is read before the group acts on it, and reading it keeps the registers. -/
theorem panics_operand_iff {operand : Exec (ModRm × Operand × BitVec w)}
    {act : Operand → BitVec w → Fin 8 → Exec Unit} {P : Regs → Prop} (hoperand : Quiet operand)
    (hP : ∀ {regs regs' : Regs}, regs'.gp = regs.gp → (P regs' ↔ P regs))
    (hact : ∀ op val reg s, Panics (act op val reg) s ↔ reg = 7 ∧ val = allOnes w ∧ P s.regs)
    (s : Machine) :
    Panics (do let (modrm, op, val) ← operand; act op val modrm.reg; return StepOk.continued) s ↔
      ∃ modrm op s', operand s = .ok (modrm, op, allOnes w) s' ∧ modrm.reg = 7 ∧ P s.regs := by
  rw [panics_bind (hoperand s)]
  constructor
  · rintro ⟨⟨modrm, op, val⟩, s', hok, hpanics⟩
    rw [panics_bind_pure, hact, hP ((hoperand s).of_ok hok).1] at hpanics
    obtain ⟨hreg, rfl, hregs⟩ := hpanics
    exact ⟨modrm, op, s', hok, hreg, hregs⟩
  rintro ⟨modrm, op, s', hok, hreg, hregs⟩
  refine ⟨_, s', hok, ?_⟩
  rw [panics_bind_pure, hact, hP ((hoperand s).of_ok hok).1]
  exact ⟨hreg, rfl, hregs⟩

/-- The wider instruction panics at the least dividend. -/
theorem panics_group3_iff (hw : 0 < w) (s : Machine) :
    Panics (group3 checks w entryEip) s ↔
      ∃ modrm op s', operandRm w s = .ok (modrm, op, allOnes w) s' ∧
        modrm.reg = 7 ∧ s.regs.pair w = intMin (w + w) :=
  panics_operand_iff (P := fun regs => regs.pair w = intMin (w + w)) (quiet_operandRm w)
    (fun hgp => by simp only [pair, getLow, hgp]) (panics_group3Op_iff entryEip hw) s

/-- The byte instruction panics at the least dividend. -/
theorem panics_group3Rm8_iff (s : Machine) :
    Panics (group3Rm8 checks entryEip) s ↔ LeastDividend s .group3Byte :=
  panics_operand_iff (P := fun regs => regs.getLow 16 0 = intMin 16) quiet_operandRm8
    (fun hgp => by simp only [getLow, hgp]) (panics_group3Op8_iff entryEip) s

/-- An instruction panics exactly if it divides the least dividend by minus one. -/
theorem panics_execInt_iff (insn : Insn) (s : Machine) :
    Panics (execInt checks entryEip insn) s ↔ LeastDividend s insn := by
  have hsafe : ∀ {m : Exec StepOk}, Safe m → (Panics m s ↔ False) := fun h =>
    iff_of_false (h.not_panics s) id
  cases insn with
  | imulImm =>
    exact hsafe (quiet_fetchModrm.safe.bind fun _ => (quiet_fetchRm _).safe.bind fun _ =>
      Safe.bind (fun _ => trivial) fun w => (quiet_fetchImm w).safe.bind fun _ =>
        (quiet_readOperand w _).safe.bind fun _ _ => trivial)
  | imulImm8 =>
    exact hsafe (quiet_fetchModrm.safe.bind fun _ => (quiet_fetchRm _).safe.bind fun _ =>
      Safe.bind (fun _ => trivial) fun w => (quiet_fetchImm 8).safe.bind fun _ =>
        (quiet_readOperand w _).safe.bind fun _ _ => trivial)
  | imulRm =>
    exact hsafe (quiet_fetchModrm.safe.bind fun _ => (quiet_fetchRm _).safe.bind fun _ =>
      quiet_getRegs.safe.bind fun _ => (quiet_readOperand 32 _).safe.bind fun _ _ => trivial)
  | shift8 source => exact hsafe (safe_group2Rm8 source)
  | shift source =>
    exact hsafe (.bind_of (P := fun w => w ≤ 32) opWidth_le fun w hw => safe_group2 hw source)
  | group3Byte => exact panics_group3Rm8_iff entryEip s
  | group3 =>
    have hw : 0 < if s.effOpSize16 then 16 else 32 := by split <;> omega
    exact panics_group3_iff entryEip hw s
  | shld byCl => exact hsafe (safe_doubleShiftRm true _)
  | shrd byCl => exact hsafe (safe_doubleShiftRm false _)

end Panics

end Univdreams.Emulator
