import Univdreams.Emulator.IsaInt

/-!
# Multiplications, divisions and shifts, 64 bits

The same instructions in long mode, `src/emulator/emulator/long64.rs`. Values of every width are
kept in words of 64 bits; the width of an operand is its number of bytes.

`panics_exec_iff` joins the two modes: an instruction panics for a signed division of the least
dividend by minus one, and in long mode, if overflow is checked, for a signed multiplication whose
product is not below `2^127` without the signs, and for a double shift of a word of 16 bits by more
than its width.
-/

namespace Univdreams.Emulator

open Prog BitVec

/-! ## Operands -/

/-- `Pfx`: the prefixes of an instruction. -/
structure Pfx where
  rex : UInt8
  hasRex : Bool
  opsz16 : Bool
  segFs : Bool
  deriving DecidableEq, Repr

namespace Pfx

/-- A bit of the REX prefix. -/
def bit (p : Pfx) (i : ℕ) : Fin 2 := Fin.ofNat 2 (p.rex.toNat / 2 ^ i)

/-- The size of operands in bytes. -/
def osz (p : Pfx) : ℕ := if p.bit 3 = 1 then 8 else if p.opsz16 then 2 else 4

end Pfx

/-- `Op`. -/
inductive Op where
  | reg (r : Fin 16)
  | mem (addr : BitVec 64)
  deriving DecidableEq, Repr

/-- The number of a register from its bit in the prefix and its field. -/
def extend (high : Fin 2) (low : Fin 8) : Fin 16 := ⟨8 * high.val + low.val, by omega⟩

/-- `fetch8`, `fetch16`, `fetch32` and `fetch64`. -/
def fetchLong (w : ℕ) : Exec (BitVec w) := do
  let regs ← getRegs
  let v ← readMem fun mmu => mmu.load w (regs.rip.setWidth 32)
  modifyRegs fun regs => { regs with rip := regs.rip + BitVec.ofNat 64 (w / 8) }
  return v

/-- `mask`. -/
def mask (v : BitVec 64) : ℕ → BitVec 64
  | 1 => v &&& 0xff
  | 2 => v &&& 0xffff
  | 4 => v &&& 0xffffffff
  | _ => v

/-- `sign_extend`, which returns a word without a sign. -/
def signExtend (v : BitVec 64) : ℕ → BitVec 64
  | 1 => (v.setWidth 8).signExtend 64
  | 2 => (v.setWidth 16).signExtend 64
  | 4 => (v.setWidth 32).signExtend 64
  | _ => v

/-- Whether a byte register is the second byte of one of the first four registers. -/
def isHighByte (idx : Fin 16) (size : ℕ) (hasRex : Bool) : Bool :=
  size = 1 && !hasRex && 4 ≤ idx && idx < 8

variable (checks : Bool) (regs : Regs) (p : Pfx)

/-- `rget`. -/
def Regs.rget (idx : Fin 16) (size : ℕ) (hasRex : Bool) : BitVec 64 :=
  if isHighByte idx size hasRex then (regs.gp64 (idx - 4) >>> 8) &&& 0xff
  else mask (regs.gp64 idx) size

/-- What a write of the low bytes leaves of a register. -/
def mergeLow (old v : BitVec 64) : ℕ → BitVec 64
  | 1 => (old &&& ~~~0xff) ||| (v &&& 0xff)
  | 2 => (old &&& ~~~0xffff) ||| (v &&& 0xffff)
  | 4 => v &&& 0xffffffff
  | _ => v

/-- `rset`, on the registers. -/
def Regs.rset (idx : Fin 16) (size : ℕ) (hasRex : Bool) (v : BitVec 64) : Regs :=
  if isHighByte idx size hasRex then
    let word := (regs.gp64 (idx - 4) &&& ~~~(0xff00 : BitVec 64)) ||| ((v &&& 0xff) <<< 8)
    { regs with gp64 := Function.update regs.gp64 (idx - 4) word }
  else
    let word := mergeLow (regs.gp64 idx) v size
    { regs with gp64 := Function.update regs.gp64 idx word }

/-- `rset`. -/
def rset (idx : Fin 16) (size : ℕ) (hasRex : Bool) (v : BitVec 64) : Exec Unit :=
  modifyRegs fun regs => regs.rset idx size hasRex v

/-- `mem_load`. -/
def memLoad (addr : BitVec 32) : ℕ → Exec (BitVec 64)
  | 1 => do return (← readMem fun mmu => mmu.load 8 addr).setWidth 64
  | 2 => do return (← readMem fun mmu => mmu.load 16 addr).setWidth 64
  | 4 => do return (← readMem fun mmu => mmu.load 32 addr).setWidth 64
  | _ => readMem fun mmu => mmu.load 64 addr

/-- `mem_store`. -/
def memStore (addr : BitVec 32) (v : BitVec 64) : ℕ → Exec Unit
  | 1 => store 8 addr (v.setWidth 8)
  | 2 => store 16 addr (v.setWidth 16)
  | 4 => store 32 addr (v.setWidth 32)
  | _ => store 64 addr v

/-- `op_get`. -/
def opGet (op : Op) (size : ℕ) (hasRex : Bool) : Exec (BitVec 64) :=
  match op with
  | .reg r => do return (← getRegs).rget r size hasRex
  | .mem addr => memLoad (addr.setWidth 32) size

/-- `op_set`. -/
def opSet (op : Op) (size : ℕ) (hasRex : Bool) (v : BitVec 64) : Exec Unit :=
  match op with
  | .reg r => rset r size hasRex v
  | .mem addr => memStore (addr.setWidth 32) v size

/-- The address of a SIB byte. -/
def sibAddress (mode : Fin 4) : Exec (BitVec 64) := do
  let sib ← fetchLong 8
  let s := Sib.decode ⟨sib⟩
  let index := extend (p.bit 1) s.index
  let regs ← getRegs
  let idxval := if index = 4 then 0 else regs.gp64 index <<< s.scale.val
  if s.base = 5 ∧ mode = 0 then
    let disp ← fetchLong 32
    return disp.signExtend 64 + idxval
  else return regs.gp64 (extend (p.bit 0) s.base) + idxval

/-- The address of an operand in memory, without its displacement. -/
def longBase (m : ModRm) : Exec (BitVec 64) := do
  if m.rm = 4 then sibAddress p m.mode
  else return (← getRegs).gp64 (extend (p.bit 0) m.rm)

/-- The displacement of an address, by its mode. -/
def longDisp (mode : Fin 4) : Exec (BitVec 64) := do
  if mode = 1 then return (← fetchLong 8).signExtend 64
  else if mode = 2 then return (← fetchLong 32).signExtend 64
  else return 0

/-- The base of the segment of an address. Only the segment `fs` has one in long mode. -/
def longSegment : Exec (BitVec 64) := do
  let m ← get
  return if p.segFs then (m.segBase .fs).setWidth 64 else 0

/-- `modrm`: the register field and the operand. `immLen` bytes follow, which count for an address
relative to the next instruction. -/
def modrmLong (immLen : ℕ) : Exec (Fin 16 × Op) := do
  let b ← fetchLong 8
  let m := ModRm.decode ⟨b⟩
  let reg := extend (p.bit 2) m.reg
  if m.mode = 3 then return (reg, .reg (extend (p.bit 0) m.rm))
  else if m.rm = 5 ∧ m.mode = 0 then
    let disp ← fetchLong 32
    let regs ← getRegs
    return (reg, .mem (regs.rip + BitVec.ofNat 64 immLen + disp.signExtend 64))
  else
    let base ← longBase p m
    let disp ← longDisp m.mode
    let segment ← longSegment p
    return (reg, .mem (base + disp + segment))

/-- `szp`. -/
def szp (r : BitVec 64) : ℕ → Exec Unit
  | 1 => modifyFlags fun flags => flags.setSzp (r.setWidth 8)
  | 2 => modifyFlags fun flags => flags.setSzp (r.setWidth 16)
  | 4 => modifyFlags fun flags => flags.setSzp (r.setWidth 32)
  | _ => modifyFlags fun flags => flags.setSzp r

/-- `logic_flags`. -/
def logicFlags (r : BitVec 64) (size : ℕ) : Exec Unit := do
  szp r size
  setOverflow false

/-- `imm_z`. -/
def immZ : ℕ → Exec (BitVec 64)
  | 2 => do return (← fetchLong 16).setWidth 64
  | 4 => do return (← fetchLong 32).setWidth 64
  | _ => do return (← fetchLong 32).signExtend 64

section Instructions

variable (checks : Bool)

/-! ## Group 3 -/

/-- `sub`, without a borrow: the difference, the carry and the overflow. -/
def sub (a b : BitVec 64) (size : ℕ) : Exec (BitVec 64 × Bool × Bool) := do
  let a := mask a size
  let b := mask b size
  let res := mask (a - b) size
  let n ← subNat checks 32 (8 * size) 1
  let sign ← shl checks (1 : BitVec 64) n
  return (res, a < b, (a ^^^ b) &&& (a ^^^ res) &&& sign != 0)

variable (a : BitVec 64) (p : Pfx)

/-- `NEG`, which is `alu` for the difference from zero. -/
def neg (size : ℕ) : Exec (BitVec 64) := do
  let (res, cf, of) ← sub checks 0 a size
  szp res size
  modifyFlags fun flags => { flags with cf := cf, of := of }
  return res

/-- The product of the accumulator and an operand, of 128 bits. The signed one is that of the words
that `sign_extend` returns, which have no sign. -/
def product (acc a : BitVec 64) (size : ℕ) (signed : Bool) : Exec (BitVec 64 × BitVec 64) := do
  if signed then
    let prod ← mulInt checks 128 (signExtend acc size).toNat (signExtend a size).toNat
    let high ← sshr checks (BitVec.ofInt 128 prod) (8 * size)
    return (BitVec.ofInt 64 prod, high.setWidth 64)
  else
    let prod ← mulNat checks 128 acc.toNat a.toNat
    let high ← shr checks (BitVec.ofNat 128 prod) (8 * size)
    return (BitVec.ofNat 64 prod, high.setWidth 64)

/-- `mul`. -/
def mul (size : ℕ) (signed : Bool) : Exec Unit := do
  let acc := (← getRegs).rget 0 size true
  let (lo, hi) ← product checks acc a size signed
  if size = 1 then rset 0 2 true ((lo &&& 0xff) ||| (mask hi 1 <<< 8))
  else do
    rset 0 size true (mask lo size)
    rset 2 size true (mask hi size)
  setOverflow (mask hi size != 0)

/-- The dividend, of 128 bits. -/
def longDividend (regs : Regs) (size : ℕ) : BitVec 128 :=
  let hi : BitVec 64 := if size = 1 then 0 else regs.rget 2 size true
  let lo := regs.rget 0 size true
  (hi.setWidth 128 <<< (8 * size)) ||| (if size = 1 then lo &&& 0xffff else lo).setWidth 128

/-- Set the quotient and the remainder. -/
def setQuotient (size : ℕ) (q r : BitVec 64) : Exec Unit := do
  rset 0 size true (mask q size)
  rset 2 size true (mask r size)

/-- `div`. -/
def div (size : ℕ) (signed : Bool) : Exec Unit := do
  let regs ← getRegs
  if a = 0 then trap (.divideByZero (regs.rip.setWidth 32))
  else
    let dividend := longDividend regs size
    if signed then
      let dvs := (signExtend a size).toInt
      let q ← divInt 128 dividend.toInt dvs
      let r ← remInt 128 dividend.toInt dvs
      setQuotient size (BitVec.ofInt 64 q) (BitVec.ofInt 64 r)
    else
      let q ← divNat dividend.toNat a.toNat
      let r ← remNat dividend.toNat a.toNat
      setQuotient size (BitVec.ofNat 64 q) (BitVec.ofNat 64 r)

/-- The operand of `group3`: the operation, the operand and its value. -/
def group3Operand (size : ℕ) : Exec (Fin 8 × Op × BitVec 64) := do
  let (ext, rm) ← modrmLong p 0
  let a ← opGet rm size p.hasRex
  return (Fin.ofNat 8 ext.val, rm, a)

/-- The immediate of `TEST`. -/
def testImm (size : ℕ) : Exec (BitVec 64) := do
  if size = 1 then return (← fetchLong 8).setWidth 64
  else immZ size

/-- The operations of `group3`. -/
def group3LongOp (size : ℕ) (rm : Op) (a : BitVec 64) : Fin 8 → Exec Unit
  | 0 | 1 => do
    let imm ← testImm size
    logicFlags (a &&& imm) size
  | 2 => opSet rm size p.hasRex (~~~a)
  | 3 => do
    let r ← neg checks a size
    opSet rm size p.hasRex r
    modifyFlags fun flags => { flags with cf := a != 0 }
  | 4 => mul checks a size false
  | 5 => mul checks a size true
  | 6 => div a size false
  | 7 => div a size true

/-- `group3`. -/
def group3Long (size : ℕ) : Exec StepOk := do
  let (ext, rm, a) ← group3Operand p size
  group3LongOp checks p size rm a ext
  return .continued

/-! ## Shifts -/

/-- The bits of a count that are used. -/
def countBits (count size : ℕ) : ℕ := count % (if size = 8 then 64 else 32)

/-- What `shift` computes. -/
def shifted (size c : ℕ) : Fin 8 → Exec (BitVec 64)
  | 0 => return a.rotateLeft c
  | 1 => return a.rotateRight c
  | 4 | 6 => return a <<< (c % 64)
  | 5 => shr checks (mask a size) c
  | 7 => shr checks (signExtend a size) c
  | 2 | 3 => return a

/-- `shift`. -/
def shiftLong (rm : Op) (size : ℕ) (ext : Fin 8) (count : ℕ) : Exec StepOk := do
  let c := countBits count size
  let a ← opGet rm size true
  if c = 0 then return .continued
  else
    let r ← shifted checks a size c ext
    opSet rm size true (mask r size)
    if ext ≠ 0 ∧ ext ≠ 1 then szp (mask r size) size
    return .continued

/-- The count of a shift, behind its operand. -/
def longCount : ShiftCount → Exec ℕ
  | .one => return 1
  | .cl => do return ((← getRegs).rget 1 1 p.hasRex).toNat
  | .imm8 => do return (← fetchLong 8).toNat

/-- The opcodes `C0`, `C1` and `D0` to `D3`. -/
def shiftInsn (size : ℕ) (source : ShiftCount) : Exec StepOk := do
  let (ext, rm) ← modrmLong p (if source = .imm8 then 1 else 0)
  let count ← longCount p source
  shiftLong checks rm size (Fin.ofNat 8 ext.val) count

/-- What `shld_shrd` computes from its operands. -/
def joinShifted (dst src : BitVec 64) (c bits : ℕ) (left : Bool) : Exec (BitVec 64) := do
  if left then
    let high ← shl checks dst c
    let n ← subNat checks 32 bits c
    let low ← shr checks src n
    return high ||| low
  else
    let low ← shr checks dst c
    let n ← subNat checks 32 bits c
    let high ← shl checks src n
    return low ||| high

/-- `shld_shrd`. -/
def shldShrd (rm : Op) (src : BitVec 64) (count size : ℕ) (left : Bool) : Exec Unit := do
  let c := countBits count size
  if c = 0 then return ()
  else
    let dst ← opGet rm size true
    let r ← joinShifted checks (mask dst size) (mask src size) c (8 * size) left
    opSet rm size true (mask r size)
    szp (mask r size) size

/-- The operands of a double shift: the operand, the source and the count. -/
def doubleOperands (byCl : Bool) : Exec (Op × BitVec 64 × ℕ) := do
  let (reg, rm) ← modrmLong p (if byCl then 0 else 1)
  let src := (← getRegs).rget reg p.osz p.hasRex
  let count ← longCount p (doubleCount byCl)
  return (rm, src, count)

/-- The opcodes `0F A4`, `0F A5`, `0F AC` and `0F AD`. -/
def doubleInsn (left byCl : Bool) : Exec StepOk := do
  let (rm, src, count) ← doubleOperands p byCl
  shldShrd checks rm src count p.osz left
  return .continued

/-! ## Instructions -/

/-- `imm_z_len`. -/
def immZLen (size : ℕ) : ℕ := if size = 2 then 2 else 4

/-- The opcodes `69` and `6B`. -/
def imulLongImm (immLen : ℕ) (fetch : Exec (BitVec 64)) : Exec StepOk := do
  let (reg, rm) ← modrmLong p immLen
  let src ← opGet rm p.osz p.hasRex
  let imm ← fetch
  rset reg p.osz p.hasRex (mask (signExtend src p.osz * imm) p.osz)
  return .continued

/-- The opcode `0F AF`. -/
def imulLongRm : Exec StepOk := do
  let (reg, rm) ← modrmLong p 0
  let a := (← getRegs).rget reg p.osz p.hasRex
  let b ← opGet rm p.osz p.hasRex
  rset reg p.osz p.hasRex (mask (a * signExtend b p.osz) p.osz)
  return .continued

/-- The part of `exec` and of the second opcode map that executes these instructions. -/
def execLong : Insn → Exec StepOk
  | .imulImm => imulLongImm p (immZLen p.osz) (immZ p.osz)
  | .imulImm8 => imulLongImm p 1 do return (← fetchLong 8).signExtend 64
  | .imulRm => imulLongRm p
  | .shift8 source => shiftInsn checks p 1 source
  | .shift source => shiftInsn checks p p.osz source
  | .group3Byte => group3Long checks p 1
  | .group3 => group3Long checks p p.osz
  | .shld byCl => doubleInsn checks p true byCl
  | .shrd byCl => doubleInsn checks p false byCl

end Instructions

/-! ## Reading operands -/

theorem quiet_fetchLong (w : ℕ) : Quiet (fetchLong w) :=
  quiet_getRegs.bind fun _ => (quiet_readMem _).bind fun _ =>
    Quiet.bind (fun _ => ⟨rfl, rfl⟩) fun _ =>
    quiet_pure _

theorem quiet_ite {α : Type} {c : Prop} [Decidable c] {m m' : Exec α} (h : Quiet m)
    (h' : Quiet m') : Quiet (if c then m else m') := by
  split
  · exact h
  · exact h'

/-- Reading the operand bytes does not panic. -/
theorem quiet_modrmLong (immLen : ℕ) : Quiet (modrmLong p immLen) := by
  have hsib : ∀ mode, Quiet (sibAddress p mode) := fun mode =>
    (quiet_fetchLong 8).bind fun _ => quiet_getRegs.bind fun _ =>
      quiet_ite ((quiet_fetchLong 32).bind fun _ => quiet_pure _) (quiet_pure _)
  have hdisp : ∀ mode, Quiet (longDisp mode) := fun mode =>
    quiet_ite ((quiet_fetchLong 8).bind fun _ => quiet_pure _)
      (quiet_ite ((quiet_fetchLong 32).bind fun _ => quiet_pure _) (quiet_pure _))
  have hbase : ∀ m, Quiet (longBase p m) := fun m =>
    quiet_ite (hsib _) (quiet_getRegs.bind fun _ => quiet_pure _)
  have hsegment : Quiet (longSegment p) := quiet_get.bind fun _ => quiet_pure _
  exact (quiet_fetchLong 8).bind fun _ => quiet_ite (quiet_pure _)
    (quiet_ite ((quiet_fetchLong 32).bind fun _ => quiet_getRegs.bind fun _ => quiet_pure _)
      ((hbase _).bind fun _ => (hdisp _).bind fun _ => hsegment.bind fun _ => quiet_pure _))

theorem quiet_memLoad (addr : BitVec 32) (size : ℕ) : Quiet (memLoad addr size) := by
  unfold memLoad
  split
  · exact (quiet_readMem _).bind fun _ => quiet_pure _
  · exact (quiet_readMem _).bind fun _ => quiet_pure _
  · exact (quiet_readMem _).bind fun _ => quiet_pure _
  · exact quiet_readMem _

theorem quiet_opGet (op : Op) (size : ℕ) (hasRex : Bool) : Quiet (opGet op size hasRex) := by
  cases op with
  | reg r => exact quiet_getRegs.bind fun _ => quiet_pure _
  | mem addr => exact quiet_memLoad _ size

theorem quiet_longCount (source : ShiftCount) : Quiet (longCount p source) := by
  cases source with
  | one => exact quiet_pure _
  | cl => exact quiet_getRegs.bind fun _ => quiet_pure _
  | imm8 => exact (quiet_fetchLong 8).bind fun _ => quiet_pure _

theorem quiet_immZ (size : ℕ) : Quiet (immZ size) := by
  unfold immZ
  split <;> exact (quiet_fetchLong _).bind fun _ => quiet_pure _

theorem safe_opSet (op : Op) (size : ℕ) (hasRex : Bool) (v : BitVec 64) :
    Safe (opSet op size hasRex v) := by
  cases op with
  | reg r => exact fun _ => trivial
  | mem addr =>
    intro s
    show Wp (memStore (addr.setWidth 32) v size) s _
    unfold memStore
    split <;> exact wp_store _ _ fun _ => trivial

theorem safe_szp (r : BitVec 64) (size : ℕ) : Safe (szp r size) := by
  unfold szp
  split <;> exact fun _ => trivial

theorem quiet_group3Operand (size : ℕ) : Quiet (group3Operand p size) :=
  (quiet_modrmLong p 0).bind fun _ => (quiet_opGet _ size _).bind fun _ => quiet_pure _

theorem quiet_doubleOperands (byCl : Bool) : Quiet (doubleOperands p byCl) :=
  (quiet_modrmLong p _).bind fun _ => quiet_getRegs.bind fun _ =>
    (quiet_longCount p _).bind fun _ => quiet_pure _

/-! ## Widths -/

/-- The sizes of operands in bytes. -/
def IsSize (size : ℕ) : Prop := size = 1 ∨ size = 2 ∨ size = 4 ∨ size = 8

theorem Pfx.osz_cases : p.osz = 2 ∨ p.osz = 4 ∨ p.osz = 8 := by
  unfold Pfx.osz
  split_ifs <;> simp

theorem Pfx.isSize_osz : IsSize p.osz := .inr p.osz_cases

theorem mask_toNat (v : BitVec 64) {size : ℕ} (hsize : IsSize size) :
    (mask v size).toNat = v.toNat % 2 ^ (8 * size) := by
  rcases hsize with rfl | rfl | rfl | rfl
  · exact Nat.and_two_pow_sub_one_eq_mod v.toNat 8
  · exact Nat.and_two_pow_sub_one_eq_mod v.toNat 16
  · exact Nat.and_two_pow_sub_one_eq_mod v.toNat 32
  · exact (Nat.mod_eq_of_lt v.isLt).symm

/-- A register of some size is below its bound. -/
theorem rget_lt (idx : Fin 16) {size : ℕ} (hsize : IsSize size) (hasRex : Bool) :
    (regs.rget idx size hasRex).toNat < 2 ^ (8 * size) := by
  unfold Regs.rget
  split
  next hhigh =>
    have hone : size = 1 := by
      simp only [isHighByte, Bool.and_eq_true, decide_eq_true_eq] at hhigh
      exact hhigh.1.1.1
    subst hone
    have hmask := mask_toNat (regs.gp64 (idx - 4) >>> 8) hsize
    show (mask (regs.gp64 (idx - 4) >>> 8) 1).toNat < _
    omega
  next => rw [mask_toNat _ hsize]; exact Nat.mod_lt _ (by positivity)

/-- The value of an operand is as wide as the operand. -/
theorem opGet_lt (op : Op) {size : ℕ} (hsize : IsSize size) (hasRex : Bool) (s : Machine) :
    Wp (opGet op size hasRex) s fun a _ => a.toNat < 2 ^ (8 * size) := by
  cases op with
  | reg r => exact rget_lt s.regs r hsize hasRex
  | mem addr =>
    show Wp (memLoad (addr.setWidth 32) size) s _
    rcases hsize with rfl | rfl | rfl | rfl
    iterate 3
      · rw [memLoad, wp_bind, wp_readMem]
        exact fun v _ => by simp only [wp_pure, toNat_setWidth]; omega
    · show Wp (readMem fun mmu => mmu.load 64 (addr.setWidth 32)) s _
      rw [wp_readMem]
      exact fun v _ => v.isLt

/-- A word that is no wider than its size is zero if its signed extension is. -/
theorem eq_zero_of_signExtend {a : BitVec 64} {size : ℕ} (hsize : IsSize size)
    (ha : a.toNat < 2 ^ (8 * size)) (h : (signExtend a size).toInt = 0) : a = 0 := by
  have hnarrow : ∀ {w : ℕ}, w ≤ 64 → a.toNat < 2 ^ w → ((a.setWidth w).signExtend 64).toInt = 0 →
      a = 0 := by
    intro w hw hlt h
    rw [toInt_signExtend_of_le hw] at h
    have hzero : a.setWidth w = 0 := toInt_inj.1 (by simpa using h)
    have hnat := congrArg BitVec.toNat hzero
    rw [toNat_setWidth, Nat.mod_eq_of_lt hlt] at hnat
    exact toNat_inj.1 (by simpa using hnat)
  rcases hsize with rfl | rfl | rfl | rfl
  · exact hnarrow (by omega) ha h
  · exact hnarrow (by omega) ha h
  · exact hnarrow (by omega) ha h
  · exact toInt_inj.1 (h.trans toInt_zero.symm)

/-- The dividend is the register pair as one number. -/
theorem longDividend_toNat {size : ℕ} (hsize : IsSize size) (hne : size ≠ 1) :
    (longDividend regs size).toNat =
      (regs.rget 2 size true).toNat * 2 ^ (8 * size) + (regs.rget 0 size true).toNat := by
  have hhi := rget_lt regs 2 hsize true
  have hlo := rget_lt regs 0 hsize true
  have hle : 8 * size ≤ 64 := by unfold IsSize at hsize; omega
  have hpow : (2 : ℕ) ^ (8 * size) ≤ 2 ^ 64 := Nat.pow_le_pow_right (by omega) hle
  unfold longDividend
  simp only [if_neg hne]
  rw [toNat_or, toNat_shiftLeft, toNat_setWidth, toNat_setWidth,
    Nat.mod_eq_of_lt (a := (regs.rget 2 size true).toNat) (by omega),
    Nat.mod_eq_of_lt (a := (regs.rget 0 size true).toNat) (by omega), Nat.shiftLeft_eq,
    Nat.mod_eq_of_lt]
  · rw [← Nat.shiftLeft_eq, Nat.shiftLeft_add_eq_or_of_lt hlo]
  calc (regs.rget 2 size true).toNat * 2 ^ (8 * size)
      < 2 ^ (8 * size) * 2 ^ (8 * size) := Nat.mul_lt_mul_of_pos_right hhi (by positivity)
    _ ≤ 2 ^ 64 * 2 ^ 64 := Nat.mul_le_mul hpow hpow
    _ = 2 ^ 128 := by norm_num

/-- The dividend is the least one exactly if it is of 64 bits and in the registers. -/
theorem longDividend_eq_intMin_iff {size : ℕ} (hsize : IsSize size) :
    longDividend regs size = intMin 128 ↔
      size = 8 ∧ regs.gp64 2 = intMin 64 ∧ regs.gp64 0 = 0 := by
  have hmin : (intMin 128).toNat = 2 ^ 127 := by
    rw [toNat_intMin]
    norm_num
  have hmin64 : (intMin 64).toNat = 2 ^ 63 := by
    rw [toNat_intMin]
    norm_num
  rw [← toNat_inj, hmin]
  by_cases hone : size = 1
  · -- The dividend of a division of bytes is the low byte of the accumulator.
    subst hone
    have hlt : (longDividend regs 1).toNat < 2 ^ 64 := by
      have hzero : longDividend regs 1 = (regs.rget 0 1 true &&& 0xffff).setWidth 128 := by
        simp [longDividend]
      rw [hzero, toNat_setWidth]
      exact lt_of_le_of_lt (Nat.mod_le _ _) (regs.rget 0 1 true &&& 0xffff).isLt
    exact iff_of_false (by omega) fun h => absurd h.1 (by omega)
  have hnat := longDividend_toNat regs hsize hone
  have hhi := rget_lt regs 2 hsize true
  have hlo := rget_lt regs 0 hsize true
  rw [hnat]
  rcases hsize with rfl | rfl | rfl | rfl
  · exact absurd rfl hone
  · exact iff_of_false (by omega) fun h => absurd h.1 (by omega)
  · exact iff_of_false (by omega) fun h => absurd h.1 (by omega)
  have h2 : regs.rget 2 8 true = regs.gp64 2 := rfl
  have h0 : regs.rget 0 8 true = regs.gp64 0 := rfl
  have hzero : (0 : BitVec 64).toNat = 0 := rfl
  rw [h2] at hhi
  rw [h0] at hlo
  rw [h2, h0, ← toNat_inj (x := regs.gp64 2), ← toNat_inj (x := regs.gp64 0), hmin64, hzero]
  omega

/-! ## Multiplications and divisions -/

section Panics

variable {checks : Bool} {size : ℕ}

theorem safe_setQuotient (q r : BitVec 64) : Safe (setQuotient size q r) := fun s => by
  simp [setQuotient, rset]

theorem div_signed_eq (a : BitVec 64) : div a size true = (do
    let regs ← getRegs
    if a = 0 then trap (.divideByZero (regs.rip.setWidth 32))
    else
      let q ← divInt 128 (longDividend regs size).toInt (signExtend a size).toInt
      let r ← remInt 128 (longDividend regs size).toInt (signExtend a size).toInt
      setQuotient size (BitVec.ofInt 64 q) (BitVec.ofInt 64 r)) := rfl

/-- A signed division in long mode panics exactly for the least dividend and minus one. -/
theorem panics_div_signed_iff (hsize : IsSize size) {a : BitVec 64} (ha : a.toNat < 2 ^ (8 * size))
    (s : Machine) :
    Panics (div a size true) s ↔ size = 8 ∧ a = allOnes 64 ∧
      s.regs.gp64 2 = intMin 64 ∧ s.regs.gp64 0 = 0 := by
  have hleast := longDividend_eq_intMin_iff s.regs hsize
  rw [← toInt_eq_neg_pow_iff (by omega)] at hleast
  rw [div_signed_eq, panics_getRegs_bind]
  by_cases hzero : a = 0
  · rw [if_pos hzero]
    exact iff_of_false (panics_trap _) fun h => by simp [hzero] at h
  rw [if_neg hzero]
  have hdvs : (signExtend a size).toInt ≠ 0 := fun h => hzero (eq_zero_of_signExtend hsize ha h)
  have hones : size = 8 → ((signExtend a size).toInt = -1 ↔ a = allOnes 64) := by
    rintro rfl
    exact toInt_eq_neg_one_iff (by omega) a
  by_cases hover : DivOverflows 128 (longDividend s.regs size).toInt (signExtend a size).toInt
  · obtain ⟨hdividend, hminus⟩ := hover.resolve_left hdvs
    obtain ⟨hsize8, hdx, hax⟩ := hleast.1 hdividend
    refine iff_of_true ?_ ⟨hsize8, (hones hsize8).1 hminus, hdx, hax⟩
    rw [divInt, if_pos hover]
    exact panics_panic
  have hnot : ¬ (size = 8 ∧ a = allOnes 64 ∧
      s.regs.gp64 2 = intMin 64 ∧ s.regs.gp64 0 = 0) := by
    rintro ⟨hsize8, hall, hdx, hax⟩
    exact hover (.inr ⟨hleast.2 ⟨hsize8, hdx, hax⟩, (hones hsize8).2 hall⟩)
  refine iff_of_false (Safe.not_panics (fun s' => ?_) s) hnot
  rw [wp_bind, wp_divInt hover, wp_bind, wp_remInt hover]
  exact safe_setQuotient _ _ s'

theorem safe_div_unsigned (a : BitVec 64) : Safe (div a size false) := by
  refine quiet_getRegs.safe.bind fun regs => safe_ite (fun _ => safe_trap _) fun hzero s => ?_
  have hnat : a.toNat ≠ 0 := fun heq => hzero (toNat_inj.1 (by simpa using heq))
  show Wp (divNat _ _ >>= _) s _
  rw [wp_bind, wp_divNat hnat, wp_bind, wp_remNat hnat]
  exact safe_setQuotient _ _ s

/-- What follows a product does not panic. -/
theorem panics_mul_iff_product (a : BitVec 64) (signed : Bool) (s : Machine) :
    Panics (mul checks a size signed) s ↔
      Panics (product checks (s.regs.rget 0 size true) a size signed) s := by
  rw [mul, panics_getRegs_bind]
  refine panics_bind_left ?_
  rintro ⟨lo, hi⟩ s'
  dsimp only
  split <;> simp [rset, setOverflow]

/-- When a signed product panics: its operands, as unsigned, overflow 127 bits. -/
theorem panics_mul_signed_iff (hsize : IsSize size) (a : BitVec 64) (s : Machine) :
    Panics (mul checks a size true) s ↔ checks = true ∧
      2 ^ 127 ≤ (signExtend (s.regs.rget 0 size true) size).toNat * (signExtend a size).toNat := by
  rw [panics_mul_iff_product]
  generalize (s.regs.rget 0 size true) = acc
  have hlt : 8 * size < 128 := by unfold IsSize at hsize; omega
  have hrest : ∀ prod : ℤ, Safe (do
      let high ← sshr checks (BitVec.ofInt 128 prod) (8 * size)
      return (BitVec.ofInt 64 prod, high.setWidth 64) : Exec (BitVec 64 × BitVec 64)) := by
    intro prod s
    rw [wp_bind, wp_sshr hlt]
    trivial
  show Panics (mulInt checks 128 _ _ >>= _) s ↔ _
  rw [panics_bind_left hrest, mulInt]
  generalize hx : (signExtend acc size).toNat * (signExtend a size).toNat = x
  have hcast : ((signExtend acc size).toNat : ℤ) * ((signExtend a size).toNat : ℤ) = x := by
    rw [← hx]
    push_cast
    ring
  rw [hcast]
  split_ifs with hrange
  · exact iff_of_false (panics_pure _) fun h => absurd h.2 (by omega)
  have hbig : 2 ^ 127 ≤ x := by omega
  cases checks with
  | false => exact iff_of_false (panics_pure _) fun h => by simp at h
  | true => exact iff_of_true panics_panic ⟨rfl, hbig⟩

theorem safe_mul_unsigned (hsize : IsSize size) (a : BitVec 64) :
    Safe (mul checks a size false) := by
  intro s
  rw [← not_panics_iff, panics_mul_iff_product, not_panics_iff]
  have hlt : 8 * size < 128 := by unfold IsSize at hsize; omega
  have hprod : (s.regs.rget 0 size true).toNat * a.toNat < 2 ^ 128 :=
    mul_toNat_lt (s.regs.rget 0 size true) a
  show Wp (mulNat checks 128 _ _ >>= _) s _
  rw [wp_bind, wp_mulNat hprod, wp_bind, wp_shr hlt]
  trivial

theorem safe_neg (hsize : IsSize size) (a : BitVec 64) : Safe (neg checks a size) := by
  have hle : 1 ≤ 8 * size := by unfold IsSize at hsize; omega
  have hlt : 8 * size - 1 < 64 := by unfold IsSize at hsize; omega
  have hszp : ∀ r s, Wp (szp r size) s fun _ _ => True := fun r s => safe_szp r size s
  intro s
  unfold neg sub
  simp only [wp_bind, wp_subNat hle, wp_shl hlt, wp_pure]
  exact (hszp _ s).mono fun _ _ _ => trivial

/-- The operation of group 3 in long mode. -/
theorem panics_group3LongOp_iff (hsize : IsSize size) (p : Pfx) (rm : Op) {a : BitVec 64}
    (ha : a.toNat < 2 ^ (8 * size)) (ext : Fin 8) (s : Machine) :
    Panics (group3LongOp checks p size rm a ext) s ↔
      (ext = 7 ∧ size = 8 ∧ a = allOnes 64 ∧ s.regs.gp64 2 = intMin 64 ∧
        s.regs.gp64 0 = 0) ∨
      (ext = 5 ∧ checks = true ∧
        2 ^ 127 ≤ (signExtend (s.regs.rget 0 size true) size).toNat *
          (signExtend a size).toNat) := by
  have htest : Safe (do logicFlags (a &&& (← testImm size)) size : Exec Unit) := by
    have himm : Quiet (testImm size) :=
      quiet_ite ((quiet_fetchLong 8).bind fun _ => quiet_pure _) (quiet_immZ size)
    exact himm.safe.bind fun _ => (safe_szp _ size).bind fun _ _ => trivial
  have hsafe : ∀ {m : Exec Unit} {P Q : Prop}, Safe m → ¬P → ¬Q → (Panics m s ↔ P ∨ Q) :=
    fun h hp hq => iff_of_false (h.not_panics s) (not_or.2 ⟨hp, hq⟩)
  fin_cases ext
  · exact hsafe htest (by simp) (by simp)
  · exact hsafe htest (by simp) (by simp)
  · exact hsafe (safe_opSet rm size _ _) (by simp) (by simp)
  · exact hsafe ((safe_neg hsize a).bind fun _ => (safe_opSet rm size _ _).bind fun _ _ => trivial)
      (by simp) (by simp)
  · exact hsafe (safe_mul_unsigned hsize a) (by simp) (by simp)
  · refine (panics_mul_signed_iff hsize a s).trans ?_
    simp
  · exact hsafe (safe_div_unsigned a) (by simp) (by simp)
  · refine (panics_div_signed_iff hsize ha s).trans ?_
    simp

/-! ## Shifts -/

theorem countBits_lt (count size : ℕ) :
    countBits count size < 64 ∧ (size ≠ 8 → countBits count size < 32) := by
  unfold countBits
  split
  · exact ⟨Nat.mod_lt _ (by omega), fun h => absurd ‹_› h⟩
  · have := Nat.mod_lt count (show 0 < 32 by omega)
    exact ⟨by omega, fun _ => this⟩

theorem safe_shiftLong (rm : Op) (ext : Fin 8) (count : ℕ) :
    Safe (shiftLong checks rm size ext count) := by
  have hlt := (countBits_lt count size).1
  have hshifted : ∀ a, Safe (shifted checks a size (countBits count size) ext) := by
    intro a s
    fin_cases ext <;> simp [shifted, wp_shr hlt]
  refine (quiet_opGet rm size true).safe.bind fun a => safe_ite (fun _ => safe_pure _) fun _ =>
    (hshifted a).bind fun r => (safe_opSet rm size true _).bind fun _ => safe_ite (fun _ => ?_)
      fun _ => safe_pure _
  exact (safe_szp _ size).bind fun _ => safe_pure _

theorem safe_shiftInsn (p : Pfx) (source : ShiftCount) :
    Safe (shiftInsn checks p size source) :=
  (quiet_modrmLong p _).safe.bind fun _ => (quiet_longCount p source).safe.bind fun _ =>
    safe_shiftLong _ _ _

/-- The two parts of a double shift. Only the difference of the width and the count can be out of
range. -/
theorem panics_joinShifted_iff {c bits : ℕ} (hc : c < 64) (hpos : 0 < c) (hbits : bits ≤ 64)
    (dst src : BitVec 64) (left : Bool) (s : Machine) :
    Panics (joinShifted checks dst src c bits left) s ↔
      checks = true ∧ bits < c := by
  by_cases hle : c ≤ bits
  · have hlt : bits - c < 64 := by omega
    refine iff_of_false (Wp.not_panics (Q := fun _ _ => True) ?_) fun h => by omega
    unfold joinShifted
    split
    · simp [wp_shl hc, wp_subNat hle, wp_shr hlt]
    · simp [wp_shr hc, wp_subNat hle, wp_shl hlt]
  cases hchecks : checks with
  | true =>
    refine iff_of_true ?_ ⟨rfl, by omega⟩
    unfold joinShifted
    split <;> simp [shl, shr, hc, subNat, hle, overflow] <;> exact panics_panic
  | false =>
    refine iff_of_false (Wp.not_panics (Q := fun _ _ => True) ?_) fun h => by simp at h
    unfold joinShifted
    split <;> simp [shl, shr, hc, subNat, hle, overflow]

/-- A double shift panics exactly if overflow is checked, the operand can be read and has 16 bits,
and the count is larger. -/
theorem panics_shldShrd_iff (hsize : IsSize size) (hne : size ≠ 1) (rm : Op) (src : BitVec 64)
    (count : ℕ) (left : Bool) (s : Machine) :
    Panics (shldShrd checks rm src count size left) s ↔
      checks = true ∧ size = 2 ∧ 16 < count % 32 ∧
        ∃ dst s', opGet rm size true s = .ok dst s' := by
  obtain ⟨hc, hnarrow⟩ := countBits_lt count size
  have hbits : 8 * size ≤ 64 := by unfold IsSize at hsize; omega
  have hcount : 8 * size < countBits count size ↔ size = 2 ∧ 16 < count % 32 := by
    rcases hsize with rfl | rfl | rfl | rfl
    · exact absurd rfl hne
    · simp [countBits]
    · have := hnarrow (by omega)
      omega
    · omega
  unfold shldShrd
  by_cases hzero : countBits count size = 0
  · rw [if_pos hzero]
    exact iff_of_false (panics_pure _) fun h => by
      have := hcount.2 ⟨h.2.1, h.2.2.1⟩
      omega
  rw [if_neg hzero, panics_bind (quiet_opGet rm size true s)]
  have hrest : ∀ dst s', Panics (do
      let r ← joinShifted checks (mask dst size) (mask src size) (countBits count size)
        (8 * size) left
      opSet rm size true (mask r size)
      szp (mask r size) size : Exec Unit) s' ↔
        checks = true ∧ 8 * size < countBits count size := fun dst s' =>
    (panics_bind_left fun _ => (safe_opSet rm size true _).bind fun _ => safe_szp _ size).trans
      (panics_joinShifted_iff hc (by omega) hbits _ _ left s')
  simp only [hrest, hcount]
  constructor
  · rintro ⟨dst, s', hok, hchecks, h2, h16⟩
    exact ⟨hchecks, h2, h16, dst, s', hok⟩
  · rintro ⟨hchecks, h2, h16, dst, s', hok⟩
    exact ⟨dst, s', hok, hchecks, h2, h16⟩

/-! ## Instructions that panic -/

/-- The operands of an instruction in long mode for which it panics. -/
def LongOverflow (checks : Bool) (p : Pfx) (s : Machine) : Insn → Prop
  | .group3Byte => ∃ rm a s', group3Operand p 1 s = .ok (5, rm, a) s' ∧ checks = true ∧
      2 ^ 127 ≤ (signExtend (s.regs.rget 0 1 true) 1).toNat * (signExtend a 1).toNat
  | .group3 =>
    (∃ rm s', group3Operand p p.osz s = .ok (7, rm, BitVec.allOnes 64) s' ∧ p.osz = 8 ∧
      s.regs.gp64 2 = BitVec.intMin 64 ∧ s.regs.gp64 0 = 0) ∨
    ∃ rm a s', group3Operand p p.osz s = .ok (5, rm, a) s' ∧ checks = true ∧
      2 ^ 127 ≤ (signExtend (s.regs.rget 0 p.osz true) p.osz).toNat * (signExtend a p.osz).toNat
  | .shld byCl | .shrd byCl => checks = true ∧ p.osz = 2 ∧
      ∃ rm src count s' dst s'', doubleOperands p byCl s = .ok (rm, src, count) s' ∧
        16 < count % 32 ∧ opGet rm 2 true s' = .ok dst s''
  | _ => False

theorem group3Operand_lt (hsize : IsSize size) (p : Pfx) (s : Machine) :
    Wp (group3Operand p size) s fun x s' => x.2.2.toNat < 2 ^ (8 * size) ∧ SameRegs s' s := by
  have hquiet := quiet_group3Operand p size s
  have hlt : Wp (group3Operand p size) s fun x _ => x.2.2.toNat < 2 ^ (8 * size) := by
    rw [group3Operand, wp_bind]
    refine (quiet_modrmLong p 0 s).mono fun x s' _ => ?_
    rw [wp_bind]
    exact (opGet_lt _ hsize _ s').mono fun a s'' ha => ha
  unfold Wp at hquiet hlt ⊢
  split at hquiet <;> simp_all

/-- When an instruction of the third group panics. -/
theorem panics_group3Long_iff (hsize : IsSize size) (p : Pfx) (s : Machine) :
    Panics (group3Long checks p size) s ↔
      (∃ rm s', group3Operand p size s = .ok (7, rm, allOnes 64) s' ∧ size = 8 ∧
        s.regs.gp64 2 = intMin 64 ∧ s.regs.gp64 0 = 0) ∨
      ∃ rm a s', group3Operand p size s = .ok (5, rm, a) s' ∧ checks = true ∧
        2 ^ 127 ≤ (signExtend (s.regs.rget 0 size true) size).toNat *
          (signExtend a size).toNat := by
  have hoperand := group3Operand_lt hsize p s
  have hrget : ∀ {s'}, SameRegs s' s → s'.regs.rget 0 size true = s.regs.rget 0 size true := by
    intro s' hs
    rw [Regs.rget, Regs.rget, hs.2]
  rw [group3Long, panics_bind hoperand]
  constructor
  · rintro ⟨⟨ext, rm, a⟩, s', hok, hpanics⟩
    obtain ⟨ha, hs⟩ := hoperand.of_ok hok
    rw [panics_bind_pure, panics_group3LongOp_iff hsize p rm ha, hrget hs, hs.2] at hpanics
    rcases hpanics with ⟨rfl, h8, rfl, hdx, hax⟩ | ⟨rfl, hchecks, hbig⟩
    · exact .inl ⟨rm, s', hok, h8, hdx, hax⟩
    · exact .inr ⟨rm, a, s', hok, hchecks, hbig⟩
  rintro (⟨rm, s', hok, h8, hdx, hax⟩ | ⟨rm, a, s', hok, hchecks, hbig⟩)
  · obtain ⟨ha, hs⟩ := hoperand.of_ok hok
    refine ⟨_, s', hok, ?_⟩
    rw [panics_bind_pure, panics_group3LongOp_iff hsize p rm ha, hrget hs, hs.2]
    exact .inl ⟨rfl, h8, rfl, hdx, hax⟩
  obtain ⟨ha, hs⟩ := hoperand.of_ok hok
  refine ⟨_, s', hok, ?_⟩
  rw [panics_bind_pure, panics_group3LongOp_iff hsize p rm ha, hrget hs, hs.2]
  exact .inr ⟨rfl, hchecks, hbig⟩

/-- When a double shift panics. -/
theorem panics_doubleInsn_iff (p : Pfx) (left byCl : Bool) (s : Machine) :
    Panics (doubleInsn checks p left byCl) s ↔ LongOverflow checks p s (.shld byCl) := by
  have hne : p.osz ≠ 1 := by have := p.osz_cases; omega
  rw [doubleInsn, panics_bind (quiet_doubleOperands p byCl s)]
  constructor
  · rintro ⟨⟨rm, src, count⟩, s', hok, hpanics⟩
    rw [panics_bind_pure, panics_shldShrd_iff p.isSize_osz hne] at hpanics
    obtain ⟨hchecks, h2, h16, dst, s'', hget⟩ := hpanics
    exact ⟨hchecks, h2, rm, src, count, s', dst, s'', hok, h16, h2 ▸ hget⟩
  rintro ⟨hchecks, h2, rm, src, count, s', dst, s'', hok, h16, hget⟩
  refine ⟨_, s', hok, ?_⟩
  rw [panics_bind_pure, panics_shldShrd_iff p.isSize_osz hne]
  exact ⟨hchecks, h2, h16, dst, s'', by rw [h2]; exact hget⟩

/-- When an instruction of long mode panics. -/
theorem panics_execLong_iff (p : Pfx) (insn : Insn) (s : Machine) :
    Panics (execLong checks p insn) s ↔ LongOverflow checks p s insn := by
  have hsafe : ∀ {m : Exec StepOk}, Safe m → (Panics m s ↔ False) := fun h =>
    iff_of_false (h.not_panics s) id
  have himm : ∀ immLen {fetch : Exec (BitVec 64)}, Quiet fetch →
      Safe (imulLongImm p immLen fetch) := fun immLen _ hfetch =>
    (quiet_modrmLong p immLen).safe.bind fun _ => (quiet_opGet _ _ _).safe.bind fun _ =>
      hfetch.safe.bind fun _ _ => trivial
  cases insn with
  | imulImm => exact hsafe (himm _ (quiet_immZ _))
  | imulImm8 => exact hsafe (himm _ ((quiet_fetchLong 8).bind fun _ => quiet_pure _))
  | imulRm =>
    exact hsafe ((quiet_modrmLong p 0).safe.bind fun _ => quiet_getRegs.safe.bind fun _ =>
      (quiet_opGet _ _ _).safe.bind fun _ _ => trivial)
  | shift8 source => exact hsafe (safe_shiftInsn p source)
  | shift source => exact hsafe (safe_shiftInsn p source)
  | group3Byte =>
    refine (panics_group3Long_iff (.inl rfl) p s).trans ?_
    simp [LongOverflow]
  | group3 => exact panics_group3Long_iff p.isSize_osz p s
  | shld byCl => exact panics_doubleInsn_iff p true byCl s
  | shrd byCl => exact panics_doubleInsn_iff p false byCl s

end Panics

/-! ## Both modes -/

/-- The mode of the processor, with what the instruction has got from its prefixes. -/
inductive Mode where
  /-- 16 and 32 bits; the machine holds the sizes. -/
  | int (entryEip : BitVec 32)
  | long (p : Pfx)

/-- An instruction in a mode. -/
def exec : Mode → Insn → Exec StepOk
  | .int entryEip, insn => execInt checks entryEip insn
  | .long p, insn => execLong checks p insn

/-- The operands for which an instruction panics. -/
def Overflows (s : Machine) : Mode → Insn → Prop
  | .int _, insn => LeastDividend s insn
  | .long p, insn => LongOverflow checks p s insn

/-- An instruction that multiplies, divides, shifts or rotates panics exactly for these operands. -/
theorem panics_exec_iff (mode : Mode) (insn : Insn) (s : Machine) :
    Panics (exec checks mode insn) s ↔ Overflows checks s mode insn := by
  cases mode with
  | int entryEip => exact panics_execInt_iff entryEip insn s
  | long p => exact panics_execLong_iff p insn s

/-- A machine with memory full of `F9`, the ModR/M byte of `idiv ecx`, the least dividend and minus
one. -/
def divisionMachine : Machine where
  regs := {
    gp := fun r => if r = 2 then 0x80000000 else if r = 1 then 0xffffffff else 0
    eip := 0
    flags := ⟨false, false, false, false, false, false, false, false⟩
    gp64 := fun _ => 0
    rip := 0 }
  code16 := false
  opSize16 := false
  addrSize16 := false
  segOverride := none
  curDefaultSeg := .ds
  segBase := fun _ => 0
  mmu := ⟨fun _ => some ⟨true, true, true, fun _ => 0xf9⟩⟩

/-- `idiv ecx` with `edx:eax` the least number of 64 bits and `ecx` minus one panics, whether or not
overflow is checked. -/
theorem panics_idiv :
    Panics (exec false (.int 0) .group3) divisionMachine ∧
      Panics (exec true (.int 0) .group3) divisionMachine := by
  have hleast : LeastDividend divisionMachine .group3 :=
    ⟨⟨3, 7, 1⟩, .reg 1, _, rfl, rfl, by decide⟩
  exact ⟨(panics_execInt_iff 0 .group3 divisionMachine).2 hleast,
    (panics_execInt_iff 0 .group3 divisionMachine).2 hleast⟩

end Univdreams.Emulator
