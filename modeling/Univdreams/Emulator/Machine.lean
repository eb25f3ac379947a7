import Univdreams.Checked

/-!
# The emulated machine

The registers, the flags and the memory of the emulator: `src/emulator/emulator/regs.rs`,
`src/emulator/emulator/mmu.rs` and the fields of the processor of `isa_int.rs` that the integer
instructions use. The records that the emulator keeps for its user (coverage, watched addresses,
traces, counters) are left out; no instruction reads them.

Words are bit vectors of their width. The numbers of registers are bounded by their type, as the
masks of the source bound them.
-/

namespace Univdreams.Emulator

/-- `Trap`: why an instruction stops. -/
inductive Trap where
  | memoryFault (addr : BitVec 32)
  | readProtectFault (addr : BitVec 32)
  | writeProtectFault (addr : BitVec 32)
  | executeProtectFault (addr : BitVec 32)
  | undefinedOpcode (eip : BitVec 32) (opcode : ℕ)
  | divideByZero (eip : BitVec 32)
  deriving DecidableEq, Repr

/-- `StepOk`. -/
inductive StepOk where
  | continued
  | halted
  deriving DecidableEq, Repr

/-! ## Registers -/

/-- `Flags`. -/
structure Flags where
  cf : Bool
  pf : Bool
  af : Bool
  zf : Bool
  sf : Bool
  df : Bool
  of : Bool
  id : Bool
  deriving DecidableEq, Repr

/-- `parity8`: whether a byte has an even number of bits. -/
def parity8 (b : BitVec 8) : Bool :=
  let x := b ^^^ (b >>> 4)
  let x := x ^^^ (x >>> 2)
  let x := x ^^^ (x >>> 1)
  x &&& 1 == 0

/-- `set_szp_8`, `set_szp_16`, `set_szp_32` and `set_szp_64`. -/
def Flags.setSzp {w : ℕ} (flags : Flags) (result : BitVec w) : Flags :=
  { flags with zf := result == 0, sf := result.msb, pf := parity8 (result.setWidth 8) }

/-- `Regs`. -/
structure Regs where
  gp : Fin 8 → BitVec 32
  eip : BitVec 32
  flags : Flags
  gp64 : Fin 16 → BitVec 64
  rip : BitVec 64

namespace Regs

variable (regs : Regs)

/-- `get32` and `get16`: the low `w` bits of a register. -/
def getLow (w : ℕ) (r : Fin 8) : BitVec w := (regs.gp r).setWidth w

/-- `set32` and `set16`: the bits above the low `w` are kept. -/
def setLow (w : ℕ) (r : Fin 8) (v : BitVec w) : Regs :=
  { regs with gp := Function.update regs.gp r ((regs.gp r >>> w) <<< w ||| v.setWidth 32) }

/-- The register that holds a byte register, and whether it is the second byte. -/
def byteOf (r : Fin 8) : Fin 8 × Bool := if r < 4 then (r, false) else (r - 4, true)

/-- `get8`. -/
def get8 (r : Fin 8) : BitVec 8 :=
  if (byteOf r).2 then (regs.gp (byteOf r).1 >>> 8).setWidth 8
    else (regs.gp (byteOf r).1).setWidth 8

/-- `set8`. -/
def set8 (r : Fin 8) (v : BitVec 8) : Regs :=
  let host := (byteOf r).1
  let word := if (byteOf r).2 then (regs.gp host &&& 0xffff00ff) ||| (v.setWidth 32 <<< 8)
    else (regs.gp host &&& 0xffffff00) ||| v.setWidth 32
  { regs with gp := Function.update regs.gp host word }

end Regs

/-! ## Memory -/

/-- A page of memory with its permissions. -/
structure Page where
  readable : Bool
  writable : Bool
  executable : Bool
  bytes : BitVec 12 → UInt8

/-- `Mmu`: the page table. An address is a page and an offset in it. -/
structure Mmu where
  pages : BitVec 20 → Option Page

namespace Mmu

variable (mmu : Mmu) (addr : BitVec 32)

/-- The page of an address. -/
def pageOf : BitVec 20 := addr.extractLsb' 12 20

/-- The offset of an address in its page. -/
def offsetOf : BitVec 12 := addr.extractLsb' 0 12

/-- `fetch_byte`. -/
def fetchByte : Except Trap UInt8 :=
  match mmu.pages (pageOf addr) with
  | none => .error (.memoryFault addr)
  | some page =>
    if page.readable then .ok (page.bytes (offsetOf addr)) else .error (.readProtectFault addr)

/-- `fetch_x8`. -/
def fetchX8 : Except Trap UInt8 :=
  match mmu.pages (pageOf addr) with
  | none => .error (.memoryFault addr)
  | some page =>
    if page.executable then .ok (page.bytes (offsetOf addr)) else .error (.executeProtectFault addr)

/-- `put_byte`. -/
def putByte (value : UInt8) : Except Trap Mmu :=
  match mmu.pages (pageOf addr) with
  | none => .error (.memoryFault addr)
  | some page =>
    if page.writable then
      .ok ⟨Function.update mmu.pages (pageOf addr)
        (some { page with bytes := Function.update page.bytes (offsetOf addr) value })⟩
    else .error (.writeProtectFault addr)

/-- The bytes from an address on, read one by one with `fetch`. -/
def readBytes (fetch : BitVec 32 → Except Trap UInt8) : ℕ → BitVec 32 → Except Trap Bytes
  | 0, _ => .ok []
  | n + 1, addr => do
    let b ← fetch addr
    let rest ← readBytes fetch n (addr + 1)
    return b :: rest

/-- `load8`, `load16`, `load32` and `load64`. -/
def load (w : ℕ) (addr : BitVec 32) : Except Trap (BitVec w) := do
  let bytes ← readBytes mmu.fetchByte (w / 8) addr
  return BitVec.ofNat w (ofLe bytes)

/-- The bytes behind the first, up to one that cannot be fetched. -/
def peekRest (mmu : Mmu) : ℕ → BitVec 32 → Bytes
  | 0, _ => []
  | n + 1, addr => match mmu.fetchX8 addr with
    | .ok b => b :: peekRest mmu n (addr + 1)
    | .error _ => []

/-- `peek_after_modrm`, for 16 bytes. -/
def peek (eip : BitVec 32) : Except Trap Bytes := do
  let b ← mmu.fetchX8 eip
  return b :: mmu.peekRest 15 (eip + 1)

end Mmu

/-! ## The processor -/

/-- `Seg`. -/
inductive Seg where
  | es
  | cs
  | ss
  | ds
  | fs
  | gs
  deriving DecidableEq, Repr

/-- The processor with its memory, and the state of the prefixes of the current instruction. -/
structure Machine where
  regs : Regs
  /-- Whether the default sizes are those of 16-bit code. -/
  code16 : Bool
  opSize16 : Bool
  addrSize16 : Bool
  segOverride : Option Seg
  curDefaultSeg : Seg
  segBase : Seg → BitVec 32
  mmu : Mmu

/-- A program of the machine. -/
abbrev Exec := Prog Trap Machine

namespace Machine

/-- `op_size_16`: the effective size of operands. -/
def effOpSize16 (m : Machine) : Bool := xor m.opSize16 m.code16

/-- `addr16`: the effective size of addresses. -/
def addr16 (m : Machine) : Bool := xor m.addrSize16 m.code16

/-- `seg_translate`. -/
def segTranslate (m : Machine) (ea : BitVec 32) : BitVec 32 :=
  ea + m.segBase (m.segOverride.getD m.curDefaultSeg)

end Machine

open Prog

/-- The registers. -/
def getRegs : Exec Regs := do return (← get).regs

/-- Change the registers. -/
def modifyRegs (f : Regs → Regs) : Exec Unit := modify fun m => { m with regs := f m.regs }

/-- Change the flags. -/
def modifyFlags (f : Flags → Flags) : Exec Unit :=
  modifyRegs fun regs => { regs with flags := f regs.flags }

/-- A read of the memory. -/
def readMem {α : Type} (f : Mmu → Except Trap α) : Exec α := do
  let m ← get
  ofExcept (f m.mmu)

/-- `store8`, `store16`, `store32` and `store64`: what was written before a fault stays. -/
def storeBytes : Bytes → BitVec 32 → Exec Unit
  | [], _ => pure ()
  | b :: bytes, addr => do
    let mmu ← readMem fun mmu => mmu.putByte addr b
    modify fun m => { m with mmu := mmu }
    storeBytes bytes (addr + 1)

/-- A store of a word of `w` bits. -/
def store (w : ℕ) (addr : BitVec 32) (v : BitVec w) : Exec Unit :=
  storeBytes (toLe (w / 8) v.toNat) addr

/-! ## Rules -/

section Rules

variable {s : Machine}

@[simp] theorem wp_getRegs (Q : Regs → Machine → Prop) : Wp getRegs s Q ↔ Q s.regs s := Iff.rfl

@[simp] theorem wp_modifyRegs (f : Regs → Regs) (Q : Unit → Machine → Prop) :
    Wp (modifyRegs f) s Q ↔ Q () { s with regs := f s.regs } := Iff.rfl

@[simp] theorem wp_modifyFlags (f : Flags → Flags) (Q : Unit → Machine → Prop) :
    Wp (modifyFlags f) s Q ↔ Q () { s with regs := { s.regs with flags := f s.regs.flags } } :=
      Iff.rfl

@[simp] theorem wp_readMem {α : Type} (f : Mmu → Except Trap α) (Q : α → Machine → Prop) :
    Wp (readMem f) s Q ↔ ∀ a, f s.mmu = .ok a → Q a s := by
  rw [readMem, wp_bind, wp_get, wp_ofExcept]

theorem panics_getRegs_bind {α : Type} {f : Regs → Exec α} :
    Panics (getRegs >>= f) s ↔ Panics (f s.regs) s := Iff.rfl

/-- A store changes the memory only. -/
theorem wp_storeBytes {Q : Unit → Machine → Prop} (bytes : Bytes) :
    ∀ {s : Machine} (addr : BitVec 32), (∀ mmu, Q () { s with mmu := mmu }) →
      Wp (storeBytes bytes addr) s Q := by
  induction bytes with
  | nil => exact fun {s} addr h => h s.mmu
  | cons b bytes ih =>
    intro s addr h
    rw [storeBytes, wp_bind, wp_readMem]
    intro mmu _
    rw [wp_bind, wp_modify]
    exact ih (addr + 1) h

theorem wp_store {Q : Unit → Machine → Prop} {w : ℕ} (addr : BitVec 32) (v : BitVec w)
    (h : ∀ mmu, Q () { s with mmu := mmu }) : Wp (store w addr v) s Q :=
  wp_storeBytes _ addr h

end Rules

end Univdreams.Emulator
