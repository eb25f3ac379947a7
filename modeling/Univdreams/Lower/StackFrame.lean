import Univdreams.Lower.Function

/-!
# Generated prologues and epilogues on the machine

What the bytes of `default_prologue` and `default_epilogue` of `src/arch/x86/prologue_codec.rs` do
when a processor executes them. They are decoded and executed on a machine with registers and
memory. Between them stands any body that leaves the stack pointer, the frame pointer and the bytes
at and above the stack pointer as it found them.

With a frame the registers are saved below the locals, and the epilogue undoes the prologue in the
opposite order. Without a frame they are saved above the locals, but the epilogue still pops them
before it releases the locals, so it pops locals. In 64-bit code the reserved size is an immediate
that the processor sign-extends, so that from `2 ^ 31` on the prologue releases stack instead.
-/

namespace Univdreams.Lower.StackFrame

open Univdreams.Arch.X86 List Option Function

variable {n : ℕ}

/-! ## The machine -/

/-- The bits of a machine word. -/
def width : CodecBits → ℕ
  | .bits32 => 32
  | .bits64 => 64

/-- The bytes of a machine word. -/
def wordBytes : CodecBits → ℕ
  | .bits32 => 4
  | .bits64 => 8

/-- A value of a register and an address. -/
abbrev Word (bits : CodecBits) := BitVec (width bits)

/-- The size of a machine word, as an offset. -/
def word (bits : CodecBits) : Word bits := BitVec.ofNat _ (wordBytes bits)

/-- A general register, by its number in the encodings: 4 is the stack pointer, and 5 the frame
pointer. -/
abbrev Reg := Fin 16

/-- Registers and memory. -/
structure Machine (bits : CodecBits) where
  reg : Reg → Word bits
  mem : Word bits → UInt8

variable {bits : CodecBits}

/-- The stack pointer. -/
def Machine.sp (m : Machine bits) : Word bits := m.reg 4

/-- The frame pointer. -/
def Machine.bp (m : Machine bits) : Word bits := m.reg 5

/-- The machine with another value in a register. -/
def Machine.setReg (m : Machine bits) (r : Reg) (v : Word bits) : Machine bits :=
  { m with reg := Function.update m.reg r v }

/-- The word at an address, least significant byte first. -/
def load (mem : Word bits → UInt8) (a : Word bits) : Word bits :=
  BitVec.ofNat _ (ofLe ((List.range (wordBytes bits)).map fun i => mem (a + BitVec.ofNat _ i)))

/-- The memory with another word at an address. -/
def store (mem : Word bits → UInt8) (a v : Word bits) : Word bits → UInt8 := fun x =>
  if (x - a).toNat < wordBytes bits then (toLe (wordBytes bits) v.toNat).getD (x - a).toNat 0
  else mem x

/-- The instructions of prologues and epilogues. `addSp` also stands for the subtraction. -/
inductive Instr where
  | endbr
  | push (r : Reg)
  | pop (r : Reg)
  | movBpSp
  | addSp (delta : ℤ)
  | leave
  | ret
  deriving DecidableEq, Repr

variable {is : List Instr} {r : Reg} {rs : List Reg}

/-- The pop of a register. The stack pointer moves first, so that popping it leaves the popped
value. -/
def Machine.pop (m : Machine bits) (r : Reg) : Machine bits :=
  (m.setReg 4 (m.sp + word bits)).setReg r (load m.mem m.sp)

/-- The push of a register. A push of the stack pointer stores its value before the push. -/
def Machine.push (m : Machine bits) (r : Reg) : Machine bits :=
  { m.setReg 4 (m.sp - word bits) with mem := store m.mem (m.sp - word bits) (m.reg r) }

/-- One instruction. What a return does is not part of the model. -/
def Machine.exec (m : Machine bits) : Instr → Machine bits
  | .endbr => m
  | .push r => m.push r
  | .pop r => m.pop r
  | .movBpSp => m.setReg 5 m.sp
  | .addSp delta => m.setReg 4 (m.sp + BitVec.ofInt _ delta)
  | .leave => (m.setReg 4 m.bp).pop 5
  | .ret => m

/-- Instructions in order. -/
def Machine.execAll (m : Machine bits) (is : List Instr) : Machine bits :=
  is.foldl Machine.exec m

/-! ## Decoding -/

/-- The instruction of an opcode that holds a register, for the registers from `base` on. -/
def decodeReg (base : ℕ) (b : UInt8) : Option Instr :=
  if b.toNat / 8 = 10 then some (.push (Fin.ofNat 16 (base + b.toNat % 8)))
  else if b.toNat / 8 = 11 then some (.pop (Fin.ofNat 16 (base + b.toNat % 8)))
  else none

/-- `83 /5 ib`, `81 /5 id`, `83 /0 ib` and `81 /0 id` on the stack pointer, in 64-bit code with REX.
The immediates are sign-extended. -/
def decodeAdjust (bits : CodecBits) (bytes : Bytes) : Option (Instr × ℕ) :=
  let rex := if bits = .bits64 then 1 else 0
  if bits = .bits64 ∧ bytes.head? ≠ some 0x48 then none
  else
    match bytes.drop rex with
    | op :: modrm :: imm =>
      let sign : ℤ := if modrm = 0xec then -1 else 1
      if modrm ≠ 0xec ∧ modrm ≠ 0xc4 then none
      else if op = 0x83 ∧ 1 ≤ imm.length then
        some (.addSp (sign * (ofLe (imm.take 1) : ℤ).bmod (2 ^ 8)), rex + 3)
      else if op = 0x81 ∧ 4 ≤ imm.length then
        some (.addSp (sign * (ofLe (imm.take 4) : ℤ).bmod (2 ^ 32)), rex + 6)
      else none
    | _ => none

/-- The first instruction of a text, and its length. -/
def decodeOne (bits : CodecBits) : Bytes → Option (Instr × ℕ)
  | [] => none
  | b :: rest =>
    if b = 0xc3 ∨ b = 0xc2 then some (.ret, 1)
    else if b.toNat / 8 = 10 ∨ b.toNat / 8 = 11 then (decodeReg 0 b).map fun i => (i, 1)
    else if b = 0xc9 then some (.leave, 1)
    else if bits = .bits64 ∧ b = 0x41 then
      (rest.head?.bind (decodeReg 8)).map fun i => (i, 2)
    else if (endbr bits).isPrefixOf (b :: rest) then some (.endbr, 4)
    else if (movBpSp bits false).isPrefixOf (b :: rest) ∨
        (movBpSp bits true).isPrefixOf (b :: rest) then
      some (.movBpSp, (movBpSp bits false).length)
    else decodeAdjust bits (b :: rest)

/-- At most `fuel` instructions, up to the end of the text or a return. -/
def decodeFuel (bits : CodecBits) : ℕ → Bytes → Option (List Instr)
  | 0, bytes => if bytes = [] then some [] else none
  | fuel + 1, bytes =>
    if bytes = [] then some []
    else do
      let (i, len) ← decodeOne bits bytes
      if i = .ret then return []
      let is ← decodeFuel bits fuel (bytes.drop len)
      return i :: is

/-- The instructions of a text up to its end or a return. Each of them has at least one byte. -/
def decode (bits : CodecBits) (bytes : Bytes) : Option (List Instr) :=
  decodeFuel bits bytes.length bytes

/-- The machine after a text up to its end or a return. -/
def Machine.run (m : Machine bits) (bytes : Bytes) : Option (Machine bits) :=
  (decode bits bytes).map m.execAll

/-! ## What the encoders encode -/

/-- The register of a name. -/
def regOf (name : Text) : Option Reg :=
  (encodeIndexOf name).map fun (idx, rex) => Fin.ofNat 16 ((if rex then 8 else 0) + idx.toNat)

/-- The registers of names; names of no register are encoded to nothing. -/
def regsOf (names : List Text) : List Reg := names.filterMap regOf

/-- The move of the stack pointer by a size that stands in a 32-bit immediate. -/
def adjustBy (sign : ℤ) (n : ℕ) : List Instr :=
  if 0 < n then [.addSp (sign * (n : ℤ).bmod (2 ^ 32))] else []

/-- The instructions of a prologue. -/
def prologueInstrs (p : StructuredPrologue) : List Instr :=
  (if p.cf_protect then [.endbr] else []) ++ (regsOf p.saves).map .push ++
    (if p.frame then [.push 5, .movBpSp] else []) ++ adjustBy (-1) p.sub_esp ++
    (regsOf p.saves_after).map .push

/-- The instructions of an epilogue in front of its return. -/
def epilogueInstrs (e : StructuredEpilogue) : List Instr :=
  (regsOf e.saves).map .pop ++ adjustBy 1 e.add_esp ++
    (if e.leave then [.leave] else if e.pop_frame then [.pop 5] else [])

/-- More instructions than there are do not change what is decoded. -/
theorem decodeFuel_succ {fuel : ℕ} {bytes : Bytes}
    (h : decodeFuel bits fuel bytes = some is) : decodeFuel bits (fuel + 1) bytes = some is := by
  induction fuel generalizing bytes is with
  | zero =>
    have hb : bytes = [] := by
      by_contra hb
      simp [decodeFuel, hb] at h
    subst hb
    exact h
  | succ fuel ih =>
    rw [decodeFuel] at h ⊢
    by_cases hb : bytes = []
    · rw [if_pos hb] at h ⊢
      exact h
    rw [if_neg hb] at h ⊢
    obtain ⟨⟨i, len⟩, h1, h2⟩ := bind_eq_some_iff.1 h
    refine bind_eq_some_iff.2 ⟨⟨i, len⟩, h1, ?_⟩
    by_cases hi : i = .ret
    · simpa [hi] using h2
    simp only [if_neg hi] at h2 ⊢
    obtain ⟨js, h3, h4⟩ := bind_eq_some_iff.1 h2
    exact bind_eq_some_iff.2 ⟨js, ih h3, h4⟩

/-- Some number of instructions is enough for a text. -/
theorem decode_eq_of_fuel {fuel : ℕ} {bytes : Bytes} (h : decodeFuel bits fuel bytes = some is)
    (hf : fuel ≤ bytes.length) : decode bits bytes = some is := by
  rw [decode]
  exact Nat.le_induction h (fun _ _ => decodeFuel_succ) _ hf

/-- A piece of text that stands for a list of instructions, whatever follows it. -/
def Encodes (bits : CodecBits) (piece : Bytes) (is : List Instr) : Prop :=
  is.length ≤ piece.length ∧ ∀ fuel rest js, decodeFuel bits fuel rest = some js →
    decodeFuel bits (fuel + is.length) (piece ++ rest) = some (is ++ js)

theorem Encodes.nil : Encodes bits [] [] := ⟨le_refl _, fun _ _ _ h => h⟩

/-- Pieces one after the other. -/
theorem Encodes.append {a b : Bytes} {is js : List Instr} (ha : Encodes bits a is)
    (hb : Encodes bits b js) : Encodes bits (a ++ b) (is ++ js) := by
  refine ⟨by simpa using Nat.add_le_add ha.1 hb.1, fun fuel rest ks h => ?_⟩
  have hfuel : fuel + (is ++ js).length = fuel + js.length + is.length := by
    rw [length_append]
    omega
  rw [hfuel, append_assoc, append_assoc]
  exact ha.2 _ _ _ (hb.2 _ _ _ h)

/-- A piece that may be left out. -/
theorem Encodes.ite {c : Prop} [Decidable c] {a : Bytes} (h : c → Encodes bits a is) :
    Encodes bits (if c then a else []) (if c then is else []) := by
  split_ifs with hc
  · exact h hc
  · exact .nil

/-- The piece of one instruction. -/
theorem Encodes.one {piece : Bytes} {i : Instr} (hp : piece ≠ []) (hi : i ≠ .ret)
    (h : ∀ rest, decodeOne bits (piece ++ rest) = some (i, piece.length)) :
    Encodes bits piece [i] := by
  refine ⟨?_, fun fuel rest js hjs => ?_⟩
  · exact length_pos_of_ne_nil hp
  have hne : piece ++ rest ≠ [] := by simp [hp]
  rw [length_singleton, decodeFuel, if_neg hne, h]
  simp [hi, hjs]

/-- A text that ends, and one that goes on with a return. -/
theorem decode_of_encodes {piece : Bytes} (h : Encodes bits piece is) :
    decode bits piece = some is := by
  have h0 := h.2 0 [] [] rfl
  rw [append_nil, append_nil, Nat.zero_add] at h0
  exact decode_eq_of_fuel h0 h.1

theorem decode_ret_of_encodes {piece : Bytes} (h : Encodes bits piece is) {b : UInt8}
    (hb : b = 0xc3 ∨ b = 0xc2) (rest : Bytes) : decode bits (piece ++ b :: rest) = some is := by
  have h1 : decodeFuel bits 1 (b :: rest) = some [] := by
    simp [decodeFuel, decodeOne, hb]
  have h2 := h.2 1 (b :: rest) [] h1
  rw [append_nil] at h2
  refine decode_eq_of_fuel h2 ?_
  have := h.1
  rw [length_append, length_cons]
  omega

/-- A test of a chain of tests, each of which gives an entry of a table. -/
theorem of_entry {α : Type} {c : Prop} [Decidable c] {P : α → Prop} {a : α} {o : Option α}
    (ha : P a) (ho : ∀ b, o = some b → P b) : ∀ b, (if c then some a else o) = some b → P b := by
  intro b hb
  by_cases hc : c
  · rw [if_pos hc, Option.some.injEq] at hb
    exact hb ▸ ha
  · rw [if_neg hc] at hb
    exact ho b hb

theorem encodeIndexOf_lt {name : Text} {idx : UInt8} {rex : Bool}
    (h : encodeIndexOf name = some (idx, rex)) : idx.toNat < 8 := by
  have hall : ∀ e, encodeIndexOf name = some e → e.1.toNat < 8 := by
    iterate 16 refine of_entry (by decide) ?_
    exact fun b hb => absurd hb (by simp)
  exact hall _ h

/-- The opcodes that hold a register: those of `push` and of `pop`. -/
def RegOpcode (opcode : UInt8) (i : Reg → Instr) : Prop :=
  opcode = 0x50 ∧ i = .push ∨ opcode = 0x58 ∧ i = .pop

/-- An opcode with a register in it is decoded to the instruction on that register. -/
theorem decodeReg_opcode {opcode idx : UInt8} {i : Reg → Instr} (hop : RegOpcode opcode i)
    (base : ℕ)
    (h : idx.toNat < 8) :
    decodeReg base (opcode + idx) = some (i (Fin.ofNat 16 (base + idx.toNat))) := by
  have hsum : opcode.toNat < 248 → (opcode + idx).toNat = opcode.toNat + idx.toNat := fun hlt => by
    rw [UInt8.toNat_add]
    exact Nat.mod_eq_of_lt (by omega)
  obtain ⟨rfl, rfl⟩ | ⟨rfl, rfl⟩ := hop
  · rw [decodeReg, hsum (by decide), if_pos (by simp; omega)]
    congr 4
    simp
    omega
  rw [decodeReg, hsum (by decide), if_neg (by simp; omega), if_pos (by simp; omega)]
  congr 4
  simp
  omega

/-- A register opcode is decoded as one, with and without the REX prefix. -/
theorem decodeOne_reg {b : UInt8} {i : Instr} (h : decodeReg 0 b = some i) (rest : Bytes) :
    decodeOne bits (b :: rest) = some (i, 1) := by
  have hb : b.toNat / 8 = 10 ∨ b.toNat / 8 = 11 := by
    unfold decodeReg at h
    split_ifs at h with h1 h2
    · exact .inl h1
    · exact .inr h2
  have hret : ¬(b = 0xc3 ∨ b = 0xc2) := by
    rintro (rfl | rfl) <;> exact absurd hb (by decide)
  simp [decodeOne, hret, hb, h]

theorem decodeOne_rex {b : UInt8} {i : Instr} (h : decodeReg 8 b = some i) (rest : Bytes) :
    decodeOne .bits64 (0x41 :: b :: rest) = some (i, 2) := by
  simp [decodeOne, h]

/-- The push or the pop of a named register. -/
theorem encodes_regEncoded {opcode : UInt8} {i : Reg → Instr} (hop : RegOpcode opcode i)
    {name : Text}
    {piece : Bytes} (h : regEncoded opcode bits name = some piece) :
    Encodes bits piece ((regsOf [name]).map i) := by
  unfold regEncoded at h
  cases hidx : encodeIndexOf name with
  | none =>
    obtain rfl : [] = piece := by simpa [hidx] using h
    simpa [regsOf, regOf, hidx] using Encodes.nil
  | some entry =>
    obtain ⟨idx, rex⟩ := entry
    have hlt := encodeIndexOf_lt hidx
    have hret : ∀ r, i r ≠ .ret := by obtain ⟨-, rfl⟩ | ⟨-, rfl⟩ := hop <;> simp
    simp only [regsOf, regOf, hidx, filterMap_cons, filterMap_nil, map_some, map_cons, map_nil]
    cases rex with
    | false =>
      obtain rfl : [opcode + idx] = piece := by simpa [hidx] using h
      exact .one (by simp) (hret _) (decodeOne_reg (decodeReg_opcode hop 0 hlt))
    | true =>
      simp only [hidx] at h
      split_ifs at h with hbits
      subst hbits
      obtain rfl := Option.some.inj h
      exact .one (by simp) (hret _) (decodeOne_rex (decodeReg_opcode hop 8 hlt))

/-- The names that can be encoded: the registers `r8` to `r15` exist in 64-bit code only. -/
def Nameable (bits : CodecBits) (name : Text) : Prop :=
  ∀ idx, encodeIndexOf name = some (idx, true) → bits = .bits64

theorem regEncoded_isSome_iff {opcode : UInt8} {name : Text} :
    (regEncoded opcode bits name).isSome ↔ Nameable bits name := by
  unfold regEncoded Nameable
  cases encodeIndexOf name with
  | none => simp
  | some entry =>
    obtain ⟨idx, rex⟩ := entry
    cases rex with
    | false => simp
    | true =>
      by_cases hb : bits = .bits64 <;> simp [hb]

/-- The pieces of a list of names. -/
theorem encodes_names {i : Reg → Instr} {encode : Text → Option Bytes}
    (h : ∀ name piece, encode name = some piece → Encodes bits piece ((regsOf [name]).map i)) :
    ∀ {names : List Text} {pieces : List Bytes}, names.mapM encode = some pieces →
      Encodes bits pieces.flatten ((regsOf names).map i)
  | [], pieces, hm => by
    have hp : pieces = [] := by simpa using hm.symm
    rw [hp]
    exact .nil
  | name :: names, pieces, hm => by
    rw [mapM_cons] at hm
    obtain ⟨piece, h1, hm⟩ := bind_eq_some_iff.1 hm
    obtain ⟨rest, h2, hm⟩ := bind_eq_some_iff.1 hm
    have hp : pieces = piece :: rest := by simpa using hm.symm
    have hr : (regsOf (name :: names)).map i
        = (regsOf [name]).map i ++ (regsOf names).map i := by
      rw [← map_append, regsOf, regsOf, regsOf, ← filterMap_append]
      rfl
    rw [hp, flatten_cons, hr]
    exact (h name piece h1).append (encodes_names h h2)

theorem encodes_endbr : Encodes bits (endbr bits) [.endbr] := by
  cases bits with
  | bits32 | bits64 => exact .one (by decide) (by decide) fun rest => by simp [endbr, decodeOne]

theorem encodes_movBpSp (alt : Bool) : Encodes bits (movBpSp bits alt) [.movBpSp] := by
  cases bits <;> cases alt <;>
    exact .one (by decide) (by decide) fun rest => by simp [movBpSp, endbr, decodeOne]

/-- A move of the stack pointer. An immediate of one byte is not negative. -/
theorem encodes_adjustEsp {modrm : UInt8} {sign : ℤ}
    (hm : modrm = 0xec ∧ sign = -1 ∨ modrm = 0xc4 ∧ sign = 1) (n : ℕ) :
    Encodes bits (adjustEsp modrm n bits) [.addSp (sign * (n : ℤ).bmod (2 ^ 32))] := by
  have hsign : (if modrm = 0xec then -1 else 1 : ℤ) = sign := by
    obtain ⟨rfl, rfl⟩ | ⟨rfl, rfl⟩ := hm <;> rfl
  have hmodrm : ¬(modrm ≠ 0xec ∧ modrm ≠ 0xc4) := by
    obtain ⟨rfl, -⟩ | ⟨rfl, -⟩ := hm <;> decide
  refine .one ?_ (by simp) fun rest => ?_
  · unfold adjustEsp
    split_ifs <;> simp
  -- An immediate of one byte has a clear sign bit; four bytes hold the size modulo `2 ^ 32`.
  have h8 : n < 0x80 → (ofLe [UInt8.ofNat n] : ℤ).bmod 256 = (n : ℤ).bmod 4294967296 := by
    intro hn
    have hle : ofLe [UInt8.ofNat n] = n := by
      simp only [ofLe, UInt8.toNat_ofNat']
      omega
    rw [hle, Int.bmod_eq_of_le (by omega) (by omega), Int.bmod_eq_of_le (by omega) (by omega)]
  have h32 : (ofLe (toLe 4 n) : ℤ).bmod 4294967296 = (n : ℤ).bmod 4294967296 := by
    have hle : ofLe (toLe 4 n) = n % 4294967296 := ofLe_toLe 4 n
    rw [hle, Int.natCast_mod]
    exact Int.emod_bmod _ _
  unfold adjustEsp
  by_cases hn : n < 0x80
  · cases bits <;>
      simp [decodeOne, endbr, movBpSp, decodeAdjust, hn, hmodrm, hsign, h8 hn]
  · cases bits <;>
      simp [decodeOne, endbr, movBpSp, decodeAdjust, hn, hmodrm, hsign, h32]

/-- The bytes of a prologue are decoded as its instructions. -/
theorem decode_encodePrologue {p : StructuredPrologue} {bytes : Bytes}
    (h : encodePrologue p bits = some bytes) : decode bits bytes = some (prologueInstrs p) := by
  obtain ⟨saves, after, h1, h2, rfl⟩ := steps₂_eq_some.1 h
  have hpush : ∀ name piece, pushRegEncoded bits name = some piece →
      Encodes bits piece ((regsOf [name]).map .push) := fun _ _ =>
    encodes_regEncoded (.inl ⟨rfl, rfl⟩)
  have hframe : Encodes bits (0x55 :: movBpSp bits p.frame_alt_encoding) [.push 5, .movBpSp] := by
    have h55 : Encodes bits [0x55] [.push 5] := .one (by simp) (by simp) (decodeOne_reg (by decide))
    exact h55.append (encodes_movBpSp _)
  refine decode_of_encodes ?_
  refine Encodes.append (Encodes.append (Encodes.append (Encodes.append ?_ ?_) ?_) ?_) ?_
  · exact .ite fun _ => encodes_endbr
  · exact encodes_names hpush h1
  · exact .ite fun _ => hframe
  · exact .ite fun _ => encodes_adjustEsp (.inl ⟨rfl, rfl⟩) _
  · exact encodes_names hpush h2

/-- The bytes of an epilogue are decoded as its instructions up to its return. -/
theorem decode_encodeEpilogue {e : StructuredEpilogue} {bytes : Bytes}
    (h : encodeEpilogue e bits = some bytes) : decode bits bytes = some (epilogueInstrs e) := by
  obtain ⟨saves, h1, rfl⟩ := steps₁_eq_some.1 h
  have hpop : ∀ name piece, popRegEncoded bits name = some piece →
      Encodes bits piece ((regsOf [name]).map .pop) := fun _ _ =>
    encodes_regEncoded (.inr ⟨rfl, rfl⟩)
  have hframe : Encodes bits (if e.leave then [0xc9] else if e.pop_frame then [0x5d] else [])
      (if e.leave then [.leave] else if e.pop_frame then [.pop 5] else []) := by
    split_ifs
    · exact .one (by simp) (by simp) fun rest => by simp [decodeOne]
    · exact .one (by simp) (by simp) (decodeOne_reg (by decide))
    · exact .nil
  have hadd : Encodes bits (if 0 < e.add_esp then encodeAddEsp e.add_esp bits else [])
      (adjustBy 1 e.add_esp) := .ite fun _ => encodes_adjustEsp (.inr ⟨rfl, rfl⟩) e.add_esp
  have hbody := ((encodes_names hpop h1).append hadd).append hframe
  by_cases hret : e.ret_imm = 0
  · rw [if_pos hret]
    exact decode_ret_of_encodes hbody (.inl rfl) []
  · rw [if_neg hret]
    exact decode_ret_of_encodes hbody (.inr rfl) _

/-! ## Words on the stack -/

section Registers

variable (m : Machine bits)

@[simp] theorem Machine.setReg_mem (r : Reg) (v : Word bits) :
    (m.setReg r v).mem = m.mem := rfl

@[simp] theorem Machine.setReg_same (r : Reg) (v : Word bits) :
    (m.setReg r v).reg r = v := Function.update_self ..

theorem Machine.setReg_of_ne {r q : Reg} (h : q ≠ r) (v : Word bits) :
    (m.setReg r v).reg q = m.reg q := Function.update_of_ne h ..

theorem Machine.push_sp (r : Reg) : (m.push r).sp = m.sp - word bits :=
  m.setReg_same 4 _

theorem Machine.push_reg (r : Reg) {q : Reg} (h : q ≠ 4) :
    (m.push r).reg q = m.reg q := Function.update_of_ne h ..

@[simp] theorem Machine.pop_same (r : Reg) :
    (m.pop r).reg r = load m.mem m.sp := Function.update_self ..

theorem Machine.pop_sp (h : r ≠ 4) : (m.pop r).sp = m.sp + word bits := by
  rw [sp, pop, setReg_of_ne _ h.symm, setReg_same]

theorem Machine.pop_of_ne {r q : Reg} (h : q ≠ r) (h4 : q ≠ 4) : (m.pop r).reg q = m.reg q := by
  rw [pop, setReg_of_ne _ h, setReg_of_ne _ h4]

end Registers

theorem toNat_word : (word bits).toNat = wordBytes bits := by
  cases bits <;> rfl

theorem toNat_sub_word {a : Word bits} (h : wordBytes bits ≤ a.toNat) :
    (a - word bits).toNat = a.toNat - wordBytes bits := by
  rw [BitVec.toNat_sub_of_le, toNat_word]
  rwa [BitVec.le_def, toNat_word]

theorem Machine.toNat_push_sp {m : Machine bits} (q : Reg) (h : wordBytes bits ≤ m.sp.toNat) :
    (m.push q).sp.toNat = m.sp.toNat - wordBytes bits := by
  rw [push_sp, toNat_sub_word h]

/-- An offset inside of a word. -/
theorem toNat_offset {i : ℕ} (h : i < wordBytes bits) :
    (BitVec.ofNat (width bits) i).toNat = i := by
  rw [BitVec.toNat_ofNat]
  refine Nat.mod_eq_of_lt (lt_trans h ?_)
  cases bits <;> decide

theorem load_congr {mem mem' : Word bits → UInt8} {a : Word bits}
    (h : ∀ i < wordBytes bits, mem (a + BitVec.ofNat _ i) = mem' (a + BitVec.ofNat _ i)) :
    load mem a = load mem' a := by
  unfold load
  congr 2
  exact map_congr_left fun i hi => h i (mem_range.1 hi)

/-- A word that was stored is loaded again. -/
theorem load_store (mem : Word bits → UInt8) (a v : Word bits) : load (store mem a v) a = v := by
  have hbytes : (List.range (wordBytes bits)).map
      (fun i => store mem a v (a + BitVec.ofNat _ i)) = toLe (wordBytes bits) v.toNat := by
    refine ext_getElem (by simp) fun i hi hi' => ?_
    have hlt : i < wordBytes bits := by simpa using hi
    have hoff : (a + BitVec.ofNat (width bits) i - a).toNat = i := by
      rw [BitVec.add_comm, BitVec.add_sub_cancel, toNat_offset hlt]
    rw [getElem_map, getElem_range, store, hoff, if_pos hlt]
    exact (getElem_eq_getD 0).symm
  have hsize : (256 : ℕ) ^ wordBytes bits = 2 ^ width bits := by cases bits <;> rfl
  rw [load, hbytes, ofLe_toLe, hsize, Nat.mod_eq_of_lt v.isLt, BitVec.ofNat_toNat,
    BitVec.setWidth_eq]

/-- A store does not change the bytes above it. -/
theorem store_above {mem : Word bits → UInt8} {a v x : Word bits}
    (h : a.toNat + wordBytes bits ≤ x.toNat) : store mem a v x = mem x := by
  have hle : a ≤ x := by
    rw [BitVec.le_def]
    omega
  have hx : (x - a).toNat = x.toNat - a.toNat := BitVec.toNat_sub_of_le hle
  rw [store, if_neg (by omega)]

/-- A store that does not wrap around does not change the bytes below it. -/
theorem store_below {mem : Word bits → UInt8} {a v x : Word bits} (h : x.toNat < a.toNat)
    (hroom : a.toNat + wordBytes bits ≤ 2 ^ width bits) : store mem a v x = mem x := by
  have hx : (x - a).toNat = 2 ^ width bits - a.toNat + x.toNat := by
    rw [BitVec.toNat_sub, Nat.mod_eq_of_lt]
    have := a.isLt
    omega
  rw [store, if_neg (by omega)]

/-- A word that does not wrap around is loaded from the bytes at and above its address. -/
theorem load_congr_above {mem mem' : Word bits → UInt8} {a b : Word bits}
    (h : ∀ x, b ≤ x → mem x = mem' x) (hab : b ≤ a)
    (hroom : a.toNat + wordBytes bits ≤ 2 ^ width bits) : load mem a = load mem' a := by
  refine load_congr fun i hi => h _ ?_
  have ha : (a + BitVec.ofNat _ i).toNat = a.toNat + i := by
    rw [BitVec.toNat_add, toNat_offset hi, Nat.mod_eq_of_lt (by omega)]
  rw [BitVec.le_def] at hab ⊢
  omega

/-! ## Saving and restoring registers -/

/-- Pushes in order. -/
def Machine.pushAll (m : Machine bits) (rs : List Reg) : Machine bits := rs.foldl Machine.push m

/-- Pops in order. -/
def Machine.popAll (m : Machine bits) (rs : List Reg) : Machine bits := rs.foldl Machine.pop m

theorem Machine.execAll_append (m : Machine bits) (is js : List Instr) :
    m.execAll (is ++ js) = (m.execAll is).execAll js := foldl_append

theorem Machine.execAll_push (m : Machine bits) (rs : List Reg) :
    m.execAll (rs.map .push) = m.pushAll rs := foldl_map

theorem Machine.execAll_pop (m : Machine bits) (rs : List Reg) :
    m.execAll (rs.map .pop) = m.popAll rs := foldl_map

theorem Machine.pushAll_reg {r : Reg} (hr : r ≠ 4) :
    ∀ (m : Machine bits) (rs : List Reg), (m.pushAll rs).reg r = m.reg r
  | _, [] => rfl
  | m, q :: rs => ((m.push q).pushAll_reg hr rs).trans (m.push_reg q hr)

/-- Pushes move the stack pointer by a word each. -/
theorem Machine.pushAll_sub : ∀ (m : Machine bits) (rs : List Reg),
    (m.pushAll rs).sp = m.sp - BitVec.ofNat _ (wordBytes bits * rs.length)
  | m, [] => by simp [pushAll]
  | m, q :: rs => by
    show ((m.push q).pushAll rs).sp = _
    rw [pushAll_sub _ rs, push_sp, length_cons, Nat.mul_succ, Nat.add_comm, BitVec.ofNat_add]
    exact sub_sub ..

/-- In numbers, for pushes that do not wrap around. -/
theorem Machine.pushAll_sp : ∀ {m : Machine bits} {rs : List Reg},
    wordBytes bits * rs.length ≤ m.sp.toNat →
      (m.pushAll rs).sp.toNat = m.sp.toNat - wordBytes bits * rs.length
  | _, [], _ => rfl
  | m, q :: rs, h => by
    rw [length_cons, Nat.mul_succ] at h ⊢
    have hsp := m.toNat_push_sp q (by omega)
    have htail : ((m.push q).pushAll rs).sp.toNat = _ := pushAll_sp (by omega)
    show ((m.push q).pushAll rs).sp.toNat = _
    omega

/-- Pushes do not change the bytes from their first stack pointer on, and those below their last
one. -/
theorem Machine.pushAll_mem : ∀ {m : Machine bits} {rs : List Reg} {x : Word bits},
    wordBytes bits * rs.length ≤ m.sp.toNat →
      m.sp ≤ x ∨ x.toNat < m.sp.toNat - wordBytes bits * rs.length →
        (m.pushAll rs).mem x = m.mem x
  | _, [], _, _, _ => rfl
  | m, q :: rs, x, h, hx => by
    rw [length_cons, Nat.mul_succ] at h hx
    rw [BitVec.le_def] at hx
    have hsp := m.toNat_push_sp q (by omega)
    have htail : ((m.push q).pushAll rs).mem x = _ :=
      pushAll_mem (by omega) (by rw [BitVec.le_def]; omega)
    have := m.sp.isLt
    refine htail.trans ?_
    obtain hx | hx := hx
    · refine store_above ?_
      rw [← push_sp m q]
      omega
    · refine store_below ?_ ?_ <;> rw [← push_sp m q] <;> omega

theorem Machine.pushAll_above {m : Machine bits} (h : wordBytes bits * rs.length ≤ m.sp.toNat)
    (x : Word bits) (hx : m.sp ≤ x) : (m.pushAll rs).mem x = m.mem x := pushAll_mem h (.inl hx)

/-- The word of the first push is still there after the others, which stored below it. -/
theorem Machine.load_pushAll_first {m : Machine bits} {q : Reg}
    (h : wordBytes bits * (rs.length + 1) ≤ m.sp.toNat) :
    load ((m.push q).pushAll rs).mem (m.push q).sp = m.reg q := by
  rw [Nat.mul_succ] at h
  have hpush := m.toNat_push_sp q (by omega)
  have hwrap : (m.push q).sp.toNat + wordBytes bits ≤ 2 ^ width bits := by
    have := m.sp.isLt
    omega
  rw [load_congr_above (pushAll_above (by omega)) (BitVec.le_refl _) hwrap, push_sp]
  exact load_store _ _ _

/-- The pops of the pushed registers in the opposite order restore them, from any machine with the
stack pointer and the bytes from it on. Each pop finds the word of its push, because later pushes
stored below. -/
theorem Machine.popAll_pushAll : ∀ {rs : List Reg} {m m' : Machine bits},
    wordBytes bits * rs.length ≤ m.sp.toNat → m'.sp = (m.pushAll rs).sp →
      (∀ x, m'.sp ≤ x → m'.mem x = (m.pushAll rs).mem x) →
        (m'.popAll rs.reverse).sp = m.sp ∧ (m'.popAll rs.reverse).mem = m'.mem ∧
          ∀ r ≠ 4, (m'.popAll rs.reverse).reg r = if r ∈ rs then m.reg r else m'.reg r
  | [], _, _, _, hsp, _ => ⟨hsp, rfl, fun _ _ => rfl⟩
  | q :: rs, m, m', h, hsp, hmem => by
    have hfirst := load_pushAll_first (q := q) h
    rw [length_cons, Nat.mul_succ] at h
    have hpush := m.toNat_push_sp q (by omega)
    have hroom : wordBytes bits * rs.length ≤ (m.push q).sp.toNat := by omega
    obtain ⟨hsp1, hmem1, hreg1⟩ := popAll_pushAll (m := m.push q) hroom hsp hmem
    -- The word that the push of `q` stored is still there.
    have hword : load m'.mem (m.push q).sp = m.reg q := by
      have hend := pushAll_sp hroom
      have hlow : m'.sp ≤ (m.push q).sp := by
        rw [hsp, BitVec.le_def]
        show ((m.push q).pushAll rs).sp.toNat ≤ _
        omega
      have hwrap : (m.push q).sp.toNat + wordBytes bits ≤ 2 ^ width bits := by
        have := m.sp.isLt
        omega
      exact (load_congr_above hmem hlow hwrap).trans hfirst
    have hpop : m'.popAll (q :: rs).reverse = (m'.popAll rs.reverse).pop q := by
      rw [popAll, reverse_cons, foldl_append]
      rfl
    have hsame : ((m'.popAll rs.reverse).pop q).reg q = m.reg q := by
      rw [pop_same, hmem1, hsp1, hword]
    rw [hpop]
    refine ⟨?_, hmem1, fun r hr => ?_⟩
    · by_cases hq : q = 4
      · subst hq
        exact hsame
      · rw [pop_sp _ hq, hsp1, push_sp, BitVec.sub_add_cancel]
    by_cases hrq : r = q
    · rw [hrq, hsame, if_pos (by simp)]
    · rw [pop_of_ne _ hrq hr, hreg1 r hr, push_reg m q hr]
      simp [hrq]

/-- The word that a push stored: the register's value, for the stack pointer the one before the
push. -/
theorem Machine.load_pushAll : ∀ {rs : List Reg} {m : Machine bits} {i : ℕ} {r : Reg}
    {a : Word bits}, wordBytes bits * rs.length ≤ m.sp.toNat → rs[i]? = some r →
      a.toNat + wordBytes bits * (i + 1) = m.sp.toNat →
        (load (m.pushAll rs).mem a).toNat =
          if r = 4 then m.sp.toNat - wordBytes bits * i else (m.reg r).toNat
  | [], _, _, _, _, _, hr, _ => by simp at hr
  | q :: rs, m, i, r, a, h, hr, ha => by
    have hfirst := load_pushAll_first (q := q) h
    rw [length_cons, Nat.mul_succ] at h
    have hpush := m.toNat_push_sp q (by omega)
    have hroom : wordBytes bits * rs.length ≤ (m.push q).sp.toNat := by omega
    show (load ((m.push q).pushAll rs).mem a).toNat = _
    cases i with
    | zero =>
      obtain rfl : q = r := by simpa using hr
      have hsp : a = (m.push q).sp := by
        refine BitVec.eq_of_toNat_eq ?_
        omega
      rw [hsp, hfirst]
      by_cases hq : q = 4
      · rw [if_pos hq, hq]
        rfl
      · rw [if_neg hq]
    | succ i =>
      have hw : wordBytes bits * (i + 1 + 1) = wordBytes bits * (i + 1) + wordBytes bits :=
        Nat.mul_succ ..
      have hw' : wordBytes bits * (i + 1) = wordBytes bits * i + wordBytes bits := Nat.mul_succ ..
      rw [load_pushAll hroom (by simpa using hr) (by omega)]
      by_cases hq : r = 4
      · rw [if_pos hq, if_pos hq]
        omega
      · rw [if_neg hq, if_neg hq, push_reg m q hq]

theorem Machine.popAll_reg {r : Reg} (h4 : r ≠ 4) :
    ∀ (m : Machine bits) (rs : List Reg), r ∉ rs → (m.popAll rs).reg r = m.reg r
  | _, [], _ => rfl
  | m, q :: rs, h => by
    have hq : r ≠ q := fun hq => h (by simp [hq])
    have hrs : r ∉ rs := fun hrs => h (by simp [hrs])
    exact ((m.pop q).popAll_reg h4 rs hrs).trans (m.pop_of_ne hq h4)

theorem Machine.popAll_sp : ∀ (m : Machine bits) (rs : List Reg), 4 ∉ rs →
    (m.popAll rs).sp = m.sp + BitVec.ofNat _ (wordBytes bits * rs.length)
  | m, [], _ => by simp [popAll]
  | m, q :: rs, h => by
    have hq : q ≠ 4 := fun hq => h (by simp [hq])
    have hrs : 4 ∉ rs := fun hrs => h (by simp [hrs])
    show ((m.pop q).popAll rs).sp = _
    rw [popAll_sp _ rs hrs, pop_sp _ hq, length_cons, Nat.mul_succ, Nat.add_comm,
      BitVec.ofNat_add, BitVec.add_assoc]
    rfl

/-! ## Entering and leaving a function -/

/-- What the processor makes of a size in a 32-bit immediate. -/
def shift (bits : CodecBits) (n : ℕ) : Word bits := BitVec.ofInt _ ((n : ℤ).bmod (2 ^ 32))

theorem bmod_small (h : n < 2 ^ 31) : (n : ℤ).bmod (2 ^ 32) = n := by
  rw [Int.bmod_def]
  omega

theorem bmod_large (h : 2 ^ 31 ≤ n) (hn : n < 2 ^ 32) :
    (n : ℤ).bmod (2 ^ 32) = -((2 ^ 32 - n : ℕ) : ℤ) := by
  rw [Int.bmod_def]
  omega

theorem ofInt_bmod (n : ℕ) : BitVec.ofInt 32 ((n : ℤ).bmod (2 ^ 32)) = BitVec.ofNat 32 n := by
  rw [← BitVec.ofInt_natCast]
  refine BitVec.eq_of_toInt_eq ?_
  rw [BitVec.toInt_ofInt, BitVec.toInt_ofInt]
  exact Int.bmod_bmod

/-- The size is not sign-extended to a negative number. -/
theorem shift_eq (h : bits = .bits64 → n < 2 ^ 31) : shift bits n = BitVec.ofNat _ n := by
  cases bits with
  | bits32 => exact ofInt_bmod n
  | bits64 =>
    have hb := bmod_small (h rfl)
    unfold shift
    rw [hb]
    exact BitVec.ofInt_natCast _ _

@[simp] theorem shift_zero : shift bits 0 = 0#_ := shift_eq fun _ => by norm_num

/-- The size is sign-extended to a negative number. -/
theorem shift_large (h : 2 ^ 31 ≤ n) (hn : n < 2 ^ 32) :
    shift .bits64 n = -BitVec.ofNat _ (2 ^ 32 - n) := by
  have hb := bmod_large h hn
  unfold shift
  rw [hb]
  rw [BitVec.ofInt_neg]
  rw [BitVec.ofInt_natCast]

theorem toNat_shift_large (h : 2 ^ 31 ≤ n) (hn : n < 2 ^ 32) :
    (shift .bits64 n).toNat = 2 ^ 64 - (2 ^ 32 - n) := by
  rw [shift_large h hn, BitVec.toNat_neg, BitVec.toNat_ofNat]
  simp only [width]
  omega

theorem Machine.setReg_self (m : Machine bits) (r : Reg) : m.setReg r (m.reg r) = m := by
  unfold setReg
  rw [update_eq_self]

/-- The adjustments of the stack pointer, down and up. -/
theorem Machine.execAll_adjustBy (m : Machine bits) (n : ℕ) :
    m.execAll (adjustBy (-1) n) = m.setReg 4 (m.sp - shift bits n) ∧
      m.execAll (adjustBy 1 n) = m.setReg 4 (m.sp + shift bits n) := by
  unfold adjustBy
  by_cases hn : 0 < n
  · rw [if_pos hn, if_pos hn]
    constructor
    · show m.setReg 4 (m.sp + BitVec.ofInt _ (-1 * _)) = _
      rw [Int.neg_one_mul, BitVec.ofInt_neg, ← BitVec.sub_eq_add_neg]
      rfl
    show m.setReg 4 (m.sp + BitVec.ofInt _ (1 * _)) = _
    rw [Int.one_mul]
    rfl
  obtain rfl : n = 0 := by omega
  rw [shift_zero, BitVec.sub_zero, BitVec.add_zero]
  exact ⟨(m.setReg_self 4).symm, (m.setReg_self 4).symm⟩

/-- The frame of a function and the space of its locals. -/
def Machine.enterFrame (m : Machine bits) (n : ℕ) : Machine bits :=
  ((m.push 5).setReg 5 (m.push 5).sp).setReg 4 ((m.push 5).sp - shift bits n)

/-- A prologue that reserves `n` bytes and saves the registers `rs`: behind the frame, or without
one in front of the locals. -/
def Machine.enter (m : Machine bits) (frame : Bool) (rs : List Reg) (n : ℕ) : Machine bits :=
  if frame then (m.enterFrame n).pushAll rs
  else (m.pushAll rs).setReg 4 ((m.pushAll rs).sp - shift bits n)

/-- What the epilogue does: in both cases it pops the registers first. -/
def Machine.exit (m : Machine bits) (frame : Bool) (rs : List Reg) (n : ℕ) : Machine bits :=
  let m := m.popAll rs.reverse
  if frame then if 0 < n then (m.setReg 4 m.bp).pop 5 else m.pop 5
  else m.setReg 4 (m.sp + shift bits n)

/-- The stack that a prologue takes. -/
def stackNeed (bits : CodecBits) (frame : Bool) (rs : List Reg) (n : ℕ) : ℕ :=
  wordBytes bits * rs.length + (if frame then wordBytes bits else 0) + n

/-- A body leaves the stack pointer, the frame pointer and the bytes from the stack pointer on as
they were. -/
structure Keeps (m m' : Machine bits) : Prop where
  sp : m'.sp = m.sp
  bp : m'.bp = m.bp
  mem : ∀ x, m.sp ≤ x → m'.mem x = m.mem x

/-- At the return the frame pointer, the stack pointer and the saved registers are those of the
entry. -/
structure Returned (rs : List Reg) (entry m : Machine bits) : Prop where
  bp : m.bp = entry.bp
  saved : ∀ r ∈ rs, m.reg r = entry.reg r
  sp : m.sp = entry.sp

/-- The epilogue undoes the prologue, from every entry with enough stack and over every body. -/
def Undoes (bits : CodecBits) (frame : Bool) (rs : List Reg) (n : ℕ) : Prop :=
  ∀ entry : Machine bits, stackNeed bits frame rs n ≤ entry.sp.toNat →
    ∀ m, Keeps (entry.enter frame rs n) m → Returned rs entry (m.exit frame rs n)

section Frame

variable {entry : Machine bits} {n : ℕ}

theorem Machine.enterFrame_sp : (entry.enterFrame n).sp = (entry.push 5).sp - shift bits n :=
  setReg_same ..

theorem Machine.enterFrame_bp : (entry.enterFrame n).bp = (entry.push 5).sp := by
  rw [bp, enterFrame, setReg_of_ne _ (by decide), setReg_same]

theorem Machine.enterFrame_mem : (entry.enterFrame n).mem = (entry.push 5).mem := rfl

theorem Machine.enterFrame_reg (h4 : r ≠ 4) (h5 : r ≠ 5) :
    (entry.enterFrame n).reg r = entry.reg r := by
  rw [enterFrame, setReg_of_ne _ h4, setReg_of_ne _ h5, push_reg _ _ h4]

/-- Behind the pops the frame pointer is the one of the prologue, so the frame is left from there,
and the word at the frame decides about the frame pointer. -/
theorem Machine.exit_frame {m : Machine bits}
    (hroom : wordBytes bits * rs.length ≤ (entry.enterFrame n).sp.toNat)
    (hk : Keeps (entry.enter true rs n) m) :
    (m.exit true rs n).bp = load m.mem (entry.push 5).sp ∧ (m.exit true rs n).sp = entry.sp ∧
      ∀ r ∈ rs, r ≠ 4 → r ≠ 5 → (m.exit true rs n).reg r = entry.reg r := by
  have henter : entry.enter true rs n = (entry.enterFrame n).pushAll rs := rfl
  rw [henter] at hk
  obtain ⟨hsp, hmem, hreg⟩ := popAll_pushAll hroom hk.sp (by rw [hk.sp]; exact hk.mem)
  -- The body and the pops keep the frame pointer, also where it is among the saved registers.
  have hbp : (m.popAll rs.reverse).bp = (entry.push 5).sp := by
    have h5 := hreg 5 (by decide)
    have hm : m.reg 5 = (entry.enterFrame n).reg 5 := hk.bp.trans (pushAll_reg (by decide) _ _)
    rw [hm, ite_self] at h5
    exact h5.trans enterFrame_bp
  have hexit : m.exit true rs n = ((m.popAll rs.reverse).setReg 4 (entry.push 5).sp).pop 5 := by
    unfold exit
    by_cases hn : 0 < n
    · simp only [if_pos hn, if_true, hbp]
    obtain rfl : n = 0 := by omega
    have hsp' : (m.popAll rs.reverse).reg 4 = (entry.push 5).sp := by
      have h4 : (m.popAll rs.reverse).reg 4 = (entry.enterFrame 0).sp := hsp
      rw [h4, enterFrame_sp, shift_zero, BitVec.sub_zero]
    simp only [if_neg hn, if_true]
    rw [← hsp', setReg_self]
  rw [hexit]
  refine ⟨?_, ?_, fun r hr h4 h5 => ?_⟩
  · rw [bp, pop_same, setReg_mem, hmem, sp, setReg_same]
  · rw [pop_sp _ (by decide), sp, setReg_same, push_sp, BitVec.sub_add_cancel]
  · rw [pop_of_ne _ h5 h4, setReg_of_ne _ h4, hreg r h4, if_pos hr, enterFrame_reg h4 h5]

/-- The word at the frame is the frame pointer of the caller as long as nothing stored over it. -/
theorem Machine.load_frame (entry : Machine bits) :
    load (entry.push 5).mem (entry.push 5).sp = entry.bp := by
  rw [push_sp]
  exact load_store _ _ _

end Frame

/-! ## Where the epilogue undoes the prologue -/

open Machine

/-- With a frame, and a size that the processor does not take for a negative number. -/
theorem undoes_frame (hn : bits = .bits64 → n < 2 ^ 31) : Undoes bits true rs n := by
  intro entry hneed m hk
  have hlt := entry.sp.isLt
  have hneed : wordBytes bits * rs.length + wordBytes bits + n ≤ entry.sp.toNat := by
    simpa [stackNeed] using hneed
  have hpush := entry.toNat_push_sp 5 (by omega)
  have hsize : (BitVec.ofNat (width bits) n).toNat = n := by
    rw [BitVec.toNat_ofNat, Nat.mod_eq_of_lt (by omega)]
  have hframe : (entry.enterFrame n).sp.toNat = entry.sp.toNat - wordBytes bits - n := by
    rw [enterFrame_sp, shift_eq hn, BitVec.toNat_sub_of_le, hpush, hsize]
    rw [BitVec.le_def]
    omega
  have hroom : wordBytes bits * rs.length ≤ (entry.enterFrame n).sp.toNat := by omega
  have henter := pushAll_sp hroom
  obtain ⟨hbp, hsp, hreg⟩ := exit_frame hroom hk
  -- The slot of the frame pointer is above the locals, which nothing below it changes.
  have hslot : load m.mem (entry.push 5).sp = entry.bp := by
    have hwrap : (entry.push 5).sp.toNat + wordBytes bits ≤ 2 ^ width bits := by omega
    have hlow : (entry.enter true rs n).sp ≤ (entry.push 5).sp := by
      rw [BitVec.le_def]
      show ((entry.enterFrame n).pushAll rs).sp.toNat ≤ _
      omega
    have hlow' : (entry.enterFrame n).sp ≤ (entry.push 5).sp := by
      rw [BitVec.le_def]
      omega
    rw [load_congr_above hk.mem hlow hwrap]
    show load ((entry.enterFrame n).pushAll rs).mem _ = _
    rw [load_congr_above (pushAll_above hroom) hlow' hwrap, enterFrame_mem]
    exact entry.load_frame
  refine ⟨hbp.trans hslot, fun r hr => ?_, hsp⟩
  by_cases h4 : r = 4
  · rw [h4]
    exact hsp
  by_cases h5 : r = 5
  · rw [h5]
    exact hbp.trans hslot
  · exact hreg r hr h4 h5

/-- Without a frame, and without locals. -/
theorem undoes_saves (rs : List Reg) : Undoes bits false rs 0 := by
  intro entry hneed m hk
  have henter : entry.enter false rs 0 = entry.pushAll rs := by
    show (entry.pushAll rs).setReg 4 ((entry.pushAll rs).sp - shift bits 0) = _
    rw [shift_zero, BitVec.sub_zero]
    exact setReg_self _ 4
  have hexit : m.exit false rs 0 = m.popAll rs.reverse := by
    show (m.popAll rs.reverse).setReg 4 ((m.popAll rs.reverse).sp + shift bits 0) = _
    rw [shift_zero, BitVec.add_zero]
    exact setReg_self _ 4
  have hroom : wordBytes bits * rs.length ≤ entry.sp.toNat := by
    simpa [stackNeed] using hneed
  rw [henter] at hk
  rw [hexit]
  obtain ⟨hsp, -, hreg⟩ := popAll_pushAll hroom hk.sp (by rw [hk.sp]; exact hk.mem)
  refine ⟨?_, fun r hr => ?_, hsp⟩
  · have hm : m.reg 5 = entry.reg 5 := hk.bp.trans (pushAll_reg (by decide) _ _)
    have h5 := hreg 5 (by decide)
    rwa [hm, ite_self] at h5
  by_cases h4 : r = 4
  · rw [h4]
    exact hsp
  · rw [hreg r h4, if_pos hr]

/-- Without a frame and without saved registers: the size is added to what it was subtracted
from. -/
theorem undoes_locals (n : ℕ) : Undoes bits false [] n := by
  intro entry _ m hk
  have hsp : m.sp = entry.sp - shift bits n := hk.sp.trans (setReg_same ..)
  have hbp : m.bp = entry.bp := by
    refine hk.bp.trans ?_
    exact setReg_of_ne _ (by decide) _
  refine ⟨?_, by simp, ?_⟩
  · refine Eq.trans ?_ hbp
    exact setReg_of_ne _ (by decide) _
  · have hexit : (m.exit false [] n).sp = m.sp + shift bits n := setReg_same ..
    rw [hexit, hsp, BitVec.sub_add_cancel]

/-! ## Where it does not -/

/-- The lowest byte of a word is the byte at its address. -/
theorem load_low (mem : Word bits → UInt8) (a : Word bits) :
    (load mem a).toNat % 256 = (mem a).toNat := by
  have hcons : ∃ bs : Bytes, (List.range (wordBytes bits)).map
      (fun i => mem (a + BitVec.ofNat _ i)) = mem a :: bs := by
    obtain ⟨k, hk⟩ : ∃ k, wordBytes bits = k + 1 := by
      cases bits
      · exact ⟨3, rfl⟩
      · exact ⟨7, rfl⟩
    rw [hk, range_succ_eq_map, map_cons, BitVec.add_zero]
    exact ⟨_, rfl⟩
  obtain ⟨bs, hbs⟩ := hcons
  have hdvd : 256 ∣ 2 ^ width bits := by cases bits <;> decide
  rw [load, hbs, BitVec.toNat_ofNat, Nat.mod_mod_of_dvd _ hdvd, ofLe, Nat.add_mul_mod_self_left]
  exact Nat.mod_eq_of_lt (mem a).toNat_lt

/-- A machine with a given stack pointer and one other register, and one byte all over memory. -/
def probe (bits : CodecBits) (stack : ℕ) (r : Reg) (v : ℕ) (byte : UInt8) : Machine bits where
  reg q := if q = 4 then BitVec.ofNat _ stack else if q = r then BitVec.ofNat _ v else 0
  mem _ := byte

theorem probe_sp {stack v : ℕ} {byte : UInt8} (h : stack < 2 ^ width bits) :
    (probe bits stack r v byte).sp.toNat = stack := by
  show (BitVec.ofNat (width bits) stack).toNat = stack
  rw [BitVec.toNat_ofNat, Nat.mod_eq_of_lt h]

theorem probe_reg {stack v : ℕ} {r q : Reg} {byte : UInt8} (hv : v < 8) (h4 : q ≠ 4) :
    ((probe bits stack r v byte).reg q).toNat = if q = r then v else 0 := by
  have hlt : v < 2 ^ width bits := lt_trans hv (by cases bits <;> decide)
  simp only [probe, if_neg h4]
  split_ifs
  · rw [BitVec.toNat_ofNat, Nat.mod_eq_of_lt hlt]
  · rfl

/-- With a frame and a size taken for a negative number, the prologue moves the stack pointer above
the frame. Then registers are saved over the slot of the frame pointer, or it is below the stack
pointer, where the body may store. -/
theorem not_undoes_frame (hset : rs.Nodup) (hn : 2 ^ 31 ≤ n)
    (hlt : n < 2 ^ 32) (h8 : n % 8 = 0) : ¬Undoes .bits64 true rs n := by
  intro hu
  have hlen : rs.length ≤ 16 := by simpa using hset.length_le_card
  have hneed : stackNeed .bits64 true rs n = 8 * rs.length + 8 + n := rfl
  generalize hentry : probe .bits64 (8 * rs.length + 8 + n) 5 1 0 = entry at *
  have hsp : entry.sp.toNat = 8 * rs.length + 8 + n := by
    rw [← hentry, probe_sp]
    simp only [width]
    omega
  have hbp : entry.bp.toNat = 1 := by
    rw [← hentry]
    rfl
  have hpush : (entry.push 5).sp.toNat = 8 * rs.length + n := by
    rw [push_sp, toNat_sub_word] <;> simp only [wordBytes] <;> omega
  -- The stack pointer behind the locals is `2 ^ 32 - n` bytes above the frame.
  have hframe : (entry.enterFrame n).sp.toNat = 8 * rs.length + 2 ^ 32 := by
    rw [enterFrame_sp, BitVec.toNat_sub, hpush, toNat_shift_large hn hlt]
    simp only [width]
    omega
  have hroom : wordBytes .bits64 * rs.length ≤ (entry.enterFrame n).sp.toNat := by
    simp only [wordBytes]
    omega
  have hend : (entry.enter true rs n).sp.toNat = 2 ^ 32 := by
    have h := pushAll_sp hroom
    simp only [wordBytes] at h
    show ((entry.enterFrame n).pushAll rs).sp.toNat = _
    omega
  have hres := hu entry (by rw [hneed, hsp])
  by_cases hk : 8 * rs.length + n < 2 ^ 32
  · -- A body that clears the lowest byte of the slot, which is below the stack pointer.
    have hkeeps : Keeps (entry.enter true rs n) { entry.enter true rs n with
        mem := update (entry.enter true rs n).mem (entry.push 5).sp 0 } := by
      refine ⟨rfl, rfl, fun x hx => update_of_ne ?_ _ _⟩
      rintro rfl
      rw [BitVec.le_def] at hx
      omega
    have hload := load_low (update (entry.enter true rs n).mem (entry.push 5).sp 0)
      (entry.push 5).sp
    rw [update_self] at hload
    have h1 := (exit_frame hroom hkeeps).1.symm.trans (hres _ hkeeps).bp
    rw [h1, hbp] at hload
    exact absurd hload (by decide)
  · -- The word at the slot is the one of a saved register.
    have hkeeps : Keeps (entry.enter true rs n) (entry.enter true rs n) :=
      ⟨rfl, rfl, fun _ _ => rfl⟩
    have hi : (2 ^ 32 - n) / 8 - 1 < rs.length := by omega
    have hload := load_pushAll (a := (entry.push 5).sp) hroom
      (List.getElem?_eq_getElem hi) (by simp only [wordBytes]; omega)
    have h1 := (exit_frame hroom hkeeps).1.symm.trans (hres _ hkeeps).bp
    have h2 : load ((entry.enterFrame n).pushAll rs).mem (entry.push 5).sp = entry.bp := h1
    rw [h2, hbp] at hload
    generalize rs[(2 ^ 32 - n) / 8 - 1] = r at hload
    by_cases h4 : r = 4
    · rw [if_pos h4] at hload
      simp only [wordBytes] at hload
      omega
    rw [if_neg h4] at hload
    by_cases h5 : r = 5
    · have hr : (entry.enterFrame n).reg 5 = (entry.push 5).sp := enterFrame_bp
      rw [h5, hr] at hload
      omega
    · rw [enterFrame_reg h4 h5, ← hentry, probe_reg (by decide) h4, if_neg h5] at hload
      exact absurd hload (by decide)

theorem Machine.enter_plain_sp (m : Machine bits) (rs : List Reg) (n : ℕ) :
    (m.enter false rs n).sp = (m.pushAll rs).sp - shift bits n := setReg_same ..

theorem Machine.enter_plain_mem (m : Machine bits) (rs : List Reg) (n : ℕ) :
    (m.enter false rs n).mem = (m.pushAll rs).mem := rfl

/-- The first pop finds neither the value of its register nor, for the stack pointer, the address
behind the word. -/
def PopsWrong (r : Reg) (m : Machine bits) : Prop :=
  (load m.mem m.sp).toNat ≠ 2 ∧ (r = 4 → load m.mem m.sp ≠ m.sp + word bits)

/-- A word whose lowest byte is one, at the bottom of a page. -/
theorem popsWrong_of_low {m : Machine bits} (hmem : m.mem m.sp = 1)
    (hsp : m.sp.toNat % 256 = 0) : PopsWrong r m := by
  have hlow := load_low m.mem m.sp
  rw [hmem] at hlow
  have hlow : (load m.mem m.sp).toNat % 256 = 1 := hlow
  refine ⟨by omega, fun _ heq => ?_⟩
  have hdvd : 256 ∣ 2 ^ width bits := by cases bits <;> decide
  rw [heq, BitVec.toNat_add, toNat_word, Nat.mod_mod_of_dvd _ hdvd, Nat.add_mod, hsp] at hlow
  cases bits <;> exact absurd hlow (by decide)

/-- The pops start in the locals: the stack pointer is at zero, below the pushes. -/
theorem popsWrong_locals (hn : 0 < n)
    (hsmall : bits = .bits64 → n < 2 ^ 31) (hfit : stackNeed bits false rs n < 2 ^ width bits) :
    PopsWrong r ((probe bits (stackNeed bits false rs n) r 2 1).enter false rs n) := by
  generalize hentry : probe bits (stackNeed bits false rs n) r 2 1 = entry
  have hsp : entry.sp.toNat = wordBytes bits * rs.length + n := by
    rw [← hentry, probe_sp hfit]
    rfl
  have hroom : wordBytes bits * rs.length ≤ entry.sp.toNat := by omega
  have hpush := pushAll_sp hroom
  have hzero : (entry.enter false rs n).sp.toNat = 0 := by
    have hsize : (BitVec.ofNat (width bits) n).toNat = n := by
      have := entry.sp.isLt
      rw [BitVec.toNat_ofNat, Nat.mod_eq_of_lt (by omega)]
    rw [enter_plain_sp, shift_eq hsmall, BitVec.toNat_sub_of_le, hpush, hsize]
    · omega
    · rw [BitVec.le_def]
      omega
  refine popsWrong_of_low ?_ (by omega)
  rw [enter_plain_mem, pushAll_mem hroom (.inr (by omega)), ← hentry]
  rfl

/-- The pops start above the locals if the size is taken for a negative number: in the caller's
memory, or at the word of another register. -/
theorem popsWrong_large (hset : (rs ++ [r]).Nodup)
    (hlarge : 2 ^ 31 ≤ n) (hlt : n < 2 ^ 32) (h8 : n % 8 = 0) :
    PopsWrong r ((probe .bits64 (stackNeed .bits64 false (rs ++ [r]) n) r 2 1).enter false
      (rs ++ [r]) n) := by
  generalize hentry : probe .bits64 (stackNeed .bits64 false (rs ++ [r]) n) r 2 1 = entry
  have hlen : (rs ++ [r]).length ≤ 16 := by simpa using hset.length_le_card
  have hlen' : (rs ++ [r]).length = rs.length + 1 := by simp
  have hneed : stackNeed .bits64 false (rs ++ [r]) n = 8 * (rs ++ [r]).length + n := rfl
  have hsp : entry.sp.toNat = 8 * (rs ++ [r]).length + n := by
    rw [← hentry, hneed, probe_sp]
    simp only [width]
    omega
  have hroom : wordBytes .bits64 * (rs ++ [r]).length ≤ entry.sp.toNat := by
    simp only [wordBytes]
    omega
  have hpush : (entry.pushAll (rs ++ [r])).sp.toNat = n := by
    have h := pushAll_sp hroom
    simp only [wordBytes] at h
    omega
  have hend : (entry.enter false (rs ++ [r]) n).sp.toNat = 2 ^ 32 := by
    rw [enter_plain_sp, BitVec.toNat_sub, hpush, toNat_shift_large hlarge hlt]
    simp only [width]
    omega
  by_cases hk : 8 * (rs ++ [r]).length + n ≤ 2 ^ 32
  · refine popsWrong_of_low ?_ (by omega)
    rw [enter_plain_mem, pushAll_above hroom, ← hentry]
    · rfl
    · rw [BitVec.le_def]
      omega
  -- The saved registers are distinct, so that the word is not the one of `r`.
  have hi : rs.length - (2 ^ 32 - n) / 8 < rs.length := by omega
  have hget : (rs ++ [r])[rs.length - (2 ^ 32 - n) / 8]? =
      some rs[rs.length - (2 ^ 32 - n) / 8] := by
    rw [List.getElem?_append_left hi, List.getElem?_eq_getElem hi]
  have hload := load_pushAll (a := (entry.enter false (rs ++ [r]) n).sp) hroom hget
    (by simp only [wordBytes]; omega)
  have hq : rs[rs.length - (2 ^ 32 - n) / 8] ≠ r := by
    intro hq
    have hr : r ∈ rs := hq ▸ getElem_mem hi
    exact (nodup_append.1 hset).2.2 r hr r (by simp) rfl
  generalize rs[rs.length - (2 ^ 32 - n) / 8] = q at hload hq
  simp only [wordBytes] at hload
  rw [← enter_plain_mem entry (rs ++ [r]) n] at hload
  by_cases h4 : q = 4
  · rw [if_pos h4] at hload
    exact ⟨by omega, fun hr => absurd (h4.trans hr.symm) hq⟩
  have hzero : (entry.reg q).toNat = 0 := by
    rw [← hentry, probe_reg (by decide) h4, if_neg hq]
  rw [if_neg h4, hzero] at hload
  refine ⟨by omega, fun _ heq => ?_⟩
  rw [heq, BitVec.toNat_add, toNat_word, hend] at hload
  exact absurd hload (by decide)

/-- Without a frame the pops find locals, or, if the size is taken for a negative number, words of
other registers or of the caller. -/
theorem not_undoes_plain (hset : rs.Nodup) (hrs : rs ≠ []) (hn : 0 < n)
    (h64 : bits = .bits64 → n % 8 = 0 ∧ n < 2 ^ 32)
    (hfit : stackNeed bits false rs n < 2 ^ width bits) : ¬Undoes bits false rs n := by
  intro hu
  obtain ⟨rs, r, rfl⟩ : ∃ rs' r, rs = rs' ++ [r] :=
    ⟨rs.dropLast, rs.getLast hrs, (dropLast_append_getLast hrs).symm⟩
  have hwrong : PopsWrong r ((probe bits (stackNeed bits false (rs ++ [r]) n) r 2 1).enter false
      (rs ++ [r]) n) := by
    by_cases hsmall : bits = .bits64 → n < 2 ^ 31
    · exact popsWrong_locals hn hsmall hfit
    · obtain ⟨rfl, hlarge⟩ := Classical.not_imp.1 hsmall
      exact popsWrong_large hset (by omega) (h64 rfl).2 (h64 rfl).1
  have hsp : (probe bits (stackNeed bits false (rs ++ [r]) n) r 2 1).sp.toNat = _ := probe_sp hfit
  generalize hentry : probe bits (stackNeed bits false (rs ++ [r]) n) r 2 1 = entry at *
  have hret := hu entry (le_of_eq hsp.symm) _ ⟨rfl, rfl, fun _ _ => rfl⟩
  have henter := entry.enter_plain_sp (rs ++ [r]) n
  generalize entry.enter false (rs ++ [r]) n = m at *
  have hnot : r ∉ rs.reverse := by
    intro hr
    exact (nodup_append.1 hset).2.2 r (mem_reverse.1 hr) r (by simp) rfl
  have hpop : m.popAll (rs ++ [r]).reverse = (m.pop r).popAll rs.reverse := by
    rw [reverse_append]
    rfl
  have hexit : m.exit false (rs ++ [r]) n = ((m.pop r).popAll rs.reverse).setReg 4
      (((m.pop r).popAll rs.reverse).sp + shift bits n) := by
    rw [← hpop]
    rfl
  by_cases hr : r = 4
  · -- The popped stack pointer has to be the address behind its word.
    subst hr
    refine hwrong.2 rfl ?_
    have hexit_sp : (m.exit false (rs ++ [4]) n).sp =
        load m.mem m.sp + BitVec.ofNat _ (wordBytes bits * rs.length) + shift bits n := by
      rw [hexit, Machine.sp, setReg_same, popAll_sp _ _ hnot, length_reverse, Machine.sp, pop_same]
    have heq := hexit_sp.symm.trans hret.sp
    generalize load m.mem m.sp = popped at *
    rw [henter, pushAll_sub, length_append, length_singleton, Nat.mul_succ, BitVec.ofNat_add, ← heq]
    show _ = _ + BitVec.ofNat _ (wordBytes bits)
    ring
  · have hsaved := hret.saved r (by simp)
    rw [hexit, setReg_of_ne _ hr, popAll_reg hr _ _ hnot, pop_same] at hsaved
    refine hwrong.1 ?_
    rw [hsaved, ← hentry, probe_reg (by decide) hr, if_pos rfl]

/-! ## Generated prologues and epilogues -/

section Generated

variable (checks : Bool) (inputs : ProfileInputs)

/-- The registers that a function saves. -/
def savedRegs : List Reg := regsOf inputs.saves_used

/-- The prologue and the epilogue can be generated, and from every entry with room, over every body,
the return has the frame pointer, the saved registers and the stack pointer of the entry. -/
def Restores : Prop :=
  ∃ p e pro epi, defaultPrologue checks inputs = some p ∧
    defaultEpilogue checks inputs = some e ∧
    encodePrologue p (codecBits inputs.bits) = some pro ∧
    encodeEpilogue e (codecBits inputs.bits) = some epi ∧
    ∀ entry : Machine (codecBits inputs.bits),
      stackNeed (codecBits inputs.bits) p.frame (savedRegs inputs) p.sub_esp ≤ entry.sp.toNat →
        ∃ m, entry.run pro = some m ∧ ∀ m', Keeps m m' →
          ∃ m'', m'.run epi = some m'' ∧ Returned (savedRegs inputs) entry m''

/-- The callee releases the arguments. -/
def CalleeCleanup : Prop :=
  inputs.abi = "stdcall".toList ∨ inputs.abi = "thiscall".toList ∨ inputs.abi = "fastcall".toList

instance : Decidable (CalleeCleanup inputs) := inferInstanceAs (Decidable (_ ∨ _ ∨ _))

/-- Nothing panics: every saved register exists, and with overflow checks the sizes fit 32-bit
words. -/
structure Encodable : Prop where
  names : ∀ name ∈ inputs.saves_used, Nameable (codecBits inputs.bits) name
  size : checks = true → inputs.bits = 64 →
    inputs.sub_esp ≤ if inputs.frame_required then 2 ^ 32 - 16 else 2 ^ 32 - 8
  cleanup : checks = true → CalleeCleanup inputs → inputs.stack_arg_count * 4 < 2 ^ 32

/-- Pops and locals are released in the right order: there is a frame of a size not taken for
negative, or nothing saved, or no locals. A size that wraps to zero reserves nothing. -/
def Ordered : Prop :=
  if inputs.frame_required then
    inputs.bits = 64 → inputs.sub_esp ≤ 2 ^ 31 - 16 ∨ 2 ^ 32 - 16 < inputs.sub_esp
  else
    savedRegs inputs = [] ∨
      inputs.sub_esp = 0 ∧ (inputs.bits = 64 → inputs.body_has_call = false)

/-- No entry has room for the prologue. -/
def Crowded : Prop :=
  inputs.bits ≠ 64 ∧
    2 ^ 32 ≤ stackNeed .bits32 inputs.frame_required (savedRegs inputs) inputs.sub_esp

variable {checks inputs}

theorem codecBits_eq_bits64 : codecBits inputs.bits = .bits64 ↔ inputs.bits = 64 := by
  unfold codecBits
  split_ifs with h
  · simp [h]
  · simp [h]

theorem alignUp16_eq (n : ℕ) :
    alignUp16 checks n = if n + 15 < 2 ^ 32 then some ((n + 15) / 16 * 16)
      else if checks then none else some ((n + 15) % 2 ^ 32 / 16 * 16) := by
  unfold alignUp16 checkOverflow
  split_ifs <;> rfl

/-- The size without a frame, which is aligned behind the return address. -/
theorem alignUp16_plain {n : ℕ} (h : 8 < n) : (do
    let m ← alignUp16 checks (n - 8)
    checkOverflow checks (2 ^ 32) (m + 8)) =
      if n + 7 < 2 ^ 32 then some ((n + 7) / 16 * 16 + 8)
      else if checks then none else some ((n + 7) % 2 ^ 32 / 16 * 16 + 8) := by
  have hn : n - 8 + 15 = n + 7 := by omega
  rw [alignUp16_eq, hn]
  split_ifs with h1 h2
  · exact if_pos (by omega)
  · rfl
  · exact if_pos (by omega)

/-- Where the reserved size does not panic. -/
theorem computeAlignedSubEsp_isSome :
    (computeAlignedSubEsp checks inputs).isSome ↔
      (checks = true → inputs.bits = 64 →
        inputs.sub_esp ≤ if inputs.frame_required then 2 ^ 32 - 16 else 2 ^ 32 - 8) := by
  unfold computeAlignedSubEsp
  by_cases h64 : inputs.bits = 64
  · cases hf : inputs.frame_required with
    | true =>
      rw [if_pos h64, if_pos rfl, if_pos rfl, alignUp16_eq]
      split_ifs with h1 h2
      · simp
        omega
      · simp [h2, h64]
        omega
      · simp [h2]
    | false =>
      have hf' : ¬false = true := by simp
      rw [if_pos h64, if_neg hf', if_neg hf']
      split_ifs with h1 h2
      · simp
        omega
      · simp
        omega
      rw [alignUp16_plain (by omega)]
      split_ifs with h3 h4
      · exact ⟨fun _ _ _ => by omega, fun _ => rfl⟩
      · simp [h4, h64]
        omega
      · exact ⟨fun _ h => absurd h h4, fun _ => rfl⟩
  · simp [h64]

/-- The reserved size. In 64-bit code it is a multiple of the word size, and with a frame an aligned
size of `2 ^ 32` wraps to zero. -/
theorem computeAlignedSubEsp_spec (hu : inputs.sub_esp < 2 ^ 32)
    (h : computeAlignedSubEsp checks inputs = some n) :
    (inputs.bits = 64 → n % 8 = 0 ∧ n < 2 ^ 32) ∧ (inputs.bits ≠ 64 → n = inputs.sub_esp) ∧
      (inputs.bits = 64 → inputs.frame_required = true →
        (n < 2 ^ 31 ↔ inputs.sub_esp ≤ 2 ^ 31 - 16 ∨ 2 ^ 32 - 16 < inputs.sub_esp)) ∧
      (inputs.frame_required = false →
        (n = 0 ↔ inputs.sub_esp = 0 ∧ (inputs.bits = 64 → inputs.body_has_call = false))) := by
  unfold computeAlignedSubEsp at h
  by_cases h64 : inputs.bits = 64
  · rw [if_pos h64] at h
    cases hf : inputs.frame_required with
    | true =>
      rw [hf, if_pos rfl, alignUp16_eq] at h
      split_ifs at h with h1 h2 <;> cases h
      all_goals exact ⟨fun _ => by omega, fun h => absurd h64 h, fun _ _ => by omega, by simp⟩
    | false =>
      rw [hf, if_neg (by simp)] at h
      have hcall : (inputs.bits = 64 → inputs.body_has_call = false) ↔
          ¬inputs.body_has_call = true := by simp [h64]
      rw [hcall]
      split_ifs at h with h1 h2
      · cases h
        exact ⟨fun _ => by omega, fun h => absurd h64 h, by simp, fun _ => by simp [h1]⟩
      · cases h
        exact ⟨fun _ => by omega, fun h => absurd h64 h, by simp,
          fun _ => ⟨fun h => absurd h (by omega), fun h => absurd h h1⟩⟩
      rw [alignUp16_plain (by omega)] at h
      have hpos : ¬(inputs.sub_esp = 0 ∧ ¬inputs.body_has_call = true) := by omega
      split_ifs at h with h3 h4 <;> cases h
      all_goals
        exact ⟨fun _ => by omega, fun h => absurd h64 h, by simp,
          fun _ => ⟨fun h => absurd h (by omega), fun h => absurd h hpos⟩⟩
  · rw [if_neg h64] at h
    cases h
    exact ⟨fun h => absurd h h64, fun _ => rfl, fun h => absurd h h64, fun _ => by simp [h64]⟩

variable (hn : computeAlignedSubEsp checks inputs = some n)

include hn in
/-- The prologue that is generated does what `enter` does. -/
theorem execAll_prologue {p : StructuredPrologue}
    (hp : defaultPrologue checks inputs = some p) (m : Machine bits) :
    p.frame = inputs.frame_required ∧ p.sub_esp = n ∧
      m.execAll (prologueInstrs p) = m.enter inputs.frame_required (savedRegs inputs) n := by
  rw [defaultPrologue, hn] at hp
  cases hp
  refine ⟨rfl, rfl, ?_⟩
  have hcf : ∀ is, m.execAll ((if inputs.cf_protect then [.endbr] else []) ++ is) =
      m.execAll is := by
    intro is
    split_ifs <;> rfl
  simp only [prologueInstrs, append_assoc]
  rw [hcf]
  cases inputs.frame_required with
  | true =>
    simp only [if_true, regsOf, filterMap_nil, map_nil, nil_append]
    rw [execAll_append, execAll_append, (execAll_adjustBy _ n).1, execAll_push]
    rfl
  | false =>
    simp only [Bool.false_eq_true, if_false, regsOf, filterMap_nil, map_nil, nil_append, append_nil]
    rw [execAll_append, execAll_push, (execAll_adjustBy _ n).1]
    rfl

theorem defaultEpilogue_eq : defaultEpilogue checks inputs =
    (if CalleeCleanup inputs then
      checkOverflow checks (2 ^ 32) (inputs.stack_arg_count * 4) else some 0).bind
        fun cleanup => (computeAlignedSubEsp checks inputs).bind fun n => some {
          saves := inputs.saves_used.reverse
          leave := inputs.frame_required && decide (0 < n)
          pop_frame := inputs.frame_required && !(inputs.frame_required && decide (0 < n))
          add_esp := if inputs.frame_required then 0 else n
          ret_imm := if cleanup < 2 ^ 16 then cleanup else 0 } := by
  by_cases h : CalleeCleanup inputs
  · rw [if_pos h]
    exact if_pos h
  · rw [if_neg h]
    exact if_neg h

include hn in
/-- The epilogue that is generated does what `exit` does. -/
theorem execAll_epilogue {e : StructuredEpilogue}
    (he : defaultEpilogue checks inputs = some e) (m : Machine bits) :
    m.execAll (epilogueInstrs e) = m.exit inputs.frame_required (savedRegs inputs) n := by
  rw [defaultEpilogue_eq] at he
  obtain ⟨cleanup, -, he⟩ := bind_eq_some_iff.1 he
  rw [hn] at he
  cases he
  have hrev : regsOf inputs.saves_used.reverse = (savedRegs inputs).reverse := filterMap_reverse
  simp only [epilogueInstrs, hrev]
  rw [append_assoc, execAll_append, execAll_pop, execAll_append]
  unfold exit
  cases inputs.frame_required with
  | true =>
    by_cases h0 : 0 < n
    · simp [h0, adjustBy, execAll, exec]
    · simp [h0, adjustBy, execAll, exec]
  | false =>
    simp only [Bool.false_eq_true, if_false, Bool.false_and, (execAll_adjustBy _ n).2]
    rfl

/-- Where the release of the arguments does not panic. -/
theorem cleanup_isSome :
    (if CalleeCleanup inputs then
      checkOverflow checks (2 ^ 32) (inputs.stack_arg_count * 4) else some 0).isSome ↔
        (checks = true → CalleeCleanup inputs → inputs.stack_arg_count * 4 < 2 ^ 32) := by
  unfold checkOverflow
  split_ifs with h1 h2 h3
  · exact ⟨fun _ _ _ => h2, fun _ => rfl⟩
  · exact ⟨fun h => absurd h (by simp), fun h => absurd (h h3 h1) h2⟩
  · exact ⟨fun _ h => absurd h h3, fun _ => rfl⟩
  · exact ⟨fun _ _ h => absurd h h1, fun _ => rfl⟩

include hn in
/-- Whether the generated code restores the machine is a question about what `enter` and `exit`
do. -/
theorem restores_iff_undoes :
    Restores checks inputs ↔
      ((∀ name ∈ inputs.saves_used, Nameable (codecBits inputs.bits) name) ∧
        (checks = true → CalleeCleanup inputs → inputs.stack_arg_count * 4 < 2 ^ 32)) ∧
      Undoes (codecBits inputs.bits) inputs.frame_required (savedRegs inputs) n := by
  constructor
  · rintro ⟨p, e, pro, epi, hp, he, hpro, hepi, h⟩
    have he' := he
    rw [defaultEpilogue_eq] at he'
    obtain ⟨cleanup, hc, he'⟩ := bind_eq_some_iff.1 he'
    have hsaves : e.saves = inputs.saves_used.reverse := by
      rw [hn] at he'
      cases he'
      rfl
    refine ⟨⟨fun name hname => ?_, cleanup_isSome.1 (isSome_of_mem hc)⟩, ?_⟩
    · -- The epilogue names every saved register.
      obtain ⟨saves, hs, -⟩ := bind_eq_some_iff.1 hepi
      have hall := isSome_mapM.1 (isSome_of_mem hs) name (by rw [hsaves]; simpa using hname)
      exact regEncoded_isSome_iff.1 hall
    intro entry hneed m hk
    obtain ⟨hframe, hsub, henter⟩ := execAll_prologue hn hp entry
    obtain ⟨m1, hm1, hbody⟩ := h entry (by rwa [hframe, hsub])
    rw [Machine.run, decode_encodePrologue hpro, map_some, henter, Option.some.injEq] at hm1
    subst hm1
    obtain ⟨m2, hm2, hret⟩ := hbody m hk
    rw [Machine.run, decode_encodeEpilogue hepi, map_some, execAll_epilogue hn he,
      Option.some.injEq] at hm2
    rwa [hm2]
  · rintro ⟨⟨hnames, hcleanup⟩, hu⟩
    obtain ⟨p, hp⟩ : ∃ p, defaultPrologue checks inputs = some p := by
      rw [defaultPrologue, hn]
      exact ⟨_, rfl⟩
    obtain ⟨cleanup, hc⟩ := isSome_iff_exists.1 (cleanup_isSome.2 hcleanup)
    obtain ⟨e, he⟩ : ∃ e, defaultEpilogue checks inputs = some e := by
      rw [defaultEpilogue_eq, hc, hn]
      exact ⟨_, rfl⟩
    have hsome : ∀ (opcode : UInt8) (names : List Text), names ⊆ inputs.saves_used →
        ∃ pieces, names.mapM (regEncoded opcode (codecBits inputs.bits)) = some pieces := by
      intro opcode names hsub
      rw [← isSome_iff_exists, isSome_mapM]
      exact fun name hname => regEncoded_isSome_iff.2 (hnames name (hsub hname))
    obtain ⟨pro, hpro⟩ : ∃ pro, encodePrologue p (codecBits inputs.bits) = some pro := by
      rw [defaultPrologue, hn] at hp
      cases hp
      obtain ⟨a, ha⟩ := hsome 0x50 (if inputs.frame_required then [] else inputs.saves_used)
        (by split_ifs <;> simp)
      obtain ⟨b, hb⟩ := hsome 0x50 (if inputs.frame_required then inputs.saves_used else [])
        (by split_ifs <;> simp)
      exact ⟨_, bind_eq_some_iff.2 ⟨a, ha, bind_eq_some_iff.2 ⟨b, hb, rfl⟩⟩⟩
    obtain ⟨epi, hepi⟩ : ∃ epi, encodeEpilogue e (codecBits inputs.bits) = some epi := by
      rw [defaultEpilogue_eq, hc, hn] at he
      cases he
      obtain ⟨a, ha⟩ := hsome 0x58 inputs.saves_used.reverse (by simp)
      exact ⟨_, bind_eq_some_iff.2 ⟨a, ha, rfl⟩⟩
    refine ⟨p, e, pro, epi, hp, he, hpro, hepi, fun entry hneed => ?_⟩
    obtain ⟨hframe, hsub, henter⟩ := execAll_prologue hn hp entry
    rw [hframe, hsub] at hneed
    refine ⟨_, by rw [Machine.run, decode_encodePrologue hpro]; rfl, fun m hk => ?_⟩
    rw [henter] at hk
    refine ⟨_, by rw [Machine.run, decode_encodeEpilogue hepi]; rfl, ?_⟩
    rw [execAll_epilogue hn he]
    exact hu entry hneed m hk

include hn in
/-- In order, the epilogue undoes the prologue. -/
theorem undoes_of_ordered (hu : inputs.sub_esp < 2 ^ 32) (ho : Ordered inputs) :
    Undoes (codecBits inputs.bits) inputs.frame_required (savedRegs inputs) n := by
  obtain ⟨-, -, hframe, hplain⟩ := computeAlignedSubEsp_spec hu hn
  unfold Ordered at ho
  cases hf : inputs.frame_required with
  | true =>
    rw [if_pos hf] at ho
    refine undoes_frame fun hb => ?_
    have h64 := codecBits_eq_bits64.1 hb
    exact (hframe h64 hf).2 (ho h64)
  | false =>
    rw [if_neg (by simp [hf])] at ho
    obtain hnil | hzero := ho
    · rw [hnil]
      exact undoes_locals n
    · rw [(hplain hf).2 hzero]
      exact undoes_saves _

include hn in
/-- Out of order, it does not, for distinct registers and where an entry has room. -/
theorem not_undoes_of_not_ordered (hu : inputs.sub_esp < 2 ^ 32) (hset : (savedRegs inputs).Nodup)
    (ho : ¬Ordered inputs) (hc : ¬Crowded inputs) :
    ¬Undoes (codecBits inputs.bits) inputs.frame_required (savedRegs inputs) n := by
  obtain ⟨h8, h32, hframe, hplain⟩ := computeAlignedSubEsp_spec hu hn
  unfold Ordered at ho
  cases hf : inputs.frame_required with
  | true =>
    rw [if_pos hf] at ho
    obtain ⟨h64, ho⟩ := Classical.not_imp.1 ho
    rw [codecBits_eq_bits64.2 h64]
    have hlarge : ¬n < 2 ^ 31 := fun h => ho ((hframe h64 hf).1 h)
    exact not_undoes_frame hset (by omega) (h8 h64).2 (h8 h64).1
  | false =>
    rw [if_neg (by simp [hf])] at ho
    obtain ⟨hnil, hzero⟩ := not_or.1 ho
    have hpos : 0 < n := Nat.pos_of_ne_zero fun h => hzero ((hplain hf).1 h)
    refine not_undoes_plain hset hnil hpos (fun hb => h8 (codecBits_eq_bits64.1 hb)) ?_
    by_cases h64 : inputs.bits = 64
    · have hlen : (savedRegs inputs).length ≤ 16 := by simpa using hset.length_le_card
      have := (h8 h64).2
      rw [codecBits_eq_bits64.2 h64]
      show 8 * (savedRegs inputs).length + 0 + n < 2 ^ 64
      omega
    have hbits : codecBits inputs.bits = .bits32 := if_neg h64
    have hneed : ¬2 ^ 32 ≤ stackNeed .bits32 false (savedRegs inputs) inputs.sub_esp := by
      intro h
      exact hc ⟨h64, by rwa [hf]⟩
    rw [hbits, h32 h64]
    simp only [width]
    omega

include hn in
/-- Nothing has to be undone where no entry has room. -/
theorem undoes_of_crowded (hu : inputs.sub_esp < 2 ^ 32) (hc : Crowded inputs) :
    Undoes (codecBits inputs.bits) inputs.frame_required (savedRegs inputs) n := by
  intro entry hneed
  have hbits : codecBits inputs.bits = .bits32 := if_neg hc.1
  have hlt := entry.sp.isLt
  have h := hc.2
  have hlt' : entry.sp.toNat < 2 ^ 32 := lt_of_lt_of_eq hlt (by rw [hbits]; rfl)
  rw [(computeAlignedSubEsp_spec hu hn).2.1 hc.1] at hneed
  rw [← hbits] at h
  omega

/-- The generated prologue and epilogue restore the machine wherever they are in order. For a set of
saved registers they do so exactly there, or where no entry has room for the prologue. -/
theorem restores_iff_ordered (hu : inputs.sub_esp < 2 ^ 32) :
    (Encodable checks inputs ∧ Ordered inputs → Restores checks inputs) ∧
      ((savedRegs inputs).Nodup →
        (Restores checks inputs ↔
          Encodable checks inputs ∧ (Ordered inputs ∨ Crowded inputs))) := by
  have hmain : ∀ {n}, computeAlignedSubEsp checks inputs = some n →
      (Restores checks inputs ↔ Encodable checks inputs ∧
        Undoes (codecBits inputs.bits) inputs.frame_required (savedRegs inputs) n) := by
    intro n hn
    have hsize := computeAlignedSubEsp_isSome.1 (Option.isSome_of_mem hn)
    rw [restores_iff_undoes hn]
    exact and_congr_left' ⟨fun h => ⟨h.1, hsize, h.2⟩, fun h => ⟨h.names, h.cleanup⟩⟩
  have hsome : Encodable checks inputs →
      ∃ n, computeAlignedSubEsp checks inputs = some n := fun h =>
    Option.isSome_iff_exists.1 (computeAlignedSubEsp_isSome.2 h.size)
  refine ⟨fun ⟨henc, ho⟩ => ?_, fun hset => ⟨fun hr => ?_, fun ⟨henc, ho⟩ => ?_⟩⟩
  · obtain ⟨n, hn⟩ := hsome henc
    exact (hmain hn).2 ⟨henc, undoes_of_ordered hn hu ho⟩
  · obtain ⟨n, hn⟩ : ∃ n, computeAlignedSubEsp checks inputs = some n := by
      obtain ⟨p, -, -, -, hp, -⟩ := hr
      obtain ⟨n, hn, -⟩ := Option.bind_eq_some_iff.1 hp
      exact ⟨n, hn⟩
    obtain ⟨henc, hundo⟩ := (hmain hn).1 hr
    refine ⟨henc, ?_⟩
    by_contra hc
    obtain ⟨ho, hc⟩ := not_or.1 hc
    exact not_undoes_of_not_ordered hn hu hset ho hc hundo
  · obtain ⟨n, hn⟩ := hsome henc
    refine (hmain hn).2 ⟨henc, ?_⟩
    obtain ho | hc := ho
    · exact undoes_of_ordered hn hu ho
    · exact undoes_of_crowded hn hu hc

end Generated

/-- A 32-bit function with a frame, one saved register and four bytes of locals. -/
def framed : ProfileInputs where
  saves_used := ["ebx".toList]
  frame_required := true
  sub_esp := 4
  cf_protect := false
  stack_arg_count := 0
  abi := "cdecl".toList
  bits := 32
  frame_alt := false
  body_has_call := false

/-- The same function without a frame. -/
def frameless : ProfileInputs := { framed with frame_required := false }

theorem restores_framed : framed.sub_esp < 2 ^ 32 ∧ Restores true framed := by
  refine ⟨by decide, (restores_iff_ordered (by decide)).1 ⟨⟨?_, ?_, ?_⟩, ?_⟩⟩
  · intro name hname idx hidx
    obtain rfl : name = "ebx".toList := by simpa [framed] using hname
    have h3 : encodeIndexOf "ebx".toList = some (3, false) := by decide
    rw [h3] at hidx
    exact absurd hidx (by simp)
  · exact fun _ h => absurd h (by decide)
  · exact fun _ h => absurd h (by decide)
  · exact fun h => absurd h (by decide)

/-- Without the frame, `pop ebx` pops the four bytes of locals. -/
theorem not_restores_frameless : ¬Restores true frameless := by
  have hn : computeAlignedSubEsp true frameless = some 4 := rfl
  intro h
  refine not_undoes_of_not_ordered hn (by decide) (by decide) ?_ ?_ ((restores_iff_undoes hn).1 h).2
  · rintro (h | h)
    · exact absurd h (by decide)
    · exact absurd h.1 (by decide)
  · rintro ⟨-, h⟩
    exact absurd h (by decide)

end Univdreams.Lower.StackFrame
