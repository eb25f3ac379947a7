import Univdreams.Arch.BpfText

/-!
# From text to slot and back

`Form` lists the slots that the assembler of BPF makes. A slot of one of these forms, decoded by
itself and formatted, is a text from which the assembler makes the same eight bytes again, with one
exception: the signed divisions, which the assembler knows in every dialect and the formatter in
one.

The targets of calls are the other half. The decoder reads the distance of a call from a field of 32
bits, and the codec writes it through the check that is made for the field of 16 bits of a jump.
-/

namespace Univdreams.Arch.Bpf

open List Run Slot Text

variable {opNibble : ℕ} {checks : Bool} {slots : ℤ} {n : ℕ} {opClass : ℕ}

/-! ## The slots that the assembler makes -/

/-- The right-hand side of an operation. -/
inductive Rhs where
  | reg (n : ℕ)
  | imm (v : ℤ)

variable {rhs : Rhs}

/-- Whether the right-hand side is a register. -/
def Rhs.isReg : Rhs → Bool
  | .reg _ => true
  | .imm _ => false

/-- The field of the source register. -/
def Rhs.src : Rhs → ℕ
  | .reg n => n
  | .imm _ => 0

/-- The field of the number. -/
def Rhs.value : Rhs → ℤ
  | .reg _ => 0
  | .imm v => v

/-- A right-hand side that is a register names one that exists. -/
def Rhs.Valid : Rhs → Prop
  | .reg n => n ≤ 10
  | .imm _ => True

/-- The opcode of an operation, from its number, its right-hand side and its class. -/
def Rhs.opcode (rhs : Rhs) (opNibble opClass : ℕ) : ℕ :=
  16 * opNibble + (if rhs.isReg then 0x08 else 0) + opClass

/-- The text of a right-hand side. -/
def Rhs.text : Rhs → Text
  | .reg n => regText n
  | .imm v => hexOf (v % 2 ^ 32).toNat

/-- The numbers of the arithmetic operations with two operands. -/
def aluNibbles : List ℕ := [0x0, 0x1, 0x2, 0x3, 0x4, 0x5, 0x6, 0x7, 0x9, 0xa, 0xb, 0xc, 0xe, 0xf]

/-- The numbers of the conditional jumps. -/
def jmpNibbles : List ℕ := [0x1, 0x2, 0x3, 0x4, 0x5, 0x6, 0x7, 0xa, 0xb, 0xc, 0xd]

/-- The class of an arithmetic instruction. -/
def aluClass (alu64 : Bool) : ℕ := if alu64 then 0x07 else 0x04

/-- The class of a conditional jump. -/
def jmpClass (is32 : Bool) : ℕ := if is32 then 0x06 else 0x05

theorem of_mem_aluNibbles (hop : opNibble ∈ aluNibbles) :
    opNibble ≠ 0x8 ∧ opNibble ≠ 0xd ∧ opNibble < 0x10 := by
  simp only [aluNibbles, mem_cons, not_mem_nil, or_false] at hop
  omega

theorem of_mem_jmpNibbles (hop : opNibble ∈ jmpNibbles) :
    opNibble ≠ 0 ∧ opNibble ≠ 8 ∧ opNibble ≠ 9 ∧ opNibble < 0xe := by
  simp only [jmpNibbles, mem_cons, not_mem_nil, or_false] at hop
  omega

theorem aluClass_lt (alu64 : Bool) : aluClass alu64 < 8 := by cases alu64 <;> decide

theorem jmpClass_lt (is32 : Bool) : jmpClass is32 < 8 := by cases is32 <;> decide

/-- The slots assembled from a text other than a placeholder or a call by its distance. -/
inductive Form : Slot → Prop
  | lddw {dst : ℕ} (hdst : dst ≤ 10) (imm : ℤ) : Form (.insn 0x18 dst 0 0 imm)
  | lddwCont (imm : ℤ) : Form (.insn 0x00 0 0 0 imm)
  | ldx {size dst src : ℕ} {off : ℤ} (hsize : size < 4) (hdst : dst ≤ 10) (hsrc : src ≤ 10)
      (hoff : IsI16 off) : Form (.insn (0x60 + 8 * size + 0x01) dst src off 0)
  | st {size dst : ℕ} {off : ℤ} (hsize : size < 4) (hdst : dst ≤ 10) (hoff : IsI16 off) (imm : ℤ) :
      Form (.insn (0x60 + 8 * size + 0x02) dst 0 off imm)
  | stx {size dst src : ℕ} {off : ℤ} (hsize : size < 4) (hdst : dst ≤ 10) (hsrc : src ≤ 10)
      (hoff : IsI16 off) : Form (.insn (0x60 + 8 * size + 0x03) dst src off 0)
  | endian {opcode width dst : ℕ} (hopcode : opcode = 0xd4 ∨ opcode = 0xdc)
      (hwidth : width = 16 ∨ width = 32 ∨ width = 64) (hdst : dst ≤ 10) :
      Form (.insn opcode dst 0 0 width)
  | ja {off : ℤ} (hoff : IsI16 off) : Form (.insn 0x05 0 0 off 0)
  | call (imm : ℤ) : Form (.insn 0x85 0 0 0 imm)
  | callx {dst : ℕ} (hdst : dst ≤ 10) : Form (.insn 0x8d dst 0 0 0)
  | exit : Form (.insn 0x95 0 0 0 0)
  | jmp {opNibble dst : ℕ} {rhs : Rhs} {off : ℤ} (hop : opNibble ∈ jmpNibbles) (is32 : Bool)
      (hdst : dst ≤ 10) (hrhs : rhs.Valid) (hoff : IsI16 off) :
      Form (.insn (rhs.opcode opNibble (jmpClass is32)) dst rhs.src off rhs.value)
  | neg {dst : ℕ} (alu64 : Bool) (hdst : dst ≤ 10) :
      Form (.insn (16 * 0x8 + aluClass alu64) dst 0 0 0)
  | alu {opNibble dst : ℕ} {rhs : Rhs} (hop : opNibble ∈ aluNibbles) (alu64 : Bool)
      (hdst : dst ≤ 10) (hrhs : rhs.Valid) :
      Form (.insn (rhs.opcode opNibble (aluClass alu64)) dst rhs.src 0 rhs.value)

/-- Whether a slot is a signed division: these have the highest opcodes. -/
def Slot.isSignedDivision : Slot → Bool
  | .insn opcode _ _ _ _ => 0xe0 ≤ opcode
  | .word _ => false

/-- A slot of a form that is no signed division. -/
def Ordinary (slot : Slot) : Prop := Form slot ∧ slot.isSignedDivision = false

/-! ## What the assembler accepts -/

theorem expect_eq_ok {α : Type} {operand : Text} {context : String} {x : Option α} {a : α}
    (h : expect operand context x = .ok a) : x = some a := by
  cases x with
  | none => cases h
  | some b => rw [Except.ok.inj h]

theorem parseReg_le {text : Text} (h : parseReg text = .ok n) : n ≤ 10 := by
  obtain ⟨rest, m, -, -, h⟩ := Run.bind₂_eq_ok.1 h
  split_ifs at h with hm
  · cases h
  · obtain rfl := Except.ok.inj h
    omega

/-- A memory operand that is read has a register and a 16-bit offset. -/
theorem parseMem_spec {text : Text} {reg : ℕ} {off : ℤ}
    (h : parseMem checks text = .ok (reg, off)) : reg ≤ 10 ∧ IsI16 off := by
  have hzero : IsI16 0 := by unfold IsI16; omega
  obtain ⟨inner, -, h⟩ := Run.bind_eq_ok.1 h
  dsimp only at h
  split at h
  · obtain ⟨r, hr, h⟩ := Run.bind_eq_ok.1 h
    obtain ⟨o, o', -, ho, h⟩ := Run.steps₂_eq_ok.1 h
    obtain ⟨rfl, rfl⟩ := Prod.mk.inj h
    obtain ⟨rfl, hi⟩ := isI16_of_toI16 ho
    exact ⟨parseReg_le hr, hi⟩
  split at h
  · obtain ⟨r, hr, h⟩ := Run.bind_eq_ok.1 h
    obtain ⟨o, neg, o', -, -, ho, h⟩ := Run.steps₃_eq_ok.1 h
    obtain ⟨rfl, rfl⟩ := Prod.mk.inj h
    obtain ⟨rfl, hi⟩ := isI16_of_toI16 ho
    exact ⟨parseReg_le hr, hi⟩
  obtain ⟨r, hr, h⟩ := Run.bind_eq_ok.1 h
  obtain ⟨rfl, rfl⟩ := Prod.mk.inj (Except.ok.inj h)
  exact ⟨parseReg_le hr, hzero⟩

/-- A branch offset that is read fits 16 bits. -/
theorem parseBranchOffset_spec {text : Text} {off : ℤ}
    (h : parseBranchOffset checks text = .ok off) : IsI16 off := by
  have hlast : ∀ {x : Run BpfError ℤ}, x >>= toI16 = .ok off → IsI16 off := by
    intro x hx
    obtain ⟨signed, -, hsigned⟩ := Run.bind_eq_ok.1 hx
    obtain ⟨rfl, hi⟩ := isI16_of_toI16 hsigned
    exact hi
  -- Whatever the sign and the base of the number, the check is the last step.
  unfold parseBranchOffset at h
  dsimp only at h
  split at h
  all_goals
    obtain ⟨p, -, h⟩ := Run.bind_eq_ok.1 h
    split at h
    all_goals
      obtain ⟨v, -, h⟩ := Run.bind_eq_ok.1 h
      split at h <;> exact hlast h

theorem parseAluRhs_spec {text : Text} {p : Bool × ℕ × ℤ} (h : parseAluRhs text = .ok p) :
    ∃ rhs : Rhs, rhs.Valid ∧ p = (rhs.isReg, rhs.src, rhs.value) := by
  unfold parseAluRhs at h
  dsimp only at h
  split at h
  · obtain ⟨r, hr, h⟩ := Run.bind_eq_ok.1 h
    exact ⟨.reg r, parseReg_le hr, (Except.ok.inj h).symm⟩
  · obtain ⟨v, -, h⟩ := Run.bind_eq_ok.1 h
    exact ⟨.imm v, trivial, (Except.ok.inj h).symm⟩

theorem sizeLetterToBits_eq (suffix : Text) : ∃ size < 4, sizeLetterToBits suffix = 8 * size := by
  unfold sizeLetterToBits
  split_ifs
  · exact ⟨1, by omega, rfl⟩
  · exact ⟨2, by omega, rfl⟩
  · exact ⟨3, by omega, rfl⟩
  · exact ⟨0, by omega, rfl⟩

theorem lookup_eq_some {table : List (String × ℕ)} {name : Text}
    (h : lookup table name = some n) : ∃ s, (s, n) ∈ table ∧ s.toList = name := by
  obtain ⟨⟨s, m⟩, hfind, rfl⟩ := Option.map_eq_some_iff.1 h
  refine ⟨s, List.mem_of_find?_eq_some hfind, ?_⟩
  simpa using List.find?_some hfind

/-- A step of a chain of tests. -/
theorem of_ite {α : Type} {c P : Prop} [Decidable c] {x y : Run BpfError α} {a : α}
    (h : (if c then x else y) = .ok a) (hpos : c → x = .ok a → P) (hneg : y = .ok a → P) : P := by
  by_cases hc : c
  · exact hpos hc (by rwa [if_pos hc] at h)
  · exact hneg (by rwa [if_neg hc] at h)

section Accepted

variable {checks : Bool} {mnemonic : Text} {operands : List Text} {slot : Slot}

theorem form_assembleLddw (h : assembleLddw operands = .ok slot) : Ordinary slot := by
  obtain ⟨⟨a, b⟩, dst, imm, -, hdst, -, rfl⟩ := steps₃_eq_ok.1 h
  exact ⟨.lddw (parseReg_le hdst) _, rfl⟩

theorem form_assembleLdx (h : assembleLdx checks mnemonic operands = .ok slot) : Ordinary slot := by
  obtain ⟨⟨a, b⟩, dst, ⟨src, off⟩, -, hdst, hmem, rfl⟩ := steps₃_eq_ok.1 h
  obtain ⟨size, hsize, hbits⟩ := sizeLetterToBits_eq (mnemonic.drop 3)
  obtain ⟨hsrc, hoff⟩ := parseMem_spec hmem
  rw [hbits]
  exact ⟨.ldx hsize (parseReg_le hdst) hsrc hoff, by simp [isSignedDivision]; omega⟩

theorem form_assembleSt (h : assembleSt checks mnemonic operands = .ok slot) : Ordinary slot := by
  obtain ⟨⟨a, b⟩, ⟨dst, off⟩, imm, -, hmem, -, rfl⟩ := steps₃_eq_ok.1 h
  obtain ⟨size, hsize, hbits⟩ := sizeLetterToBits_eq (mnemonic.drop 2)
  obtain ⟨hdst, hoff⟩ := parseMem_spec hmem
  rw [hbits]
  exact ⟨.st hsize hdst hoff imm, by simp [isSignedDivision]; omega⟩

theorem form_assembleStx (h : assembleStx checks mnemonic operands = .ok slot) : Ordinary slot := by
  obtain ⟨⟨a, b⟩, ⟨dst, off⟩, src, -, hmem, hsrc, rfl⟩ := steps₃_eq_ok.1 h
  obtain ⟨size, hsize, hbits⟩ := sizeLetterToBits_eq (mnemonic.drop 3)
  obtain ⟨hdst, hoff⟩ := parseMem_spec hmem
  rw [hbits]
  exact ⟨.stx hsize hdst (parseReg_le hsrc) hoff, by simp [isSignedDivision]; omega⟩

theorem form_assembleEndian {opcode width : ℕ} (hopcode : opcode = 0xd4 ∨ opcode = 0xdc)
    (hwidth : width = 16 ∨ width = 32 ∨ width = 64)
    (h : assembleEndian mnemonic opcode width operands = .ok slot) : Ordinary slot := by
  obtain ⟨a, dst, -, hdst, rfl⟩ := steps₂_eq_ok.1 h
  exact ⟨.endian hopcode hwidth (parseReg_le hdst), by simp [isSignedDivision]; omega⟩

theorem form_assembleJa (h : assembleJa checks operands = .ok slot) : Ordinary slot := by
  obtain ⟨a, off, -, hoff, rfl⟩ := steps₂_eq_ok.1 h
  exact ⟨.ja (parseBranchOffset_spec hoff), rfl⟩

theorem form_assembleCall (h : assembleCall 0 operands = .ok slot) : Ordinary slot := by
  obtain ⟨a, imm, -, -, rfl⟩ := steps₂_eq_ok.1 h
  exact ⟨.call imm, rfl⟩

theorem form_assembleCallx (h : assembleCallx operands = .ok slot) : Ordinary slot := by
  obtain ⟨a, dst, -, hdst, rfl⟩ := steps₂_eq_ok.1 h
  exact ⟨.callx (parseReg_le hdst), rfl⟩

/-- An assembled jump has an ordinary form. -/
theorem form_assembleJmp {is32 : Bool} (hop : opNibble ∈ jmpNibbles)
    (h : assembleJmp checks opNibble is32 operands = .ok slot) : Ordinary slot := by
  unfold assembleJmp at h
  split at h
  · obtain ⟨dst, hdst, h⟩ := bind_eq_ok.1 h
    obtain ⟨p, hp, h⟩ := bind_eq_ok.1 h
    obtain ⟨rhs, hrhs, rfl⟩ := parseAluRhs_spec hp
    obtain ⟨off, hoff, rfl⟩ := steps₁_eq_ok.1 h
    refine ⟨.jmp hop is32 (parseReg_le hdst) hrhs (parseBranchOffset_spec hoff), ?_⟩
    have hnibble := of_mem_jmpNibbles hop
    simp only [isSignedDivision, decide_eq_false_iff_not]
    split_ifs <;> omega
  · cases h

/-- Only the numbers of the signed divisions are at the top. -/
theorem form_assembleAlu {alu64 : Bool} (hop : opNibble = 0x8 ∨ opNibble ∈ aluNibbles)
    (h : assembleAlu mnemonic opNibble (aluClass alu64) operands = .ok slot) :
    Form slot ∧ (slot.isSignedDivision = true ↔ 0xe ≤ opNibble) := by
  have hclass := aluClass_lt alu64
  unfold assembleAlu at h
  split_ifs at h with hneg
  · obtain ⟨a, -, h⟩ := bind_eq_ok.1 h
    obtain ⟨dst, hdst, rfl⟩ := steps₁_eq_ok.1 h
    subst hneg
    refine ⟨.neg alu64 (parseReg_le hdst), ?_⟩
    simp only [isSignedDivision, decide_eq_true_eq]
    omega
  obtain ⟨⟨a, b⟩, -, h⟩ := bind_eq_ok.1 h
  obtain ⟨dst, p, hdst, hp, h⟩ := bind₂_eq_ok.1 h
  obtain ⟨rhs, hrhs, rfl⟩ := parseAluRhs_spec hp
  obtain rfl := Except.ok.inj h
  refine ⟨.alu (hop.resolve_left hneg) alu64 (parseReg_le hdst) hrhs, ?_⟩
  simp only [isSignedDivision, decide_eq_true_eq]
  split_ifs <;> omega

/-- The mnemonics of the signed divisions. -/
def signedDivisions : List Text :=
  ["sdiv", "sdiv32", "sdiv64", "srem", "srem32", "srem64"].map String.toList

theorem stripSuffix?_eq_some {t suffix rest : Text} (h : stripSuffix? t suffix = some rest) :
    t = rest ++ suffix := by
  unfold stripSuffix? at h
  split_ifs at h with hsuffix
  obtain ⟨u, rfl⟩ := hsuffix
  rw [← Option.some.inj h]
  simp

theorem mem_jmpNibbles {base : Text} (h : jmpOpNibble base = some n) : n ∈ jmpNibbles := by
  obtain ⟨s, hmem, -⟩ := lookup_eq_some h
  simp only [mem_cons, Prod.mk.injEq, not_mem_nil, or_false] at hmem
  simp only [jmpNibbles, mem_cons, not_mem_nil, or_false]
  omega

theorem mem_aluNibbles {base : Text} (h : aluOpNibble base = some n) :
    (n = 0x8 ∨ n ∈ aluNibbles) ∧ (0xe ≤ n → base = "sdiv".toList ∨ base = "srem".toList) := by
  obtain ⟨s, hmem, rfl⟩ := lookup_eq_some h
  simp only [mem_cons, Prod.mk.injEq, not_mem_nil, or_false] at hmem
  simp only [aluNibbles, mem_cons, not_mem_nil, or_false]
  refine ⟨by omega, fun hn => ?_⟩
  rcases (by omega : n = 0xe ∨ n = 0xf) with rfl | rfl <;> simp_all

/-- The two tables of operations, for a mnemonic without its suffix. -/
theorem form_of_nibble {base : Text} (alu64 jmp32 : Bool) (h : (match jmpOpNibble base with
      | some n => assembleJmp checks n jmp32 operands
      | none => match aluOpNibble base with
        | none => fail (.unknownMnemonic mnemonic)
        | some n => assembleAlu mnemonic n (aluClass alu64) operands) = .ok slot) :
    Form slot ∧
      (slot.isSignedDivision = true → base = "sdiv".toList ∨ base = "srem".toList) := by
  split at h
  · next n hj =>
    obtain ⟨hform, hsigned⟩ := form_assembleJmp (mem_jmpNibbles hj) h
    exact ⟨hform, fun hs => absurd hs (by simp [hsigned])⟩
  split at h
  · cases h
  next n ha =>
  obtain ⟨hn, hbase⟩ := mem_aluNibbles ha
  obtain ⟨hform, hsigned⟩ := form_assembleAlu hn h
  exact ⟨hform, fun hs => hbase (hsigned.1 hs)⟩

/-- The mnemonics of the signed divisions assemble to them. -/
theorem signed_of_mem_signedDivisions (hmem : mnemonic ∈ signedDivisions)
    (h : assembleAluOrJmp checks mnemonic operands = .ok slot) : slot.isSignedDivision = true := by
  have hsigned : ∀ n ∈ [0xe, 0xf], ∀ alu64,
      assembleAlu mnemonic n (aluClass alu64) operands = .ok slot →
        slot.isSignedDivision = true := by
    intro n hn alu64 h'
    rw [mem_pair] at hn
    exact (form_assembleAlu (.inr (by rcases hn with rfl | rfl <;> decide)) h').2.2 (by omega)
  have hdiv := hsigned 0xe (by simp)
  have hrem := hsigned 0xf (by simp)
  simp only [signedDivisions, map_cons, map_nil, mem_cons, not_mem_nil, or_false] at hmem
  rcases hmem with rfl | rfl | rfl | rfl | rfl | rfl
  · exact hdiv false h
  · exact hdiv false h
  · exact hdiv true h
  · exact hrem false h
  · exact hrem false h
  · exact hrem true h

/-- The form of an arithmetic or jump slot, and which of them divide signed. -/
theorem form_assembleAluOrJmp (h : assembleAluOrJmp checks mnemonic operands = .ok slot) :
    Form slot ∧ (slot.isSignedDivision = true ↔ mnemonic ∈ signedDivisions) := by
  have hback := fun hmem => signed_of_mem_signedDivisions hmem h
  unfold assembleAluOrJmp at h
  rcases hs64 : stripSuffix? mnemonic "64".toList with _ | b
  · rcases hs32 : stripSuffix? mnemonic "32".toList with _ | b
    · simp only [hs64, hs32] at h
      obtain ⟨hform, hbase⟩ := form_of_nibble false false h
      refine ⟨hform, fun hs => ?_, hback⟩
      rcases hbase hs with rfl | rfl <;> decide
    simp only [hs64, hs32] at h
    obtain ⟨hform, hbase⟩ := form_of_nibble false true h
    refine ⟨hform, fun hs => ?_, hback⟩
    obtain rfl := stripSuffix?_eq_some hs32
    rcases hbase hs with rfl | rfl <;> decide
  · simp only [hs64] at h
    obtain ⟨hform, hbase⟩ := form_of_nibble true false h
    refine ⟨hform, fun hs => ?_, hback⟩
    obtain rfl := stripSuffix?_eq_some hs64
    rcases hbase hs with rfl | rfl <;> decide

/-- Every slot assembled from a mnemonic other than a call by its distance has a form. -/
theorem form_assembleMnemonic (hinternal : mnemonic ≠ "call_internal".toList)
    (hlocal : mnemonic ≠ "call_local".toList)
    (h : assembleMnemonic checks mnemonic operands = .ok slot) :
    Form slot ∧ (slot.isSignedDivision = true ↔ mnemonic ∈ signedDivisions) := by
  have hother : mnemonic ∉ signedDivisions → Ordinary slot →
      Form slot ∧ (slot.isSignedDivision = true ↔ mnemonic ∈ signedDivisions) := fun hmem hform =>
    ⟨hform.1, by simp [hform.2, hmem]⟩
  have hlist : ∀ {names : List Text}, names.contains mnemonic = true →
      (∀ name ∈ names, name ∉ signedDivisions) → mnemonic ∉ signedDivisions := fun hc hall =>
    hall _ (by simpa using hc)
  have hle := fun {width : ℕ} => @form_assembleEndian mnemonic operands slot 0xd4 width (.inl rfl)
  have hbe := fun {width : ℕ} => @form_assembleEndian mnemonic operands slot 0xdc width (.inr rfl)
  refine of_ite h (fun hm h => hother (hm ▸ by decide) (form_assembleLddw h)) fun h => ?_
  refine of_ite h (fun hm h => hother (hlist hm (by decide)) (form_assembleLdx h)) fun h => ?_
  refine of_ite h (fun hm h => hother (hlist hm (by decide)) (form_assembleSt h)) fun h => ?_
  refine of_ite h (fun hm h => hother (hlist hm (by decide)) (form_assembleStx h)) fun h => ?_
  refine of_ite h (fun hm h => hother (hm ▸ by decide) (hle (by simp) h)) fun h => ?_
  refine of_ite h (fun hm h => hother (hm ▸ by decide) (hle (by simp) h)) fun h => ?_
  refine of_ite h (fun hm h => hother (hm ▸ by decide) (hle (by simp) h)) fun h => ?_
  refine of_ite h (fun hm h => hother (hm ▸ by decide) (hbe (by simp) h)) fun h => ?_
  refine of_ite h (fun hm h => hother (hm ▸ by decide) (hbe (by simp) h)) fun h => ?_
  refine of_ite h (fun hm h => hother (hm ▸ by decide) (hbe (by simp) h)) fun h => ?_
  refine of_ite h (fun hm h => hother (hm ▸ by decide) (form_assembleJa h)) fun h => ?_
  refine of_ite h (fun hm h => hother (hm ▸ by decide) (form_assembleCall h)) fun h => ?_
  refine of_ite h (fun hm _ => absurd hm hinternal) fun h => ?_
  refine of_ite h (fun hm _ => absurd hm hlocal) fun h => ?_
  refine of_ite h (fun hm h => hother (hm ▸ by decide) (form_assembleCallx h)) fun h => ?_
  exact form_assembleAluOrJmp h

/-- A slot assembled from a text that is no placeholder and no call by distance has a form, and is a
signed division if its mnemonic is one. -/
theorem form_assembleSlot {text : Text} (hbpf : ¬"<bpf 0x".toList <+: trim text)
    (hinternal : mnemonicOf text ≠ "call_internal".toList)
    (hlocal : mnemonicOf text ≠ "call_local".toList) (h : assembleSlot checks text = .ok slot) :
    Form slot ∧ (slot.isSignedDivision = true ↔ mnemonicOf text ∈ signedDivisions) := by
  have hword : stripPrefix? (trim text) "<bpf 0x".toList = none := if_neg hbpf
  refine of_ite h (fun _ h => by cases h) fun h => ?_
  rw [hword] at h
  by_cases hcont : "<lddw-cont 0x".toList <+: trim text
  · obtain ⟨rest, hrest⟩ := hcont
    have hmnemonic : mnemonicOf text = "<lddw-cont".toList := by
      rw [mnemonicOf, ← hrest]
      exact @takeWhile_mnemonic "<lddw-cont".toList (by simp [isWhitespace]) _
    rw [stripPrefix?, if_pos ⟨rest, hrest⟩] at h
    obtain ⟨high, -, rfl⟩ := steps₁_eq_ok.1 h
    have hmem : mnemonicOf text ∉ signedDivisions := hmnemonic ▸ by decide
    exact ⟨.lddwCont high, iff_of_false (by simp [isSignedDivision]) hmem⟩
  rw [stripPrefix?, if_neg hcont] at h
  refine of_ite h (fun hexit h => ?_) fun h => form_assembleMnemonic hinternal hlocal h
  obtain rfl := Except.ok.inj h
  have hmnemonic : mnemonicOf text = "exit".toList := by
    rw [mnemonicOf, hexit]
    decide
  rw [hmnemonic]
  exact ⟨.exit, by decide⟩

end Accepted

/-! ## What the formatter writes -/

/-- An operand as it stands in a text. -/
structure Operand (t : Text) : Prop where
  isOperand : IsOperand t
  trimmed : Trimmed t
  ne_nil : t ≠ []

theorem IsWord.operand {t : Text} (h : IsWord t) : Operand t := ⟨h.isOperand, h.trimmed, h.1⟩

theorem operand_offsetText (off : ℤ) : Operand (offsetText off) where
  isOperand := (isOperand_offsetText off).1
  trimmed := (isOperand_offsetText off).2
  ne_nil := by unfold offsetText; split <;> simp

theorem operand_memText (reg : ℕ) (off : ℤ) : Operand (memText reg off) where
  isOperand := (isOperand_memText reg off).1
  trimmed := (isOperand_memText reg off).2
  ne_nil := by simp [memText]

theorem operand_rhsText (rhs : Rhs) : Operand rhs.text := by
  cases rhs with
  | reg n => exact (isWord_regText n).operand
  | imm v => exact (isWord_hexOf _).operand

/-- Operands in a row begin with the first and end with the last. -/
theorem trimmed_append {s t : Text} (hs : Operand s) (mid : Text) (ht : Operand t) :
    Trimmed (s ++ mid ++ t) := by
  constructor
  · intro c hc
    rw [append_assoc, List.head?_append_of_ne_nil _ hs.ne_nil] at hc
    exact hs.trimmed.1 c hc
  intro c hc
  rw [List.getLast?_append_of_ne_nil _ ht.ne_nil] at hc
  exact ht.trimmed.2 c hc

/-- A name that begins an instruction: it has no blank and does not begin a placeholder. -/
def isName (m : Text) : Bool :=
  m ≠ [] && m.all (fun c => !isWhitespace c) && m.head? ≠ some '<'

section Reassembled

variable (checks : Bool)

theorem assembleSlot_name {m rest : Text} (hm : isName m = true) (hrest : Trimmed rest)
    (hne : rest ≠ []) :
    assembleSlot checks (m ++ ' ' :: rest) =
      assembleMnemonic checks m (splitOperands rest) := by
  simp only [isName, Bool.and_eq_true, decide_eq_true_eq, all_eq_true, Bool.not_eq_true'] at hm
  obtain ⟨⟨hnil, hchars⟩, hhead⟩ := hm
  obtain ⟨c, cs, rfl⟩ := exists_cons_of_ne_nil hnil
  have hc : '<' ≠ c := fun heq => hhead (by rw [heq]; rfl)
  refine assembleSlot_mnemonic checks hchars hnil ?_ ?_ hrest hne
  · simp [hc]
  · simp [hc]

theorem assembleSlot_one {m t : Text} (hm : isName m = true) (ht : Operand t) :
    assembleSlot checks (m ++ ' ' :: t) = assembleMnemonic checks m [t] := by
  rw [assembleSlot_name checks hm ht.trimmed ht.ne_nil,
    splitOperands_one ht.isOperand ht.trimmed ht.ne_nil]

theorem assembleSlot_two {m s t : Text} (hm : isName m = true) (hs : Operand s) (ht : Operand t) :
    assembleSlot checks (m ++ ' ' :: (s ++ ", ".toList ++ t)) =
      assembleMnemonic checks m [s, t] := by
  rw [assembleSlot_name checks hm (trimmed_append hs _ ht) (by simp),
    splitOperands_two hs.isOperand ht.isOperand hs.trimmed ht.trimmed]

theorem assembleSlot_three {m s t u : Text} (hm : isName m = true) (hs : Operand s)
    (ht : Operand t) (hu : Operand u) :
    assembleSlot checks (m ++ ' ' :: (s ++ ", ".toList ++ (t ++ ", ".toList ++ u))) =
      assembleMnemonic checks m [s, t, u] := by
  have htrim : Trimmed (s ++ ", ".toList ++ (t ++ ", ".toList ++ u)) := by
    have hshape : s ++ ", ".toList ++ (t ++ ", ".toList ++ u) =
        s ++ (", ".toList ++ t ++ ", ".toList) ++ u := by
      simp
    rw [hshape]
    exact trimmed_append hs _ hu
  rw [assembleSlot_name checks hm htrim (by simp),
    splitOperands_three hs.isOperand ht.isOperand hu.isOperand hs.trimmed ht.trimmed hu.trimmed]

/-- An instruction that shows the fields of a slot. -/
structure Shows (insn : DecodedInsn) (opcode dst src : ℕ) (off imm : ℤ) : Prop where
  kind : insn.kind ≠ .lddwSecondHalf
  opcode : insn.opcode = opcode
  dst : insn.dst = dst
  src : insn.src = src
  offset : insn.offset = off
  imm : insn.imm = signedWord 32 (imm % 2 ^ 32).toNat
  imm64 : insn.imm64 = none

theorem classifyOpcode_ne (opcode : ℕ) (variant : BpfVariant) :
    classifyOpcode opcode variant ≠ .lddwSecondHalf := by
  unfold classifyOpcode classifyJmp
  split_ifs <;> simp

/-- A slot that is decoded by itself shows its fields. -/
theorem shows_decodeSingle {opcode dst src : ℕ} {off imm : ℤ} (hopcode : opcode < 256)
    (hdst : dst ≤ 10) (hsrc : src ≤ 10) (hoff : IsI16 off) (addr : ℕ) (variant : BpfVariant) :
    Shows (decodeSingle addr (insn opcode dst src off imm).bytes variant) opcode dst src off
      imm := by
  unfold decodeSingle
  rw [decodeSlot_bytes hopcode (by omega) (by omega) hoff]
  refine ⟨?_, rfl, rfl, rfl, rfl, rfl, rfl⟩
  split
  · simp
  · exact classifyOpcode_ne _ _

theorem Shows.immWord {insn : DecodedInsn} {opcode dst src : ℕ} {off imm : ℤ}
    (h : Shows insn opcode dst src off imm) : insn.immWord = (imm % 2 ^ 32).toNat := by
  have hmod := @signedWord_mod 32 (imm % 2 ^ 32).toNat (by omega) (by omega)
  unfold DecodedInsn.immWord
  rw [h.imm]
  omega

/-- A text from which the bytes of a slot are made. -/
def Reassembles (text : Text) (slot : Slot) : Prop :=
  ∃ slot', assembleSlot checks text = .ok slot' ∧ slot'.bytes = slot.bytes

variable {checks} {insn : DecodedInsn} {dst src : ℕ} {off imm : ℤ} (variant : BpfVariant)

/-- The first slot of a wide load is assembled from its text. -/
theorem reassembles_lddw (h : Shows insn 0x18 dst 0 0 imm) (hdst : dst ≤ 10) :
    Reassembles checks (formatInsn insn variant) (.insn 0x18 dst 0 0 imm) := by
  have htext : formatInsn insn variant = "lddw".toList ++ ' ' :: (regText dst ++ ", ".toList ++
      hexOf (imm % 2 ^ 32).toNat) := by
    simp [formatInsn, formatLd, h.kind, h.opcode, h.dst, h.imm64, h.immWord]
  have hlt : (imm % 2 ^ 32).toNat < wordSize := by
    have : wordSize = 18446744073709551616 := rfl
    omega
  refine ⟨.insn 0x18 dst 0 0 (imm % 2 ^ 32).toNat, ?_, bytes_congr (by omega)⟩
  rw [htext, assembleSlot_two _ (by decide) (isWord_regText _).operand (isWord_hexOf _).operand]
  show assembleLddw _ = _
  simp only [assembleLddw, binary, ok_bind, parseReg_regText hdst, parseUint_hexOf hlt]
  rfl

/-- The width of an access, as the mnemonics name it. -/
def sizeName (size : ℕ) : Text := ["w", "h", "b", "dw"].map String.toList |>.getD size []

theorem sizeLetter_eq {size opClass : ℕ} (hsize : size < 4) (hclass : opClass < 8) :
    sizeLetter (0x60 + 8 * size + opClass) = sizeName size := by
  have hbits : (0x60 + 8 * size + opClass) / 8 % 4 = size := by omega
  unfold sizeLetter
  rw [hbits]
  interval_cases size <;> rfl

/-- Loads are assembled from their text. -/
theorem reassembles_ldx {size : ℕ} (hsize : size < 4)
    (h : Shows insn (0x60 + 8 * size + 0x01) dst src off 0) (hdst : dst ≤ 10) (hsrc : src ≤ 10)
    (hoff : IsI16 off) :
    Reassembles checks (formatInsn insn variant)
      (.insn (0x60 + 8 * size + 0x01) dst src off 0) := by
  have hclass : (0x60 + 8 * size + 0x01) % 8 = 1 := by omega
  have hplain : ¬0x60 + 8 * size + 0x01 = 0x18 ∧
      0x60 + 8 * size + 0x01 ∉ [0x20, 0x28, 0x30, 0x38, 0x40, 0x48, 0x50] := by
    simp
    omega
  have htext : formatInsn insn variant = ("ldx".toList ++ sizeName size) ++ ' ' ::
      (regText dst ++ ", ".toList ++ memText src off) := by
    rw [formatInsn, if_neg h.kind, h.opcode, if_pos (.inr hclass), formatLd, h.opcode,
      if_neg hplain.1, if_neg (by omega), if_neg hplain.2, sizeLetter_eq hsize (by decide), h.dst,
      h.src, h.offset]
    simp
  generalize hm : "ldx".toList ++ sizeName size = m at htext
  obtain ⟨hname, hbits, hassemble⟩ : isName m = true ∧ sizeLetterToBits (m.drop 3) = 8 * size ∧
      ∀ operands, assembleMnemonic checks m operands = assembleLdx checks m operands := by
    subst hm
    interval_cases size <;> exact ⟨by decide, rfl, fun _ => rfl⟩
  refine ⟨_, ?_, rfl⟩
  rw [htext, assembleSlot_two _ hname (isWord_regText _).operand (operand_memText _ _), hassemble]
  simp only [assembleLdx, binary, ok_bind, parseReg_regText hdst,
    parseMem_memText checks hsrc hoff, hbits]
  rfl

/-- Stores of an immediate are assembled from their text. -/
theorem reassembles_st {size : ℕ} (hsize : size < 4)
    (h : Shows insn (0x60 + 8 * size + 0x02) dst 0 off imm) (hdst : dst ≤ 10) (hoff : IsI16 off) :
    Reassembles checks (formatInsn insn variant)
      (.insn (0x60 + 8 * size + 0x02) dst 0 off imm) := by
  have hclass : (0x60 + 8 * size + 0x02) % 8 = 2 := by omega
  have htext : formatInsn insn variant = ("st".toList ++ sizeName size) ++ ' ' ::
      (memText dst off ++ ", ".toList ++ hexOf (imm % 2 ^ 32).toNat) := by
    rw [formatInsn, if_neg h.kind, h.opcode, if_neg (by omega), if_pos (.inl hclass), formatSt,
      h.opcode, if_pos hclass, sizeLetter_eq hsize (by decide), h.dst, h.offset, h.immWord]
    simp
  generalize hm : "st".toList ++ sizeName size = m at htext
  obtain ⟨hname, hbits, hassemble⟩ : isName m = true ∧ sizeLetterToBits (m.drop 2) = 8 * size ∧
      ∀ operands, assembleMnemonic checks m operands = assembleSt checks m operands := by
    subst hm
    interval_cases size <;> exact ⟨by decide, rfl, fun _ => rfl⟩
  refine ⟨.insn (0x60 + 8 * size + 0x02) dst 0 off (imm % 2 ^ 32).toNat, ?_, bytes_congr (by omega)⟩
  rw [htext, assembleSlot_two _ hname (operand_memText _ _) (isWord_hexOf _).operand, hassemble]
  simp only [assembleSt, binary, ok_bind, parseMem_memText checks hdst hoff,
    parseInt_hexOf (show (imm % 2 ^ 32).toNat < 2 ^ 32 by omega), hbits]
  rfl

/-- Stores of a register are assembled from their text. -/
theorem reassembles_stx {size : ℕ} (hsize : size < 4)
    (h : Shows insn (0x60 + 8 * size + 0x03) dst src off 0) (hdst : dst ≤ 10) (hsrc : src ≤ 10)
    (hoff : IsI16 off) :
    Reassembles checks (formatInsn insn variant)
      (.insn (0x60 + 8 * size + 0x03) dst src off 0) := by
  have hclass : (0x60 + 8 * size + 0x03) % 8 = 3 := by omega
  have htext : formatInsn insn variant = ("stx".toList ++ sizeName size) ++ ' ' ::
      (memText dst off ++ ", ".toList ++ regText src) := by
    rw [formatInsn, if_neg h.kind, h.opcode, if_neg (by omega), if_pos (.inr hclass), formatSt,
      h.opcode, if_neg (by omega), sizeLetter_eq hsize (by decide), h.dst, h.src, h.offset]
    simp
  generalize hm : "stx".toList ++ sizeName size = m at htext
  obtain ⟨hname, hbits, hassemble⟩ : isName m = true ∧ sizeLetterToBits (m.drop 3) = 8 * size ∧
      ∀ operands, assembleMnemonic checks m operands = assembleStx checks m operands := by
    subst hm
    interval_cases size <;> exact ⟨by decide, rfl, fun _ => rfl⟩
  refine ⟨_, ?_, rfl⟩
  rw [htext, assembleSlot_two _ hname (operand_memText _ _) (isWord_regText _).operand, hassemble]
  simp only [assembleStx, binary, ok_bind, parseMem_memText checks hdst hoff,
    parseReg_regText hsrc, hbits]
  rfl

/-- Byte swaps are assembled from their text. -/
theorem reassembles_endian {opcode width : ℕ} (hopcode : opcode = 0xd4 ∨ opcode = 0xdc)
    (hwidth : width = 16 ∨ width = 32 ∨ width = 64) (h : Shows insn opcode dst 0 0 width)
    (hdst : dst ≤ 10) :
    Reassembles checks (formatInsn insn variant) (.insn opcode dst 0 0 width) := by
  have himm : insn.imm = width := by
    rw [h.imm]
    rcases hwidth with rfl | rfl | rfl <;> rfl
  have htext : formatInsn insn variant =
      ((if opcode / 8 % 2 = 0 then "le".toList else "be".toList) ++ intToDec width) ++
        ' ' :: regText dst := by
    have hclass : opcode % 8 = 4 ∧ opcode / 16 = 0xd := by omega
    rw [formatInsn, if_neg h.kind, h.opcode, if_neg (by omega), if_neg (by omega), if_pos hclass.1,
      formatAlu, h.opcode, if_pos hclass.2, formatEndian, h.opcode, himm, h.dst]
    simp
  refine ⟨_, ?_, rfl⟩
  rw [htext]
  rcases hopcode with rfl | rfl <;> rcases hwidth with rfl | rfl | rfl <;>
    rw [assembleSlot_one _ (by decide) (isWord_regText _).operand] <;>
    show assembleEndian _ _ _ _ = _ <;>
    simp only [assembleEndian, unary, ok_bind, parseReg_regText hdst] <;> rfl

theorem formatInsn_ja (h : Shows insn 0x05 0 0 off 0) :
    formatInsn insn variant = "ja".toList ++ ' ' :: offsetText off := by
  simp [formatInsn, formatJmp, formatBranchOffset, h.kind, h.opcode, h.offset]

theorem reassembles_ja (h : Shows insn 0x05 0 0 off 0) (hoff : IsI16 off) :
    Reassembles checks (formatInsn insn variant) (.insn 0x05 0 0 off 0) := by
  refine ⟨_, ?_, rfl⟩
  rw [formatInsn_ja variant h, assembleSlot_one _ (by decide) (operand_offsetText _)]
  show assembleJa _ _ = _
  simp only [assembleJa, unary, ok_bind, parseBranchOffset_offsetText checks hoff]
  rfl

theorem reassembles_call (h : Shows insn 0x85 0 0 0 imm) :
    Reassembles checks (formatInsn insn variant) (.insn 0x85 0 0 0 imm) := by
  have htext : formatInsn insn variant = "call".toList ++ ' ' :: hexOf (imm % 2 ^ 32).toNat := by
    simp [formatInsn, formatJmp, h.kind, h.opcode, h.immWord]
  refine ⟨.insn 0x85 0 0 0 (imm % 2 ^ 32).toNat, ?_, bytes_congr (by omega)⟩
  rw [htext, assembleSlot_one _ (by decide) (isWord_hexOf _).operand]
  show assembleCall _ _ = _
  simp only [assembleCall, unary, ok_bind,
    parseIntSigned_hexOf (show (imm % 2 ^ 32).toNat < 2 ^ 32 by omega)]
  rfl

theorem reassembles_callx (h : Shows insn 0x8d dst 0 0 0) (hdst : dst ≤ 10) :
    Reassembles checks (formatInsn insn variant) (.insn 0x8d dst 0 0 0) := by
  have htext : formatInsn insn variant = "callx".toList ++ ' ' :: regText dst := by
    simp [formatInsn, formatJmp, h.kind, h.opcode, h.dst]
  refine ⟨_, ?_, rfl⟩
  rw [htext, assembleSlot_one _ (by decide) (isWord_regText _).operand]
  show assembleCallx _ = _
  simp only [assembleCallx, unary, ok_bind, parseReg_regText hdst]
  rfl

theorem reassembles_exit (h : Shows insn 0x95 0 0 0 0) :
    Reassembles checks (formatInsn insn variant) (.insn 0x95 0 0 0 0) := by
  have htext : formatInsn insn variant = "exit".toList := by
    simp [formatInsn, formatJmp, h.kind, h.opcode]
  exact ⟨_, by rw [htext]; rfl, rfl⟩

theorem stripSuffix?_append (t suffix : Text) : stripSuffix? (t ++ suffix) suffix = some t := by
  rw [stripSuffix?, if_pos (suffix_append t suffix)]
  simp

/-- Leading zeros do not change a number. -/
theorem fromStrRadix_padded {limit n : ℕ} (hn : n < limit) (k : ℕ) :
    fromStrRadix limit 16 (replicate k '0' ++ toHex n) = some n := by
  refine fromStrRadix_of_ofDigitChars (by simp [toHex_ne_nil]) ?_ hn
  rw [ofDigitChars_zeros (by omega), ofDigitChars_toHex]

/-- The second slot of a wide load is assembled from its text. -/
theorem reassembles_lddwCont (h : Shows insn 0x00 0 0 0 imm) :
    Reassembles checks (formatInsn insn variant) (.insn 0x00 0 0 0 imm) := by
  have hlt : (imm % 2 ^ 32).toNat < 2 ^ 32 := by omega
  generalize hk : 8 - (toHex (imm % 2 ^ 32).toNat).length = k
  have htext : formatInsn insn variant = "<lddw-cont 0x".toList ++
      ((replicate k '0' ++ toHex (imm % 2 ^ 32).toNat) ++ ['>']) := by
    rw [formatInsn, if_neg h.kind, h.opcode, if_pos (.inl rfl), formatLd, h.opcode,
      if_neg (by decide), if_pos rfl, h.immWord, hexPadded, hk]
    simp
  have htrim : Trimmed (formatInsn insn variant) := by
    rw [htext]
    refine ⟨by simp; decide, fun c hc => ?_⟩
    rw [← append_assoc, List.getLast?_concat] at hc
    cases hc
    decide
  refine ⟨.insn 0x00 0 0 0 (imm % 2 ^ 32).toNat, ?_, bytes_congr (by omega)⟩
  have hsuffix := stripSuffix?_append (replicate k '0' ++ toHex (imm % 2 ^ 32).toNat) ['>']
  have hbpf : stripPrefix? (formatInsn insn variant) "<bpf 0x".toList = none := by
    rw [htext]
    simp [stripPrefix?]
  have hcont : stripPrefix? (formatInsn insn variant) "<lddw-cont 0x".toList =
      some ((replicate k '0' ++ toHex (imm % 2 ^ 32).toNat) ++ ['>']) := by
    rw [htext]
    simp [stripPrefix?]
  have hne : formatInsn insn variant ≠ [] := by
    rw [htext]
    simp
  simp only [assembleSlot, htrim.trim_eq, if_neg hne, hbpf, hcont, bracketed, hsuffix,
    Option.bind_some, fromStrRadix_padded hlt, ok_bind]
  rfl

/-! ### Operations -/

section Opcode

variable (rhs : Rhs) (opNibble : ℕ) (hclass : opClass < 8)

include hclass

theorem Rhs.opcode_div : rhs.opcode opNibble opClass / 16 = opNibble := by
  unfold Rhs.opcode
  split <;> omega

theorem Rhs.opcode_mod : rhs.opcode opNibble opClass % 8 = opClass := by
  unfold Rhs.opcode
  split <;> omega

theorem Rhs.opcode_bit : rhs.opcode opNibble opClass / 8 % 2 = 1 ↔ rhs.isReg = true := by
  unfold Rhs.opcode
  split
  next hreg => exact iff_of_true (by omega) hreg
  next hreg => exact iff_of_false (by omega) hreg

theorem Rhs.opcode_lt {opNibble : ℕ} (hop : opNibble < 16) : rhs.opcode opNibble opClass < 256 := by
  unfold Rhs.opcode
  split <;> omega

end Opcode

theorem Rhs.Valid.src_le (h : rhs.Valid) : rhs.src ≤ 10 := by
  cases rhs with
  | reg n => exact h
  | imm v => exact Nat.zero_le 10

/-- The right-hand side that the assembler reads back. -/
theorem Rhs.text_eq (rhs : Rhs) {opNibble opClass : ℕ} (hclass : opClass < 8)
    (h : Shows insn (rhs.opcode opNibble opClass) dst rhs.src off rhs.value) :
    (if insn.opcode / 8 % 2 = 1 then regText insn.src else hexOf insn.immWord) = rhs.text := by
  rw [h.opcode, h.src, h.immWord, if_congr (rhs.opcode_bit opNibble hclass) rfl rfl]
  cases rhs <;> rfl

theorem parseAluRhs_text (hrhs : rhs.Valid) :
    ∃ value, parseAluRhs rhs.text = .ok (rhs.isReg, rhs.src, value) ∧
      value % 2 ^ 32 = rhs.value % 2 ^ 32 := by
  cases rhs with
  | reg n => exact ⟨0, parseAluRhs_regText hrhs, rfl⟩
  | imm v => exact ⟨_, parseAluRhs_hexOf (by omega), by simp only [Rhs.value]; omega⟩

theorem assembleMnemonic_jmp (checks : Bool) (hop : opNibble ∈ jmpNibbles) (is32 : Bool) :
    isName (jmpMnemonic opNibble ++ if is32 then "32".toList else []) = true ∧ ∀ operands,
      assembleMnemonic checks (jmpMnemonic opNibble ++ if is32 then "32".toList else [])
        operands = assembleJmp checks opNibble is32 operands := by
  simp only [jmpNibbles, mem_cons, not_mem_nil, or_false] at hop
  rcases hop with rfl | rfl | rfl | rfl | rfl | rfl | rfl | rfl | rfl | rfl | rfl <;>
    cases is32 <;> exact ⟨by decide, fun _ => rfl⟩

section Jmp

variable (hop : opNibble ∈ jmpNibbles) (is32 : Bool)
  (h : Shows insn (rhs.opcode opNibble (jmpClass is32)) dst rhs.src off rhs.value)

include hop h

/-- The text of a conditional jump. -/
theorem formatInsn_jmp :
    formatInsn insn variant = (jmpMnemonic opNibble ++ if is32 then "32".toList else []) ++
      ' ' :: (regText dst ++ ", ".toList ++ (rhs.text ++ ", ".toList ++ offsetText off)) := by
  have hclass : jmpClass is32 = if is32 then 6 else 5 := rfl
  have hlt := jmpClass_lt is32
  have hdiv := rhs.opcode_div opNibble hlt
  have hmod := rhs.opcode_mod opNibble hlt
  have hnibble := of_mem_jmpNibbles hop
  have hjmp : formatInsn insn variant = formatJmp insn is32 := by
    rw [formatInsn, if_neg h.kind, h.opcode, hmod, hclass]
    cases is32 <;> rfl
  rw [hjmp, formatJmp, if_neg (by rw [h.opcode]; omega), if_neg (by rw [h.opcode]; omega),
    if_neg (by rw [h.opcode]; omega), if_neg (by rw [h.opcode]; omega), rhs.text_eq hlt h,
    h.opcode, hdiv, h.dst, h.offset, formatBranchOffset]
  simp

theorem reassembles_jmp (hdst : dst ≤ 10) (hrhs : rhs.Valid) (hoff : IsI16 off) :
    Reassembles checks (formatInsn insn variant)
      (.insn (rhs.opcode opNibble (jmpClass is32)) dst rhs.src off rhs.value) := by
  obtain ⟨hname, hassemble⟩ := assembleMnemonic_jmp checks hop is32
  obtain ⟨value, hparse, hvalue⟩ := parseAluRhs_text hrhs
  refine ⟨.insn (rhs.opcode opNibble (jmpClass is32)) dst rhs.src off value, ?_, bytes_congr hvalue⟩
  rw [formatInsn_jmp variant hop is32 h, assembleSlot_three _ hname (isWord_regText _).operand
    (operand_rhsText rhs) (operand_offsetText _), hassemble]
  simp only [assembleJmp, ok_bind, parseReg_regText hdst, hparse,
    parseBranchOffset_offsetText checks hoff]
  rfl

end Jmp

/-- The suffix of an arithmetic mnemonic. -/
def aluSuffix (alu64 : Bool) : Text := if alu64 then "64".toList else "32".toList

theorem assembleMnemonic_alu (checks : Bool) (hop : opNibble ∈ aluNibbles) (alu64 : Bool)
    (hsigned : variant = .sbfv2 ∨ opNibble < 0xe) :
    isName (aluMnemonic opNibble variant ++ aluSuffix alu64) = true ∧ ∀ operands,
      assembleMnemonic checks (aluMnemonic opNibble variant ++ aluSuffix alu64) operands =
        assembleAlu (aluMnemonic opNibble variant ++ aluSuffix alu64) opNibble (aluClass alu64)
          operands := by
  simp only [aluNibbles, mem_cons, not_mem_nil, or_false] at hop
  rcases hop with rfl | rfl | rfl | rfl | rfl | rfl | rfl | rfl | rfl | rfl | rfl | rfl | rfl |
    rfl <;>
    cases alu64 <;> cases variant <;>
    first
      | exact ⟨by decide, fun _ => rfl⟩
      | simp at hsigned

theorem formatInsn_alu {opcode : ℕ} (alu64 : Bool) (hkind : insn.kind ≠ .lddwSecondHalf)
    (hopcode : insn.opcode = opcode) (hmod : opcode % 8 = aluClass alu64) :
    formatInsn insn variant = formatAlu insn alu64 variant := by
  rw [formatInsn, if_neg hkind, hopcode, hmod, aluClass]
  cases alu64 <;> rfl

/-- Negations are assembled from their text. -/
theorem reassembles_neg (alu64 : Bool) (h : Shows insn (16 * 0x8 + aluClass alu64) dst 0 0 0)
    (hdst : dst ≤ 10) :
    Reassembles checks (formatInsn insn variant)
      (.insn (16 * 0x8 + aluClass alu64) dst 0 0 0) := by
  have hlt := aluClass_lt alu64
  have hdiv : (16 * 0x8 + aluClass alu64) / 16 = 0x8 := by omega
  have htext : formatInsn insn variant =
      ("neg".toList ++ aluSuffix alu64) ++ ' ' :: regText dst := by
    rw [formatInsn_alu variant alu64 h.kind h.opcode (by omega), formatAlu, h.opcode, hdiv,
      if_neg (by decide), if_pos rfl, h.dst, aluSuffix]
    simp
  have hname : isName ("neg".toList ++ aluSuffix alu64) = true ∧ ∀ operands,
      assembleMnemonic checks ("neg".toList ++ aluSuffix alu64) operands =
        assembleAlu ("neg".toList ++ aluSuffix alu64) 0x8 (aluClass alu64) operands := by
    cases alu64 <;> exact ⟨by decide, fun _ => rfl⟩
  refine ⟨_, ?_, rfl⟩
  rw [htext, assembleSlot_one _ hname.1 (isWord_regText _).operand, hname.2, assembleAlu,
    if_pos rfl]
  simp only [unary, ok_bind, parseReg_regText hdst]
  rfl

section Alu

variable (hop : opNibble ∈ aluNibbles) (alu64 : Bool)
  (h : Shows insn (rhs.opcode opNibble (aluClass alu64)) dst rhs.src 0 rhs.value)

include hop h

theorem formatInsn_operation :
    formatInsn insn variant = (aluMnemonic opNibble variant ++ aluSuffix alu64) ++
      ' ' :: (regText dst ++ ", ".toList ++ rhs.text) := by
  have hlt := aluClass_lt alu64
  have hnibble := of_mem_aluNibbles hop
  rw [formatInsn_alu variant alu64 h.kind h.opcode (rhs.opcode_mod opNibble hlt), formatAlu,
    rhs.text_eq hlt h, h.opcode, rhs.opcode_div opNibble hlt, if_neg hnibble.2.1, if_neg hnibble.1,
    h.dst, aluSuffix]
  simp

theorem reassembles_alu (hdst : dst ≤ 10) (hrhs : rhs.Valid)
    (hsigned : variant = .sbfv2 ∨ opNibble < 0xe) :
    Reassembles checks (formatInsn insn variant)
      (.insn (rhs.opcode opNibble (aluClass alu64)) dst rhs.src 0 rhs.value) := by
  obtain ⟨hname, hassemble⟩ := assembleMnemonic_alu variant checks hop alu64 hsigned
  obtain ⟨value, hparse, hvalue⟩ := parseAluRhs_text hrhs
  refine ⟨.insn (rhs.opcode opNibble (aluClass alu64)) dst rhs.src 0 value, ?_, bytes_congr hvalue⟩
  rw [formatInsn_operation variant hop alu64 h, assembleSlot_two _ hname
    (isWord_regText _).operand (operand_rhsText rhs), hassemble, assembleAlu,
    if_neg (of_mem_aluNibbles hop).1]
  simp only [binary, ok_bind, parseReg_regText hdst, hparse]
  rfl

/-- A signed division outside of its dialect is shown with a mnemonic that is not one. -/
theorem not_reassembles_alu (hvariant : variant ≠ .sbfv2) (hsigned : 0xe ≤ opNibble) (slot : Slot) :
    ¬Reassembles checks (formatInsn insn variant) slot := by
  have hmnemonic : aluMnemonic opNibble variant = "<alu?>".toList := by
    have := of_mem_aluNibbles hop
    rcases (by omega : opNibble = 0xe ∨ opNibble = 0xf) with rfl | rfl <;>
      simp [aluMnemonic, hvariant]
  have hsuffix : aluSuffix alu64 = "64".toList ∨ aluSuffix alu64 = "32".toList := by
    cases alu64
    · exact .inr rfl
    · exact .inl rfl
  rintro ⟨slot', hslot, -⟩
  rw [formatInsn_operation variant hop alu64 h, hmnemonic] at hslot
  have htrim := trimmed_append (isWord_regText dst).operand ", ".toList (operand_rhsText rhs)
  rcases hsuffix with hs | hs <;>
    · rw [hs, assembleSlot_mnemonic checks (by simp [isWhitespace]) (by simp) (by simp)
        (by simp) htrim (by simp)] at hslot
      cases hslot

end Alu

end Reassembled

/-- A slot of a form, decoded alone and formatted, assembles to the same bytes, unless it is a
signed division in a dialect without it. -/
theorem Form.reassembles_iff {slot : Slot} (hform : Form slot) (checks : Bool) (addr : ℕ)
    (variant : BpfVariant) :
    Reassembles checks (formatInsn (decodeSingle addr slot.bytes variant) variant) slot ↔
      variant = .sbfv2 ∨ slot.isSignedDivision = false := by
  have hzero : IsI16 0 := by unfold IsI16; omega
  have hplain : ∀ {P Q : Prop}, P → slot.isSignedDivision = false →
      (P ↔ Q ∨ slot.isSignedDivision = false) := fun hp hs => iff_of_true hp (.inr hs)
  cases hform with
  | lddw hdst imm =>
    exact hplain (reassembles_lddw variant
      (shows_decodeSingle (by omega) hdst (by omega) hzero addr variant) hdst) rfl
  | lddwCont imm =>
    exact hplain (reassembles_lddwCont variant
      (shows_decodeSingle (by omega) (by omega) (by omega) hzero addr variant)) rfl
  | ldx hsize hdst hsrc hoff =>
    exact hplain (reassembles_ldx variant hsize
      (shows_decodeSingle (by omega) hdst hsrc hoff addr variant) hdst hsrc hoff)
      (by simp [isSignedDivision]; omega)
  | st hsize hdst hoff imm =>
    exact hplain (reassembles_st variant hsize
      (shows_decodeSingle (by omega) hdst (by omega) hoff addr variant) hdst hoff)
      (by simp [isSignedDivision]; omega)
  | stx hsize hdst hsrc hoff =>
    exact hplain (reassembles_stx variant hsize
      (shows_decodeSingle (by omega) hdst hsrc hoff addr variant) hdst hsrc hoff)
      (by simp [isSignedDivision]; omega)
  | endian hopcode hwidth hdst =>
    exact hplain (reassembles_endian variant hopcode hwidth
      (shows_decodeSingle (by omega) hdst (by omega) hzero addr variant) hdst)
      (by simp [isSignedDivision]; omega)
  | ja hoff =>
    exact hplain (reassembles_ja variant
      (shows_decodeSingle (by omega) (by omega) (by omega) hoff addr variant) hoff) rfl
  | call imm =>
    exact hplain (reassembles_call variant
      (shows_decodeSingle (by omega) (by omega) (by omega) hzero addr variant)) rfl
  | callx hdst =>
    exact hplain (reassembles_callx variant
      (shows_decodeSingle (by omega) hdst (by omega) hzero addr variant) hdst) rfl
  | exit =>
    exact hplain (reassembles_exit variant
      (shows_decodeSingle (by omega) (by omega) (by omega) hzero addr variant)) rfl
  | @jmp opNibble dst rhs off hop is32 hdst hrhs hoff =>
    have hnibble := of_mem_jmpNibbles hop
    have hclass := jmpClass_lt is32
    have hdiv := rhs.opcode_div opNibble hclass
    exact hplain (reassembles_jmp variant hop is32
      (shows_decodeSingle (rhs.opcode_lt hclass (by omega)) hdst hrhs.src_le hoff addr variant)
      hdst hrhs hoff) (by simp [isSignedDivision]; omega)
  | neg alu64 hdst =>
    have hclass := aluClass_lt alu64
    exact hplain (reassembles_neg variant alu64
      (shows_decodeSingle (by omega) hdst (by omega) hzero addr variant) hdst)
      (by simp [isSignedDivision]; omega)
  | @alu opNibble dst rhs hop alu64 hdst hrhs =>
    have hnibble := of_mem_aluNibbles hop
    have hclass := aluClass_lt alu64
    have hdiv := rhs.opcode_div opNibble hclass
    have hshows := @shows_decodeSingle _ dst rhs.src 0 rhs.value (rhs.opcode_lt hclass hnibble.2.2)
      hdst hrhs.src_le hzero addr variant
    have hsigned : (insn (rhs.opcode opNibble (aluClass alu64)) dst rhs.src 0
        rhs.value).isSignedDivision = false ↔ opNibble < 0xe := by
      simp only [isSignedDivision, decide_eq_false_iff_not]
      omega
    rw [hsigned]
    constructor
    · intro h
      by_contra hnot
      rw [not_or, not_lt] at hnot
      exact not_reassembles_alu variant hop alu64 hshows hnot.1 hnot.2 _ h
    · exact reassembles_alu variant hop alu64 hshows hdst hrhs

/-! ## Whole texts -/

/-- The bytes of one slot are decoded by themselves. -/
theorem decode_slot {bytes : Bytes} (hlen : bytes.length = 8) {addr : ℕ} (haddr : addr < wordSize)
    (variant : BpfVariant) : decode bytes addr variant = .ok [decodeSingle addr bytes variant] := by
  have htake : bytes.take 8 = bytes := take_of_length_le (by omega)
  have hsum : saturatingAdd addr 0 = addr := by
    unfold saturatingAdd
    omega
  unfold decode
  rw [if_neg (by omega), hlen]
  show Except.ok (decodeSlots addr variant 0 [bytes.take 8]) = _
  rw [htake, decodeSlots, hsum]

theorem assembleBpf_eq_ok {text : Text} {bytes : Bytes} :
    assembleBpf checks text = .ok bytes ↔
      ∃ slot, assembleSlot checks text = .ok slot ∧ slot.bytes = bytes := by
  unfold assembleBpf
  split
  next slot hslot => simp [hslot]
  next hslot => simp [hslot, fail]
  next hslot => simp [hslot]

/-- A text that is assembled, other than a placeholder and a call by its distance, is decoded to one
instruction, and the text of the instruction is assembled to the same bytes exactly if it is in the
dialect that has signed divisions or is not a signed division. -/
theorem assembleBpf_formatInsn_iff {checks : Bool} {text : Text} {bytes : Bytes}
    (h : assembleBpf checks text = .ok bytes) (hbpf : ¬"<bpf 0x".toList <+: trim text)
    (hinternal : mnemonicOf text ≠ "call_internal".toList)
    (hlocal : mnemonicOf text ≠ "call_local".toList) {addr : ℕ} (haddr : addr < wordSize)
    (variant : BpfVariant) :
    ∃ insn, decode bytes addr variant = .ok [insn] ∧
      (assembleBpf checks (formatInsn insn variant) = .ok bytes ↔
        variant = .sbfv2 ∨ mnemonicOf text ∉ signedDivisions) := by
  refine ⟨_, decode_slot (length_assembleBpf checks h) haddr variant, ?_⟩
  obtain ⟨slot, hslot, rfl⟩ := assembleBpf_eq_ok.1 h
  obtain ⟨hform, hsigned⟩ := form_assembleSlot hbpf hinternal hlocal hslot
  rw [assembleBpf_eq_ok, ← hsigned, Bool.not_eq_true]
  exact hform.reassembles_iff checks addr variant

/-- The condition at an addition in the dialect of Linux. -/
theorem assembleBpf_formatInsn_iff_add :
    ∃ insn, decode (Slot.insn 0x07 1 0 0 2).bytes 0x1000 .linux = .ok [insn] ∧
      (assembleBpf true (formatInsn insn .linux) = .ok (Slot.insn 0x07 1 0 0 2).bytes ↔
        BpfVariant.linux = .sbfv2 ∨ mnemonicOf "add64 r1, 2".toList ∉ signedDivisions) :=
  assembleBpf_formatInsn_iff (by rfl) (by decide) (by decide) (by decide) (by decide) .linux

/-- The signed division `sdiv64 r1, r2` is assembled, and its text in the dialect of Linux is
not. -/
theorem assembleBpf_formatInsn_sdiv :
    ∃ bytes insn, assembleBpf true "sdiv64 r1, r2".toList = .ok bytes ∧
      decode bytes 0 .linux = .ok [insn] ∧ formatInsn insn .linux = "<alu?>64 r1, r2".toList ∧
      ∀ bytes', assembleBpf true (formatInsn insn .linux) ≠ .ok bytes' := by
  refine ⟨(Slot.insn 0xef 1 2 0 0).bytes,
    decodeSingle 0 (Slot.insn 0xef 1 2 0 0).bytes .linux, rfl, rfl, rfl, fun bytes' h => ?_⟩
  cases h

/-! ## Calls -/

theorem notMem_toDec (n : ℕ) : 'x' ∉ toDec n := fun hmem => by
  have hdigit := Text.isSome_toDigit_of_ofDigitChars (Text.ofDigitChars_toDec n) 'x' hmem
  revert hdigit
  decide

theorem parseUint_toDec (hn : n < wordSize) (context : String) :
    parseUint (toDec n) context = .ok n := by
  have hword : IsWord (toDec n) := ⟨Text.toDec_ne_nil n, Text.isWordChar_toDec n⟩
  have hhead : ¬"0x".toList <+: toDec n := fun hpre => notMem_toDec n (hpre.subset (by simp))
  have hread : fromStrRadix wordSize 10 (toDec n) = some n :=
    Text.fromStrRadix_of_ofDigitChars (Text.toDec_ne_nil n) (Text.ofDigitChars_toDec n) hn
  simp only [parseUint, hword.trimmed.trim_eq, stripPrefix?, if_neg hhead, hread, expect_some]

/-- A distance in decimal is an operand, and it is read back. -/
theorem parseIntSigned_intToDec (h : IsI16 slots) (context : String) :
    Operand (intToDec slots) ∧ parseIntSigned (intToDec slots) context = .ok slots := by
  have hword : IsWord (toDec slots.natAbs) := ⟨toDec_ne_nil _, isWordChar_toDec _⟩
  have hlt : slots.natAbs < wordSize := by
    have : wordSize = 18446744073709551616 := rfl
    unfold IsI16 at h
    omega
  unfold IsI16 at h
  unfold intToDec
  split_ifs with hneg
  · have hoperand : Operand ('-' :: toDec slots.natAbs) := by
      refine ⟨.of_plain fun c hc => ?_, ⟨by simp; decide, fun c hc => ?_⟩, by simp⟩
      · rcases mem_cons.1 hc with rfl | hc
        · decide
        · exact plain_of_isWordChar (hword.2 c hc)
      · rw [List.getLast?_cons_of_ne_nil hword.1] at hc
        exact hword.trimmed.2 c hc
    have hstrip : stripPrefix? ('-' :: toDec slots.natAbs) ['-'] = some (toDec slots.natAbs) := by
      simp [stripPrefix?]
    refine ⟨hoperand, ?_⟩
    simp only [parseIntSigned, hoperand.trimmed.trim_eq, hstrip, parseUint_toDec hlt, ok_bind]
    rw [if_neg (by omega)]
    exact congrArg Except.ok (by omega)
  · have hminus : ¬['-'] <+: toDec slots.natAbs := fun hpre => by
      have hchar := hword.2 '-' (hpre.subset (by simp))
      revert hchar
      unfold IsWordChar
      decide
    refine ⟨hword.operand, ?_⟩
    simp only [parseIntSigned, hword.trimmed.trim_eq, stripPrefix?, if_neg hminus, parseInt,
      parseUint_toDec hlt, ok_bind]
    rw [if_neg (by omega)]
    exact congrArg Except.ok (by omega)

/-- A call by its distance is assembled to the slot of the distance. -/
theorem assembleBpf_callInternal (checks : Bool) (h : IsI16 slots) :
    assembleBpf checks ("call_internal".toList ++ [' '] ++ intToDec slots) =
      .ok (insn 0x85 0 1 0 slots).bytes := by
  obtain ⟨hoperand, hparse⟩ := parseIntSigned_intToDec h "call"
  refine assembleBpf_eq_ok.2 ⟨.insn 0x85 0 1 0 slots, ?_, rfl⟩
  rw [append_assoc, singleton_append, assembleSlot_one _ (by decide) hoperand]
  show assembleCall _ _ = _
  simp only [assembleCall, unary, ok_bind, hparse]
  rfl

/-- The distance to a target that was computed from a distance. -/
theorem slotDelta_targetAt (addr : ℕ) (hslots : -2 ^ 31 ≤ slots ∧ slots < 2 ^ 31) :
    slotDelta addr (targetAt addr slots) = slots * 8 := by
  have hword : wordSize = 18446744073709551616 := rfl
  unfold slotDelta targetAt toI64
  rw [hword]
  split_ifs <;> omega

theorem slotOffset_targetAt (addr : ℕ) (hslots : -2 ^ 31 ≤ slots ∧ slots < 2 ^ 31) :
    slotOffset addr (targetAt addr slots) =
      if -2 ^ 15 ≤ slots ∧ slots < 2 ^ 15 then .ok slots
      else fail (.outOfRange (.slotOverflow slots)) := by
  unfold slotOffset
  simp only [slotDelta_targetAt addr hslots]
  rw [if_neg (by omega), Int.mul_ediv_cancel _ (by omega)]

/-- The target of a call, as the decoder computes it. -/
theorem callTarget_decodeSingle {dst : ℕ} {off imm : ℤ} (hdst : dst < 16) (hoff : IsI16 off)
    (himm : -2 ^ 31 ≤ imm ∧ imm < 2 ^ 31) (addr : ℕ) (variant : BpfVariant) :
    callTarget (decodeSingle addr (insn 0x85 dst 1 off imm).bytes variant) =
      targetAt addr imm := by
  have hsigned : signedWord 32 (imm % 2 ^ 32).toNat = imm := by
    unfold signedWord
    split_ifs with hlt <;> simp only [Nat.reduceSub, Nat.reducePow] at hlt <;> omega
  unfold callTarget decodeSingle
  rw [decodeSlot_bytes (by omega) hdst (by omega) hoff, hsigned]

/-- The codec on the target of a call. -/
theorem encodeCall_targetAt (checks : Bool) (addr : ℕ) {imm : ℤ}
    (himm : -2 ^ 31 ≤ imm ∧ imm < 2 ^ 31) :
    encodeCall checks addr (targetAt addr imm) .default =
      if -2 ^ 15 ≤ imm ∧ imm < 2 ^ 15 then .ok (insn 0x85 0 1 0 imm).bytes
      else fail (.outOfRange (.slotOverflow imm)) := by
  rw [encodeCall, slotOffset_targetAt addr himm]
  by_cases hrange : -2 ^ 15 ≤ imm ∧ imm < 2 ^ 15
  · rw [if_pos hrange, if_pos hrange]
    exact assembleBpf_callInternal checks hrange
  · rw [if_neg hrange, if_neg hrange]
    rfl

/-- Two slots with the same bytes have the same fields. -/
theorem fields_of_bytes {opcode dst src dst' src' : ℕ} {off imm off' imm' : ℤ}
    (hopcode : opcode < 256)
    (hdst : dst < 16) (hsrc : src < 16) (hoff : IsI16 off) (hdst' : dst' < 16) (hsrc' : src' < 16)
    (hoff' : IsI16 off')
    (h : (insn opcode dst src off imm).bytes = (insn opcode dst' src' off' imm').bytes) :
    dst = dst' ∧ src = src' ∧ off = off' := by
  have h1 := @decodeSlot_bytes opcode dst src off imm hopcode hdst hsrc hoff 0 .call none
  have h2 := @decodeSlot_bytes opcode dst' src' off' imm' hopcode hdst' hsrc' hoff' 0 .call none
  rw [h, h2] at h1
  simp only [DecodedInsn.mk.injEq] at h1
  tauto

/-- A call within the program, decoded and encoded again from the target that the decoder computes,
gives the same bytes exactly if its unused fields are zero and its distance fits in the field of a
jump. -/
theorem encodeCall_callTarget_iff (checks : Bool) (variant : BpfVariant) {addr dst : ℕ}
    {off imm : ℤ} (haddr : addr < wordSize) (hdst : dst < 16) (hoff : IsI16 off)
    (himm : -2 ^ 31 ≤ imm ∧ imm < 2 ^ 31) :
    ∃ insn, decode (Slot.insn 0x85 dst 1 off imm).bytes addr variant = .ok [insn] ∧
      (encodeCall checks addr (callTarget insn) .default =
          .ok (Slot.insn 0x85 dst 1 off imm).bytes ↔
        dst = 0 ∧ off = 0 ∧ -2 ^ 15 ≤ imm ∧ imm < 2 ^ 15) := by
  have hzero : IsI16 0 := by unfold IsI16; omega
  refine ⟨_, decode_slot (Slot.length_bytes _) haddr variant, ?_⟩
  rw [callTarget_decodeSingle hdst hoff himm, encodeCall_targetAt checks addr himm]
  split_ifs with hrange
  · constructor
    · intro h
      obtain ⟨hd, -, ho⟩ := fields_of_bytes (by omega) (by omega) (by omega) hzero hdst (by omega)
        hoff (Except.ok.inj h)
      exact ⟨hd.symm, ho.symm, hrange⟩
    · rintro ⟨rfl, rfl, -⟩
      rfl
  · exact iff_of_false (by rintro ⟨⟩) fun h => hrange h.2.2

/-- A call three slots back is encoded again. With a register and an offset in the unused fields it
is not. -/
theorem encodeCall_callTarget_iff_back :
    (∃ insn, decode (Slot.insn 0x85 0 1 0 (-4)).bytes 0x1000 .sbfv2 = .ok [insn] ∧
      encodeCall true 0x1000 (callTarget insn) .default =
        .ok (Slot.insn 0x85 0 1 0 (-4)).bytes) ∧
    ∃ insn, decode (Slot.insn 0x85 2 1 5 (-4)).bytes 0x1000 .sbfv2 = .ok [insn] ∧
      encodeCall true 0x1000 (callTarget insn) .default ≠
        .ok (Slot.insn 0x85 2 1 5 (-4)).bytes := by
  constructor
  · have hzero : IsI16 0 := by unfold IsI16; decide
    obtain ⟨insn, hdecode, hiff⟩ := @encodeCall_callTarget_iff true .sbfv2 0x1000 0 0 (-4)
      (by decide)
      (by decide) hzero (by decide)
    exact ⟨insn, hdecode, hiff.2 (by decide)⟩
  · have hfive : IsI16 5 := by unfold IsI16; decide
    obtain ⟨insn, hdecode, hiff⟩ := @encodeCall_callTarget_iff true .sbfv2 0x1000 2 5 (-4)
      (by decide)
      (by decide) hfive (by decide)
    exact ⟨insn, hdecode, fun h => absurd (hiff.1 h) (by decide)⟩

/-- A call over 32768 slots is decoded, and the codec does not encode it. -/
theorem encodeCall_callTarget_far :
    ∃ insn, decode (Slot.insn 0x85 0 1 0 0x8000).bytes 0x1000 .sbfv2 = .ok [insn] ∧
      encodeCall true 0x1000 (callTarget insn) .default =
        fail (.outOfRange (.slotOverflow 0x8000)) := by
  refine ⟨_, decode_slot (Slot.length_bytes _) (by decide) _, ?_⟩
  rw [callTarget_decodeSingle (by decide) (by unfold IsI16; decide) (by decide),
    encodeCall_targetAt true 0x1000 (by decide)]
  exact if_neg (by decide)

end Univdreams.Arch.Bpf
