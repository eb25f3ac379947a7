import Univdreams.Tiling
import Univdreams.Arch.Evm

/-!
# Decoded EVM instructions

The linear decoder of `src/arch/evm/mod.rs`. An instruction is its opcode and the immediate bytes
that are there: the structure carries the fact that they are no more than the opcode asks for, so
that an instruction differs from its encoding only where the end of the code has cut a push short.

`flatMap_decodeRange` and `contig_decodeRange` say that a decoded range is the range: its
instructions put together, each where the one before it ends. `bytes_of_pushValue` is the other
direction for one instruction: a push of a known value is the encoding of that value.
-/

namespace Univdreams.Evm

open List

/-- `DecodedInsn`: one decoded instruction. -/
structure DecodedInsn where
  /-- The code offset of the opcode. -/
  addr : ℕ
  /-- The opcode. -/
  opcode : UInt8
  /-- The immediate bytes that are present. -/
  immediate : Bytes
  /-- There are no more immediate bytes than the opcode has. -/
  immediate_le : immediate.length ≤ (opInfo opcode).immLen
deriving DecidableEq, Repr

/-- `JUMPDEST`. -/
def jumpdest : UInt8 := 0x5b

namespace DecodedInsn

variable (i : DecodedInsn)

/-- `info`: the static description of the opcode. -/
def info : OpInfo := opInfo i.opcode

/-- `original_bytes`: the opcode and its immediate. -/
def originalBytes : Bytes := i.opcode :: i.immediate

/-- `is_truncated`: the end of the code has cut the immediate short. -/
def isTruncated : Bool := i.originalBytes.length < 1 + i.info.immLen

/-- `push_value`: the value that a complete push leaves, when it fits 64 bits. -/
def pushValue : Option ℕ :=
  if ¬(0x5f ≤ i.opcode ∧ i.opcode ≤ 0x7f) ∨ i.isTruncated then none
  else if 8 < (stripZeros i.immediate).length then none
  else some (ofBe i.immediate)

/-- `next_addr`: the offset behind the instruction. -/
def nextAddr : ℕ := i.addr + i.originalBytes.length

/-- The bytes an instruction occupies. -/
def extent : Extent := ⟨i.addr, i.originalBytes.length⟩

@[simp] theorem length_originalBytes : i.originalBytes.length = i.immediate.length + 1 := rfl

@[simp] theorem extent_stop : i.extent.stop = i.nextAddr := rfl

theorem isTruncated_eq_false {i : DecodedInsn} :
    i.isTruncated = false ↔ i.immediate.length = (opInfo i.opcode).immLen := by
  have hle := i.immediate_le
  rw [isTruncated, decide_eq_false_iff_not, length_originalBytes, info]
  omega

end DecodedInsn

variable (bytes : Bytes)

/-- `decode_one`: the instruction at the front of the bytes, whose offset is `addr`. -/
def decodeOne (addr : ℕ) : Option DecodedInsn :=
  match bytes with
  | [] => none
  | op :: rest => some ⟨addr, op, rest.take (opInfo op).immLen, List.length_take_le _ _⟩

/-- The loop of `decode_range`. Every round takes a byte, so the number of bytes is enough fuel. -/
def decodeRangeLoop : ℕ → Bytes → ℕ → List DecodedInsn
  | 0, _, _ => []
  | fuel + 1, bytes, addr => match decodeOne bytes addr with
    | none => []
    | some i => i :: decodeRangeLoop fuel (bytes.drop i.originalBytes.length) i.nextAddr

/-- `decode_range`: the instructions of the bytes, the first of which is at the offset `start`. -/
def decodeRange (start : ℕ) : List DecodedInsn :=
  decodeRangeLoop bytes.length bytes start

/-- `InsnKind`: what an instruction does to the control flow. -/
inductive InsnKind where
  /-- A jump to the top of the stack. -/
  | jump
  /-- A conditional jump. -/
  | jumpI
  /-- A jump destination. -/
  | jumpDest
  /-- An instruction that ends the call. -/
  | halt
  /-- Any other instruction. -/
  | other
deriving DecidableEq, Repr

/-- `classify`. -/
def classify (i : DecodedInsn) : InsnKind :=
  if i.opcode = 0x56 then .jump
  else if i.opcode = 0x57 then .jumpI
  else if i.opcode = jumpdest then .jumpDest
  else if i.opcode ∈ [0x00, 0xf3, 0xfd, 0xfe, 0xff] then .halt
  else if ¬(opInfo i.opcode).isDefined then .halt
  else .other

/-! ## A decoded range is the range -/

/-- The first instruction of a range that is not empty, and the rest of the range. -/
theorem decodeOne_cons (op : UInt8) (rest : Bytes) (addr : ℕ) :
    ∃ i, decodeOne (op :: rest) addr = some i ∧ i.addr = addr ∧
      op :: rest = i.originalBytes ++ (op :: rest).drop i.originalBytes.length := by
  refine ⟨_, rfl, rfl, ?_⟩
  simp only [DecodedInsn.originalBytes, length_cons, drop_succ_cons, cons_append,
    List.cons.injEq, true_and, length_take]
  rcases le_total (opInfo op).immLen rest.length with h | h
  · rw [min_eq_left h, take_append_drop]
  · rw [min_eq_right h, take_of_length_le h, drop_length, append_nil]

/-- The bytes of the decoded instructions are the bytes decoded. -/
theorem flatMap_decodeRangeLoop : ∀ (fuel : ℕ) (bytes : Bytes) (addr : ℕ), bytes.length ≤ fuel →
    (decodeRangeLoop fuel bytes addr).flatMap DecodedInsn.originalBytes = bytes
  | 0, bytes, _, h => by
    have hnil : bytes = [] := length_eq_zero_iff.1 (Nat.le_zero.1 h)
    rw [hnil]
    rfl
  | fuel + 1, [], _, _ => rfl
  | fuel + 1, op :: rest, addr, h => by
    obtain ⟨i, hi, -, hsplit⟩ := decodeOne_cons op rest addr
    have hlen := congrArg List.length hsplit
    have hloop : decodeRangeLoop (fuel + 1) (op :: rest) addr =
        i :: decodeRangeLoop fuel ((op :: rest).drop i.originalBytes.length) i.nextAddr := by
      rw [decodeRangeLoop, hi]
    rw [hloop, flatMap_cons, flatMap_decodeRangeLoop fuel, ← hsplit]
    simp only [length_drop, DecodedInsn.length_originalBytes] at *
    omega

/-- The instructions of a range put together are the range. -/
theorem flatMap_decodeRange (start : ℕ) :
    (decodeRange bytes start).flatMap DecodedInsn.originalBytes = bytes :=
  flatMap_decodeRangeLoop _ _ _ le_rfl

/-- The decoded instructions lie end to end. -/
theorem contig_decodeRangeLoop : ∀ (fuel : ℕ) (bytes : Bytes) (addr : ℕ), bytes.length ≤ fuel →
    Contig addr ((decodeRangeLoop fuel bytes addr).map DecodedInsn.extent) (addr + bytes.length)
  | 0, bytes, addr, h => by
    have hzero : bytes.length = 0 := Nat.le_zero.1 h
    rw [hzero]
    exact rfl
  | fuel + 1, [], _, _ => rfl
  | fuel + 1, op :: rest, addr, h => by
    obtain ⟨i, hi, haddr, hsplit⟩ := decodeOne_cons op rest addr
    have hlen := congrArg List.length hsplit
    rw [length_append] at hlen
    have hloop : decodeRangeLoop (fuel + 1) (op :: rest) addr =
        i :: decodeRangeLoop fuel ((op :: rest).drop i.originalBytes.length) i.nextAddr := by
      rw [decodeRangeLoop, hi]
    have hnext : i.nextAddr = addr + i.originalBytes.length := by rw [DecodedInsn.nextAddr, haddr]
    have hfuel : ((op :: rest).drop i.originalBytes.length).length ≤ fuel := by
      simp only [DecodedInsn.length_originalBytes] at hlen ⊢
      omega
    have ih := contig_decodeRangeLoop fuel _ i.nextAddr hfuel
    rw [hloop]
    refine ⟨haddr, ?_⟩
    rw [DecodedInsn.extent_stop]
    have hend : addr + (op :: rest).length =
        i.nextAddr + ((op :: rest).drop i.originalBytes.length).length := by omega
    rw [hend]
    exact ih

/-- The instructions of a range follow one another from its start to its end. -/
theorem contig_decodeRange (start : ℕ) :
    Contig start ((decodeRange bytes start).map DecodedInsn.extent) (start + bytes.length) :=
  contig_decodeRangeLoop _ _ _ le_rfl

/-! ## Pushes -/

theorem immLen_push {op : UInt8} (h : 0x60 ≤ op ∧ op ≤ 0x7f) :
    (opInfo op).immLen = (op - 0x5f).toNat := by
  rw [opInfo, if_pos h]

/-- Only the pushes have immediate bytes. -/
theorem immLen_of_not_push {op : UInt8} (h : ¬(0x60 ≤ op ∧ op ≤ 0x7f)) :
    (opInfo op).immLen = 0 := by
  rw [opInfo, if_neg h]
  split_ifs
  · rfl
  · rfl
  · rfl
  · cases singleOps.lookup op <;> rfl

/-- The opcode of a push tells the number of its immediate bytes. -/
theorem opcode_of_push {op : UInt8} (h : 0x5f ≤ op ∧ op ≤ 0x7f) :
    op = 0x5f + UInt8.ofNat (opInfo op).immLen := by
  by_cases hpos : 0x60 ≤ op ∧ op ≤ 0x7f
  · rw [immLen_push hpos, UInt8.ofNat_toNat]
    grind
  have hop : op = 0x5f := by
    have hlt : ¬0x60 ≤ op := fun hle => hpos ⟨hle, h.2⟩
    have hge := h.1
    grind
  rw [immLen_of_not_push hpos, hop]
  rfl

namespace DecodedInsn

/-- A push has a value when its immediate is whole and fits 64 bits. -/
theorem pushValue_eq_some {i : DecodedInsn} {v : ℕ} : i.pushValue = some v ↔
    (0x5f ≤ i.opcode ∧ i.opcode ≤ 0x7f) ∧ i.immediate.length = (opInfo i.opcode).immLen ∧
      (stripZeros i.immediate).length ≤ 8 ∧ ofBe i.immediate = v := by
  rw [← isTruncated_eq_false, pushValue]
  split_ifs with hpush hlen
  · simp only [false_iff]
    rintro ⟨hop, htrunc, -⟩
    rcases hpush with h | h
    · exact h hop
    · rw [htrunc] at h
      exact Bool.false_ne_true h
  · simp only [false_iff]
    rintro ⟨-, -, hle, -⟩
    omega
  · push Not at hpush
    simp only [Option.some.injEq]
    exact ⟨fun h => ⟨hpush.1, Bool.eq_false_of_not_eq_true hpush.2, by omega, h⟩, fun h => h.2.2.2⟩

/-- A push whose value is known is the encoding of the value. -/
theorem bytes_of_pushValue {i : DecodedInsn} {v : ℕ} (h : i.pushValue = some v) :
    i.originalBytes = (0x5f + UInt8.ofNat i.info.immLen) :: toBe i.info.immLen v := by
  obtain ⟨hop, hlen, -, hv⟩ := pushValue_eq_some.1 h
  have htoBe : toBe (opInfo i.opcode).immLen v = i.immediate := by
    rw [← hlen, ← hv, toBe_ofBe]
  rw [originalBytes, info, htoBe, ← opcode_of_push hop]

end DecodedInsn

end Univdreams.Evm
