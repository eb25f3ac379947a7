import Univdreams.Arch.Prologue

/-!
# Decoding prologues and epilogues of x86 functions

The decoding half of `src/arch/x86/prologue_codec.rs`. The decompiler gives a prologue or an
epilogue by its parameters when the encoder makes exactly its bytes of these, and by its bytes
otherwise. The decoder goes through the bytes once. Here each of its steps takes what is left of
them.
-/

namespace Univdreams.Arch.X86

open Option List

variable {bits : CodecBits} {bytes : Bytes}

/-! ## Registers -/

/-- The names of the registers, by their numbers in an opcode. Those that need a REX prefix come
second. -/
def registerNames : List Text :=
  ["eax".toList, "ecx".toList, "edx".toList, "ebx".toList, "esp".toList, "ebp".toList,
    "esi".toList, "edi".toList, "r8".toList, "r9".toList, "r10".toList, "r11".toList,
    "r12".toList, "r13".toList, "r14".toList, "r15".toList]

/-- `reg_name_for_opcode_index`. -/
def regNameForOpcodeIndex (n : UInt8) : Option Text := registerNames[n.toNat]?

/-- `push_reg_name` (`opcode = 0x50`) and `pop_reg_name` (`opcode = 0x58`). -/
def regName (opcode b : UInt8) (rexB : Bool) : Option Text :=
  regNameForOpcodeIndex ((b - opcode) ||| if rexB then 8 else 0)

/-- Whether `b` is one of the eight opcodes from `opcode` on. -/
def isRegOpcode (opcode b : UInt8) : Bool := opcode ≤ b && b ≤ opcode + 7

/-- The loop over pushes or pops: the registers, and the bytes behind them. -/
def decodeRegs (opcode : UInt8) (bits : CodecBits) : Bytes → Option (List Text × Bytes)
  | [] => some ([], [])
  | [b] =>
    if isRegOpcode opcode b then do
      let name ← regName opcode b false
      return ([name], [])
    else some ([], [b])
  | b :: c :: rest =>
    if isRegOpcode opcode b then do
      let name ← regName opcode b false
      let r ← decodeRegs opcode bits (c :: rest)
      return (name :: r.1, r.2)
    else if bits = .bits64 ∧ b = 0x41 ∧ isRegOpcode opcode c then do
      let name ← regName opcode c true
      let r ← decodeRegs opcode bits rest
      return (name :: r.1, r.2)
    else some ([], b :: c :: rest)

/-- Whether the last register is the frame pointer. -/
def lastIsFrame (names : List Text) : Bool :=
  names.getLast? = some "ebp".toList || names.getLast? = some "rbp".toList

/-! ## The other parts -/

/-- `mov_bp_sp_len`. -/
def movBpSpLen : CodecBits → ℕ
  | .bits32 => 2
  | .bits64 => 3

/-- `mov_bp_sp_form`. -/
def movBpSpForm (b : Bytes) (bits : CodecBits) : Option Bool :=
  if b = movBpSp bits false then some false
  else if b = movBpSp bits true then some true
  else none

/-- An addition to or a subtraction from the stack pointer: its immediate and its length. -/
def parseEsp (modrm : UInt8) (bytes : Bytes) (bits : CodecBits) : Option (ℕ × ℕ) :=
  let offset := if bits = .bits64 then 1 else 0
  let rest := bytes.drop offset
  if bits = .bits64 ∧ bytes.head? ≠ some 0x48 then none
  else if rest[0]? = some 0x83 ∧ rest[1]? = some modrm then
    rest[2]?.map fun imm => (imm.toNat, offset + 3)
  else if rest[0]? = some 0x81 ∧ rest[1]? = some modrm then
    if 6 ≤ rest.length then some (ofLe ((rest.drop 2).take 4), offset + 6) else none
  else none

/-- `parse_sub_esp`. -/
def parseSubEsp (bytes : Bytes) (bits : CodecBits) : Option (ℕ × ℕ) := parseEsp 0xec bytes bits

/-- `parse_add_esp`. -/
def parseAddEsp (bytes : Bytes) (bits : CodecBits) : Option (ℕ × ℕ) := parseEsp 0xc4 bytes bits

/-- A return: the bytes that it removes from the stack, and what is behind it. -/
def decodeRet (bytes : Bytes) : Option (ℕ × Bytes) :=
  if bytes[0]? = some 0xc3 then some (0, bytes.drop 1)
  else if bytes[0]? = some 0xc2 then
    if 3 ≤ bytes.length then some (ofLe ((bytes.drop 1).take 2), bytes.drop 3) else none
  else none

/-! ## Prologues and epilogues -/

/-- `decode_prologue`. -/
def decodePrologue (bytes : Bytes) (bits : CodecBits) : Option StructuredPrologue := do
  let cf := decide (bytes.take 4 = endbr bits)
  let pushes ← decodeRegs 0x50 bits (if cf then bytes.drop 4 else bytes)
  -- A push of the frame pointer in front of the move belongs to the frame.
  let frame := if lastIsFrame pushes.1 then
    movBpSpForm (pushes.2.take (movBpSpLen bits)) bits else none
  let rest := if frame.isSome then pushes.2.drop (movBpSpLen bits) else pushes.2
  let sub := parseSubEsp rest bits
  let after ← decodeRegs 0x50 bits (rest.drop ((sub.map Prod.snd).getD 0))
  if after.2 = [] then
    some {
      saves := if frame.isSome then pushes.1.dropLast else pushes.1
      saves_after := after.1
      frame := frame.isSome
      sub_esp := (sub.map Prod.fst).getD 0
      cf_protect := cf
      frame_alt_encoding := frame.getD false }
  else none

/-- `decode_epilogue`. -/
def decodeEpilogue (bytes : Bytes) (bits : CodecBits) : Option StructuredEpilogue := do
  let pops ← decodeRegs 0x58 bits bytes
  let add := parseAddEsp pops.2 bits
  let rest := pops.2.drop ((add.map Prod.snd).getD 0)
  let leave := decide (rest.head? = some 0xc9)
  let popFrame := !leave && lastIsFrame pops.1
  let ret ← decodeRet (if leave then rest.drop 1 else rest)
  if ret.2 = [] then
    some {
      saves := if popFrame then pops.1.dropLast else pops.1
      leave := leave
      pop_frame := popFrame
      add_esp := (add.map Prod.fst).getD 0
      ret_imm := ret.1 }
  else none

/-- `prologue_roundtrips`: the parameters that encode to a prologue's bytes. The encoder may
panic. -/
def prologueRoundtrips (bytes : Bytes) (bits : CodecBits) : Option (Option StructuredPrologue) :=
  match decodePrologue bytes bits with
  | none => some none
  | some p => (encodePrologue p bits).map fun out => if out = bytes then some p else none

/-- `epilogue_roundtrips`. -/
def epilogueRoundtrips (bytes : Bytes) (bits : CodecBits) : Option (Option StructuredEpilogue) :=
  match decodeEpilogue bytes bits with
  | none => some none
  | some e => (encodeEpilogue e bits).map fun out => if out = bytes then some e else none

/-! ## What the decoder gives -/

/-- The registers that the decoder can name in a width. -/
def IsDecodedName (bits : CodecBits) (name : Text) : Prop :=
  name ∈ registerNames ∧ (bits = .bits32 → name ∈ registerNames.take 8)

/-- The name that an opcode gives is one of the registers. -/
theorem regName_eq_some {opcode b : UInt8} (hop : opcode.toNat + 7 < 256) {rexB : Bool}
    {name : Text} (hb : isRegOpcode opcode b) (h : regName opcode b rexB = some name) :
    name ∈ registerNames ∧ (rexB = false → name ∈ registerNames.take 8) := by
  simp only [regName, regNameForOpcodeIndex] at h
  refine ⟨mem_of_getElem? h, ?_⟩
  rintro rfl
  simp only [isRegOpcode, Bool.and_eq_true, decide_eq_true_eq, UInt8.le_iff_toNat_le,
    UInt8.toNat_add] at hb
  have hseven : (7 : UInt8).toNat = 7 := rfl
  have hsub : (b - opcode).toNat = b.toNat - opcode.toNat :=
    UInt8.toNat_sub_of_le b opcode (UInt8.le_iff_toNat_le.2 hb.1)
  have hlt : (b - opcode).toNat < 8 := by omega
  simp only [Bool.false_eq_true, if_false, UInt8.or_zero] at h
  rw [← List.getElem?_take_of_lt hlt] at h
  exact mem_of_getElem? h

/-- The registers that the loop finds have names. -/
theorem decodeRegs_names {opcode : UInt8} (hop : opcode.toNat + 7 < 256) {r : List Text × Bytes}
    (h : decodeRegs opcode bits bytes = some r) :
    ∀ name ∈ r.1, IsDecodedName bits name := by
  have hone : ∀ {b name}, isRegOpcode opcode b → regName opcode b false = some name →
      IsDecodedName bits name := by
    intro b name hb hname
    obtain ⟨hmem, hlow⟩ := regName_eq_some hop hb hname
    exact ⟨hmem, fun _ => hlow rfl⟩
  have hcons : ∀ {name : Text} {names : List Text}, IsDecodedName bits name →
      (∀ n ∈ names, IsDecodedName bits n) → ∀ n ∈ name :: names, IsDecodedName bits n := by
    intro name names hname hnames n hn
    rcases mem_cons.1 hn with rfl | hn
    · exact hname
    · exact hnames n hn
  induction bytes using decodeRegs.induct opcode bits generalizing r with
  | case1 =>
    cases h
    simp
  | case2 b hb =>
    rw [decodeRegs, if_pos hb] at h
    obtain ⟨name, hname, rfl⟩ := steps₁_eq_some.1 h
    exact hcons (hone hb hname) (by simp)
  | case3 b hb =>
    rw [decodeRegs, if_neg hb] at h
    cases h
    simp
  | case4 b c rest hb ih =>
    rw [decodeRegs, if_pos hb] at h
    obtain ⟨name, r', hname, hr', rfl⟩ := steps₂_eq_some.1 h
    exact hcons (hone hb hname) (ih hr')
  | case5 b c rest hb hrex ih =>
    rw [decodeRegs, if_neg hb, if_pos hrex] at h
    obtain ⟨name, r', hname, hr', rfl⟩ := steps₂_eq_some.1 h
    -- A register with a REX prefix is found in 64-bit code only.
    have hmem := (regName_eq_some hop hrex.2.2 hname).1
    exact hcons ⟨hmem, fun h32 => by rw [hrex.1] at h32; cases h32⟩ (ih hr')
  | case6 b c rest hb hrex =>
    rw [decodeRegs, if_neg hb, if_neg hrex] at h
    cases h
    simp

/-- The amount of a stack adjustment fits 32 bits. -/
theorem parseEsp_lt {modrm : UInt8} :
    ((parseEsp modrm bytes bits).map Prod.fst).getD 0 < 2 ^ 32 := by
  unfold parseEsp
  dsimp only
  generalize (if bits = CodecBits.bits64 then 1 else 0 : ℕ) = offset
  generalize bytes.drop offset = rest
  split_ifs
  · simp
  · cases rest[2]? with
    | none => simp
    | some imm =>
      have hlt := imm.toNat_lt
      simp only [map_some, getD_some]
      omega
  · have hlt := ofLe_lt ((rest.drop 2).take 4)
    have hle : 256 ^ ((rest.drop 2).take 4).length ≤ 256 ^ 4 :=
      Nat.pow_le_pow_right (by decide) (length_take_le ..)
    simp only [map_some, getD_some]
    omega
  · simp
  · simp

theorem decodeRet_lt {r : ℕ × Bytes} (h : decodeRet bytes = some r) : r.1 < 2 ^ 16 := by
  unfold decodeRet at h
  split_ifs at h
  · cases h
    exact Nat.two_pow_pos 16
  cases h
  have hlt := ofLe_lt ((bytes.drop 1).take 2)
  have hle : 256 ^ ((bytes.drop 1).take 2).length ≤ 256 ^ 2 :=
    Nat.pow_le_pow_right (by decide) (length_take_le ..)
  omega

/-- Parameters of a prologue that the text can give. -/
structure StructuredPrologue.Decoded (bits : CodecBits) (p : StructuredPrologue) : Prop where
  saves : ∀ name ∈ p.saves, IsDecodedName bits name
  saves_after : ∀ name ∈ p.saves_after, IsDecodedName bits name
  alt : p.frame_alt_encoding = true → p.frame = true
  sub : p.sub_esp < 2 ^ 32

/-- Parameters of an epilogue that the text can give. -/
structure StructuredEpilogue.Decoded (bits : CodecBits) (e : StructuredEpilogue) : Prop where
  saves : ∀ name ∈ e.saves, IsDecodedName bits name
  leave : e.leave = true → e.pop_frame = false
  add : e.add_esp < 2 ^ 32
  ret : e.ret_imm < 2 ^ 16

/-- What the decoder of prologues gives is in its range. -/
theorem decoded_of_decodePrologue {p : StructuredPrologue}
    (h : decodePrologue bytes bits = some p) : p.Decoded bits := by
  obtain ⟨pushes, hpushes, h⟩ := bind_eq_some_iff.1 h
  obtain ⟨after, hafter, h⟩ := bind_eq_some_iff.1 h
  rw [ite_none_right_eq_some] at h
  obtain ⟨-, h⟩ := h
  cases h
  have hnames := decodeRegs_names (by decide) hpushes
  generalize (if lastIsFrame pushes.1 = true then
    movBpSpForm (pushes.2.take (movBpSpLen bits)) bits else none) = frame at hafter ⊢
  refine ⟨?_, decodeRegs_names (by decide) hafter, ?_, parseEsp_lt⟩
  · intro name hname
    split at hname
    · exact hnames name (dropLast_subset _ hname)
    · exact hnames name hname
  intro halt
  cases frame with
  | none => cases halt
  | some alt => rfl

/-- What the decoder of epilogues gives is in its range. -/
theorem decoded_of_decodeEpilogue {e : StructuredEpilogue}
    (h : decodeEpilogue bytes bits = some e) : e.Decoded bits := by
  obtain ⟨pops, hpops, h⟩ := bind_eq_some_iff.1 h
  obtain ⟨ret, hret, h⟩ := bind_eq_some_iff.1 h
  rw [ite_none_right_eq_some] at h
  obtain ⟨-, h⟩ := h
  cases h
  have hnames := decodeRegs_names (by decide) hpops
  refine ⟨?_, ?_, parseEsp_lt, decodeRet_lt hret⟩
  · intro name hname
    split at hname
    · exact hnames name (dropLast_subset _ hname)
    · exact hnames name hname
  intro hleave
  dsimp only at hleave ⊢
  rw [hleave]
  rfl

/-! ## Encoding what was decoded -/

/-- A decoded register can be encoded. -/
theorem exists_regEncoded (opcode : UInt8) {name : Text}
    (h : IsDecodedName bits name) : ∃ bs, regEncoded opcode bits name = some bs := by
  have hlow : ∀ name ∈ registerNames.take 8,
      ((encodeIndexOf name).map Prod.snd).getD false = false := by decide
  unfold regEncoded
  cases hidx : encodeIndexOf name with
  | none => exact ⟨_, rfl⟩
  | some r =>
    obtain ⟨idx, rex⟩ := r
    cases rex with
    | false => exact ⟨_, rfl⟩
    | true =>
      cases bits with
      | bits64 => exact ⟨_, rfl⟩
      | bits32 =>
        have := hlow name (h.2 rfl)
        rw [hidx] at this
        cases this

theorem exists_regsEncoded (opcode : UInt8) {names : List Text}
    (h : ∀ name ∈ names, IsDecodedName bits name) :
    ∃ bss, names.mapM (regEncoded opcode bits) = some bss := by
  induction names with
  | nil => exact ⟨[], rfl⟩
  | cons name names ih =>
    obtain ⟨bs, hbs⟩ := exists_regEncoded opcode (h name (by simp))
    obtain ⟨bss, hbss⟩ := ih fun n hn => h n (mem_cons_of_mem _ hn)
    exact ⟨bs :: bss, by rw [mapM_cons, hbs, hbss]; rfl⟩

/-- The comparison with the bytes never panics. -/
theorem exists_prologueRoundtrips (bytes : Bytes) (bits : CodecBits) :
    ∃ r, prologueRoundtrips bytes bits = some r := by
  unfold prologueRoundtrips
  cases hdec : decodePrologue bytes bits with
  | none => exact ⟨none, rfl⟩
  | some p =>
    have hp := decoded_of_decodePrologue hdec
    obtain ⟨saves, hsaves⟩ := exists_regsEncoded 0x50 hp.saves
    obtain ⟨after, hafter⟩ := exists_regsEncoded 0x50 hp.saves_after
    obtain ⟨out, hout⟩ : ∃ out, encodePrologue p bits = some out := by
      have hsaves' : p.saves.mapM (pushRegEncoded bits) = some saves := hsaves
      have hafter' : p.saves_after.mapM (pushRegEncoded bits) = some after := hafter
      rw [encodePrologue, hsaves', hafter']
      exact ⟨_, rfl⟩
    dsimp only
    rw [hout]
    exact ⟨_, rfl⟩

/-- Trying an epilogue does not panic. -/
theorem exists_epilogueRoundtrips (bytes : Bytes) (bits : CodecBits) :
    ∃ r, epilogueRoundtrips bytes bits = some r := by
  unfold epilogueRoundtrips
  cases hdec : decodeEpilogue bytes bits with
  | none => exact ⟨none, rfl⟩
  | some e =>
    obtain ⟨saves, hsaves⟩ := exists_regsEncoded 0x58 (decoded_of_decodeEpilogue hdec).saves
    obtain ⟨out, hout⟩ : ∃ out, encodeEpilogue e bits = some out := by
      have hsaves' : e.saves.mapM (popRegEncoded bits) = some saves := hsaves
      rw [encodeEpilogue, hsaves']
      exact ⟨_, rfl⟩
    dsimp only
    rw [hout]
    exact ⟨_, rfl⟩

/-- Parameters that are given encode to the bytes. -/
theorem prologueRoundtrips_eq_some {p : StructuredPrologue}
    (h : prologueRoundtrips bytes bits = some (some p)) :
    p.Decoded bits ∧ encodePrologue p bits = some bytes := by
  unfold prologueRoundtrips at h
  cases hdec : decodePrologue bytes bits with
  | none =>
    rw [hdec] at h
    cases h
  | some q =>
    rw [hdec] at h
    obtain ⟨out, hout, h⟩ := map_eq_some_iff.1 h
    rw [ite_none_right_eq_some] at h
    obtain ⟨rfl, ⟨⟩⟩ := h
    exact ⟨decoded_of_decodePrologue hdec, hout⟩

/-- An epilogue is kept only if its encoding is its bytes. -/
theorem epilogueRoundtrips_eq_some {e : StructuredEpilogue}
    (h : epilogueRoundtrips bytes bits = some (some e)) :
    e.Decoded bits ∧ encodeEpilogue e bits = some bytes := by
  unfold epilogueRoundtrips at h
  cases hdec : decodeEpilogue bytes bits with
  | none =>
    rw [hdec] at h
    cases h
  | some q =>
    rw [hdec] at h
    obtain ⟨out, hout, h⟩ := map_eq_some_iff.1 h
    rw [ite_none_right_eq_some] at h
    obtain ⟨rfl, ⟨⟩⟩ := h
    exact ⟨decoded_of_decodeEpilogue hdec, hout⟩

end Univdreams.Arch.X86
