import Univdreams.Arch.BpfRoundTrip

/-!
# Jumps of the BPF codec

What `encode_jump` and `encode_cond_jump` of `src/arch/bpf/codec.rs` encode, read back by the
decoder. The condition of a jump is a text from outside; the distance is written behind it, and
whatever the text is, the assembler takes the distance from there or refuses the whole.
-/

namespace Univdreams.Arch.Bpf

open List Run Option Slot

open Text

variable {ip target : ℕ} {checks : Bool} {bytes : Bytes}

/-! ## Distances -/

/-- A distance that can be encoded leads to its target. -/
theorem targetAt_of_slotOffset {off : ℤ} (h : slotOffset ip target = .ok off) :
    IsI16 off ∧ targetAt ip off = target % wordSize := by
  have hword : wordSize = 18446744073709551616 := rfl
  unfold slotOffset at h
  simp only at h
  split_ifs at h with halign hrange
  · cases h
  · obtain rfl := Except.ok.inj h
    refine ⟨hrange, ?_⟩
    have hdelta : slotDelta ip target / 8 * 8 = slotDelta ip target := by omega
    unfold targetAt
    rw [hdelta]
    unfold slotDelta toI64
    rw [hword]
    split_ifs <;> omega
  · cases h

/-! ## The last operand -/

theorem mem_dropWhile {p : Char → Bool} {c : Char} (hc : p c = false) :
    ∀ {t : Text}, c ∈ t → c ∈ t.dropWhile p := by
  intro t ht
  rw [← List.takeWhile_append_dropWhile (p := p) (l := t), List.mem_append] at ht
  obtain ht | ht := ht
  · have := List.mem_takeWhile_imp ht
    rw [hc] at this
    cases this
  · exact ht

theorem mem_trim {c : Char} {t : Text} (hc : isWhitespace c = false) (h : c ∈ t) : c ∈ trim t := by
  unfold trim trimEnd trimStart List.rdropWhile
  rw [List.mem_reverse]
  exact mem_dropWhile hc (List.mem_reverse.2 (mem_dropWhile hc h))

/-- Splitting a text into operands gives at least one part. -/
theorem splitOperandsFrom_ne_nil (t : Text) : ∀ (depth : ℤ) (cur : Text),
    splitOperandsFrom depth cur t ≠ [] := by
  induction t with
  | nil => exact fun depth cur => List.cons_ne_nil _ _
  | cons c t ih =>
    intro depth cur
    rw [splitOperandsFrom]
    split_ifs
    · exact ih _ _
    · exact ih _ _
    · exact List.cons_ne_nil _ _
    · exact ih _ _

/-- The last operand of a text that ends with `, u` is `u`, or has a comma in brackets. -/
theorem getLast_splitOperandsFrom {u : Text} (hu : ∀ c ∈ u, c ≠ '[' ∧ c ≠ ']' ∧ c ≠ ',')
    (htrim : Trimmed u) : ∀ (t : Text) (depth : ℤ) (cur x : Text),
      (splitOperandsFrom depth cur (t ++ ", ".toList ++ u)).getLast? = some x → x = u ∨
        ',' ∈ x := by
  have hlast : ∀ depth cur, splitOperandsFrom depth cur u = [trim (cur ++ u)] := by
    intro depth cur
    have := splitOperandsFrom_plain hu depth cur []
    rwa [append_nil] at this
  intro t
  induction t with
  | nil =>
    intro depth cur x hx
    rw [nil_append, show ", ".toList ++ u = ',' :: ' ' :: u from rfl, splitOperandsFrom,
      if_neg (by decide), if_neg (by decide)] at hx
    by_cases hdepth : depth = 0
    · rw [if_pos ⟨rfl, hdepth⟩, splitOperandsFrom, if_neg (by decide), if_neg (by decide),
        if_neg (by simp), hlast] at hx
      have hx' : trim (' ' :: u) = x := by simpa using hx
      rw [htrim.trim_cons] at hx'
      exact .inl hx'.symm
    rw [if_neg (fun h => hdepth h.2), splitOperandsFrom, if_neg (by decide), if_neg (by decide),
      if_neg (by simp), hlast] at hx
    have hx' : trim (cur ++ [','] ++ [' '] ++ u) = x := by simpa using hx
    rw [← hx']
    exact .inr (mem_trim (by decide) (by simp))
  | cons c t ih =>
    intro depth cur x hx
    rw [cons_append, cons_append, splitOperandsFrom] at hx
    split_ifs at hx
    · exact ih _ _ _ hx
    · exact ih _ _ _ hx
    · rw [List.getLast?_cons_of_ne_nil (splitOperandsFrom_ne_nil _ _ _)] at hx
      exact ih _ _ _ hx
    · exact ih _ _ _ hx

/-- A trimmed text has no blank at either end. -/
theorem trimmed_trim (t : Text) : Trimmed (trim t) := by
  have hend : ∀ (s : Text), ∀ c ∈ (s.rdropWhile isWhitespace).getLast?, isWhitespace c = false := by
    intro s c hc
    by_contra h
    have hne : s.rdropWhile isWhitespace ≠ [] := by
      intro h'
      rw [h'] at hc
      simp at hc
    have hlast := rdropWhile_last_not isWhitespace s hne
    rw [List.getLast?_eq_some_getLast hne, mem_some_iff] at hc
    rw [hc] at hlast
    simp_all
  refine ⟨fun c hc => ?_, hend _⟩
  -- The head of what is left is the head of the text without its leading blanks.
  have hpre : trim t <+: trimStart t := rdropWhile_prefix _ _
  obtain ⟨rest, hrest⟩ := hpre
  cases htrim : trim t with
  | nil =>
    rw [htrim] at hc
    simp at hc
  | cons d ds =>
    rw [htrim] at hc hrest
    have hdc : d = c := by simpa using hc
    have hhead : (trimStart t).head? = some d := by rw [← hrest]; rfl
    rw [← hdc]
    by_contra h
    have := List.head?_dropWhile_not isWhitespace t
    unfold trimStart at hhead
    rw [hhead] at this
    simp_all

/-! ## Offsets -/

theorem plain_offsetText (off : ℤ) : ∀ c ∈ offsetText off, c ≠ '[' ∧ c ≠ ']' ∧ c ≠ ',' := by
  intro c hc
  have hform : offsetText off = (if 0 ≤ off then '+' else '-') :: hexOf off.natAbs := by
    unfold offsetText hexOf
    split <;> rfl
  rw [hform, List.mem_cons] at hc
  obtain rfl | hc := hc
  · split <;> decide
  · exact plain_of_isWordChar ((isWord_hexOf _).2 c hc)

/-- The text of an offset has no comma. -/
theorem notMem_of_fromStrRadix {limit radix n : ℕ} {t : Text} {c : Char}
    (hdigit : toDigit radix c = none) (hc : c ≠ '+') (h : fromStrRadix limit radix t = some n) :
    c ∉ t := by
  have hdigits : ∀ ds, ofDigitChars radix 0 ds ≠ none → c ∉ ds := by
    intro ds hds hmem
    obtain ⟨m, hm⟩ := ne_none_iff_exists'.1 hds
    have := isSome_toDigit_of_ofDigitChars hm c hmem
    rw [hdigit] at this
    cases this
  unfold fromStrRadix at h
  simp only at h
  split at h
  next cs =>
    split_ifs at h
    obtain ⟨m, hm, -⟩ := bind_eq_some_iff.1 h
    rw [mem_cons, not_or]
    exact ⟨hc, hdigits cs (by rw [hm]; simp)⟩
  next =>
    split_ifs at h
    obtain ⟨m, hm, -⟩ := bind_eq_some_iff.1 h
    exact hdigits _ (by rw [hm]; simp)

/-- A text that is read as a branch offset has no comma. -/
theorem comma_notMem_of_parseBranchOffset {text : Text} {off : ℤ}
    (h : parseBranchOffset checks text = .ok off) : ',' ∉ text := by
  intro hmem
  have hmem : ',' ∈ trim text := mem_trim (by decide) hmem
  -- The digits behind the sign, in either base, and then those behind the prefix of the base.
  have hdigits : ∀ {radix : ℕ} {digits : Text} {F : ℕ → Run BpfError ℤ},
      toDigit radix ',' = none → ',' ∈ digits →
      (expect (trim text) "branch offset" (fromStrRadix wordSize radix digits) >>= F) ≠
        .ok off := by
    intro radix digits F hradix hdigits h
    obtain ⟨v, hv, -⟩ := bind_eq_ok.1 h
    exact notMem_of_fromStrRadix hradix (by decide) (expect_eq_ok hv) hdigits
  have hhex : ∀ {rest hex : Text}, stripPrefix? rest "0x".toList = some hex → ',' ∈ rest →
      ',' ∈ hex := by
    intro rest hex heq hrest
    have hcs : rest = "0x".toList ++ hex := by
      unfold stripPrefix? at heq
      split_ifs at heq with hpre
      obtain ⟨u, rfl⟩ := hpre
      simpa using heq
    rw [hcs, mem_append] at hrest
    exact hrest.resolve_left (by decide)
  unfold parseBranchOffset at h
  simp only at h
  split at h
  case h_1 cs heq | h_2 cs heq =>
    have hcs : ',' ∈ cs := by simpa [heq] using hmem
    simp only [pure_bind] at h
    split at h
    next hex hstrip => exact hdigits (by decide) (hhex hstrip hcs) h
    next => exact hdigits (by decide) hcs h
  next => cases h

/-! ## What is encoded -/

/-- `encode_jump` encodes a jump to its target. -/
theorem encodeJump_eq_ok (h : encodeJump checks ip target = .ok bytes) :
    ∃ off, IsI16 off ∧ targetAt ip off = target % wordSize ∧
      bytes = (insn 0x05 0 0 off 0).bytes := by
  obtain ⟨off, hoff, h⟩ := bind_eq_ok.1 h
  obtain ⟨hi16, htarget⟩ := targetAt_of_slotOffset hoff
  refine ⟨off, hi16, htarget, ?_⟩
  obtain ⟨slot, hslot, rfl⟩ := assembleBpf_eq_ok.1 h
  rw [show "ja ".toList ++ offsetText off = "ja".toList ++ ' ' :: offsetText off from rfl,
    assembleSlot_one _ (by decide) (operand_offsetText off)] at hslot
  have hja : assembleJa checks [offsetText off] = .ok slot := hslot
  simp only [assembleJa, unary, ok_bind, parseBranchOffset_offsetText checks hi16] at hja
  rw [← Except.ok.inj hja]

/-- The conditional jumps that `encode_cond_jump` chooses from. -/
theorem mem_condJumps {cond lhs rhs : Text} {mnemonic : String}
    (h : parseIfblockCond cond = .ok (lhs, mnemonic, rhs)) :
    Trimmed lhs ∧ ∃ opNibble ∈ jmpNibbles, mnemonic.toList = jmpMnemonic opNibble := by
  unfold parseIfblockCond at h
  simp only at h
  split_ifs at h
  · cases h
  split at h
  next parsed heq =>
    cases h
    obtain ⟨entry, hmem, hentry⟩ := List.exists_of_findSome?_eq_some heq
    obtain ⟨p, -, hp⟩ := map_eq_some_iff.1 hentry
    cases hp
    refine ⟨trimmed_trim _, ?_⟩
    simp only [mem_cons, not_mem_nil, or_false] at hmem
    rcases hmem with rfl | rfl | rfl | rfl | rfl | rfl
    · exact ⟨0x1, by decide, rfl⟩
    · exact ⟨0x5, by decide, rfl⟩
    · exact ⟨0x2, by decide, rfl⟩
    · exact ⟨0xa, by decide, rfl⟩
    · exact ⟨0x3, by decide, rfl⟩
    · exact ⟨0xb, by decide, rfl⟩
  next => cases h

/-- `encode_cond_jump` encodes a conditional jump to its target. -/
theorem encodeCondJump_eq_ok {cond : Text} (h : encodeCondJump checks cond ip target = .ok bytes) :
    ∃ off opNibble dst, ∃ rhs : Rhs, IsI16 off ∧ targetAt ip off = target % wordSize ∧
      opNibble ∈ jmpNibbles ∧ dst ≤ 10 ∧ rhs.Valid ∧
      bytes = (insn (rhs.opcode opNibble 0x05) dst rhs.src off rhs.value).bytes := by
  obtain ⟨off, hoff, h⟩ := bind_eq_ok.1 h
  obtain ⟨hi16, htarget⟩ := targetAt_of_slotOffset hoff
  obtain ⟨⟨lhs, mnemonic, rhs⟩, hcond, h⟩ := bind_eq_ok.1 h
  obtain ⟨hlhs, opNibble, hop, hmnemonic⟩ := mem_condJumps hcond
  obtain ⟨slot, hslot, rfl⟩ := assembleBpf_eq_ok.1 h
  obtain ⟨hname, hassemble⟩ := assembleMnemonic_jmp checks hop false
  have hnil : jmpMnemonic opNibble ++ (if false = true then "32".toList else []) =
      jmpMnemonic opNibble := append_nil _
  rw [hnil] at hname hassemble
  have hu := operand_offsetText off
  -- The operands, as the assembler gets them.
  have htrim : Trimmed (lhs ++ ", ".toList ++ rhs ++ ", ".toList ++ offsetText off) := by
    refine ⟨fun c hc => ?_, fun c hc => ?_⟩
    · cases lhs with
      | nil =>
        have : ',' = c := by simpa using hc
        rw [← this]
        decide
      | cons d ds => exact hlhs.1 c (by simpa using hc)
    · rw [List.getLast?_append_of_ne_nil _ hu.ne_nil] at hc
      exact hu.trimmed.2 c hc
  have htext : mnemonic.toList ++ [' '] ++ lhs ++ ", ".toList ++ rhs ++ ", ".toList ++
      offsetText off = jmpMnemonic opNibble ++ ' ' :: (lhs ++ ", ".toList ++ rhs ++ ", ".toList ++
        offsetText off) := by
    rw [hmnemonic]
    simp only [append_assoc]
    rfl
  rw [htext, assembleSlot_name _ hname htrim (by simp), hassemble] at hslot
  unfold assembleJmp at hslot
  split at hslot
  next dstText rhsText offText hoperands =>
    obtain ⟨dst, ⟨isReg, src, imm⟩, hdst, hrhs, hslot⟩ := bind₂_eq_ok.1 hslot
    obtain ⟨off', hoff', hslot⟩ := bind_eq_ok.1 hslot
    obtain ⟨rhs', hvalid, heq⟩ := parseAluRhs_spec hrhs
    cases heq
    have hlast : offText = offsetText off := by
      have hplain : ∀ c ∈ offsetText off, c ≠ '[' ∧ c ≠ ']' ∧ c ≠ ',' := plain_offsetText off
      rw [splitOperands, if_neg (by simp)] at hoperands
      refine (getLast_splitOperandsFrom hplain hu.trimmed (lhs ++ ", ".toList ++ rhs) 0 [] offText
        (by rw [hoperands]; rfl)).resolve_right ?_
      exact comma_notMem_of_parseBranchOffset hoff'
    rw [hlast, parseBranchOffset_offsetText checks hi16] at hoff'
    cases hoff'
    refine ⟨off, opNibble, dst, rhs', hi16, htarget, hop, parseReg_le hdst, hvalid, ?_⟩
    rw [← Except.ok.inj hslot]
    rfl
  next => cases hslot

theorem length_encodeJump
    (h : encodeJump checks ip target = .ok bytes) : bytes.length = 8 := by
  obtain ⟨off, -, -, rfl⟩ := encodeJump_eq_ok h
  exact length_bytes _

theorem length_encodeCondJump {cond : Text}
    (h : encodeCondJump checks cond ip target = .ok bytes) : bytes.length = 8 := by
  obtain ⟨off, opNibble, dst, rhs, -, -, -, -, -, rfl⟩ := encodeCondJump_eq_ok h
  exact length_bytes _

/-! ## Decoded -/

/-- A slot with a distance, decoded, jumps there. -/
theorem jumpTarget_decodeSingle {opcode dst src : ℕ} {off imm : ℤ} (hopcode : opcode < 256)
    (hdst : dst < 16) (hsrc : src < 16) (hoff : IsI16 off) (addr : ℕ) (variant : BpfVariant) :
    jumpTarget (decodeSingle addr (insn opcode dst src off imm).bytes variant) =
      targetAt addr off := by
  rw [decodeSingle, decodeSlot_bytes hopcode hdst hsrc hoff]
  rfl

theorem kind_decodeSingle {opcode dst src : ℕ} {off imm : ℤ} (hopcode : opcode < 256)
    (hdst : dst < 16) (hsrc : src < 16) (hoff : IsI16 off) (hne : opcode ≠ 0x18) (addr : ℕ)
    (variant : BpfVariant) : (decodeSingle addr (insn opcode dst src off imm).bytes variant).kind =
      classifyOpcode opcode variant := by
  have hbyte : byteAt (insn opcode dst src off imm).bytes 0 = opcode := by
    exact congrArg DecodedInsn.opcode (@decodeSlot_bytes opcode dst src off imm hopcode hdst hsrc
      hoff addr .jmp none)
  rw [decodeSingle, hbyte, if_neg hne]
  rfl

/-- The bytes of a jump, decoded at its address. -/
theorem decode_encodeJump (h : encodeJump checks ip target = .ok bytes)
    (hip : ip < wordSize) (variant : BpfVariant) :
    ∃ insn, decode bytes ip variant = .ok [insn] ∧ insn.kind = .jmp ∧
      jumpTarget insn = target % wordSize := by
  obtain ⟨off, hoff, htarget, rfl⟩ := encodeJump_eq_ok h
  refine ⟨_, decode_slot (length_bytes _) hip variant, ?_, ?_⟩
  · rw [kind_decodeSingle (by decide) (by decide) (by decide) hoff (by decide)]
    rfl
  · rw [jumpTarget_decodeSingle (by decide) (by decide) (by decide) hoff, htarget]

/-- The bytes of a conditional jump, decoded at its address. -/
theorem decode_encodeCondJump {cond : Text}
    (h : encodeCondJump checks cond ip target = .ok bytes) (hip : ip < wordSize)
    (variant : BpfVariant) :
    ∃ insn, decode bytes ip variant = .ok [insn] ∧ insn.kind = .jmpCond ∧
      jumpTarget insn = target % wordSize := by
  obtain ⟨off, opNibble, dst, rhs, hoff, htarget, hop, hdst, hvalid, rfl⟩ := encodeCondJump_eq_ok h
  have hnibble := of_mem_jmpNibbles hop
  have hdiv := rhs.opcode_div opNibble (show 0x05 < 8 by decide)
  have hmod := rhs.opcode_mod opNibble (show 0x05 < 8 by decide)
  have hlt : rhs.opcode opNibble 0x05 < 256 := rhs.opcode_lt (by decide) (by omega)
  have hsrc := hvalid.src_le
  refine ⟨_, decode_slot (length_bytes _) hip variant, ?_, ?_⟩
  · have hexit : rhs.opcode opNibble 0x05 ≠ 0x95 := by omega
    rw [kind_decodeSingle hlt (by omega) (by omega) hoff (by omega), classifyOpcode, hmod,
      classifyJmp, hdiv]
    simp [hnibble, hexit]
  · rw [jumpTarget_decodeSingle hlt (by omega) (by omega) hoff, htarget]

end Univdreams.Arch.Bpf
