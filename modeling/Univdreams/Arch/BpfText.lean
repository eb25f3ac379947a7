import Univdreams.Arch.BpfDecode
import Univdreams.Numerals

/-!
# Assembling what the formatter writes

The assembler and the formatter of BPF are two tables, one from texts to slots and one from slots to
texts. `Form` lists the slots that the assembler makes, and every one of them is formatted to a text
from which the assembler makes it again, with one exception: the formatter knows the signed
divisions in one dialect only, and the assembler in all of them.
-/

namespace Univdreams.Arch.Bpf

open List Slot

open Text

variable {t : Text} {off : ℤ} {n : ℕ}

/-! ## Operands -/

/-- A word: a text of letters and digits. -/
def IsWord (t : Text) : Prop := t ≠ [] ∧ ∀ c ∈ t, IsWordChar c

/-- A text that trimming leaves as it is. -/
def Trimmed (t : Text) : Prop :=
  (∀ c ∈ t.head?, isWhitespace c = false) ∧ ∀ c ∈ t.getLast?, isWhitespace c = false

/-- An operand: a text that the assembler does not split. -/
def IsOperand (t : Text) : Prop :=
  ∀ cur rest, splitOperandsFrom 0 cur (t ++ rest) = splitOperandsFrom 0 (cur ++ t) rest

theorem isWhitespace_of_isWordChar {c : Char} (h : IsWordChar c) : isWhitespace c = false := by
  unfold IsWordChar at h
  simp only [isWhitespace, Bool.or_eq_false_iff, Bool.and_eq_false_iff, decide_eq_false_iff_not,
    beq_eq_false_iff_ne]
  omega

theorem ne_of_isWordChar {c d : Char} (h : IsWordChar c) (hd : ¬IsWordChar d) : c ≠ d :=
  fun heq => hd (heq ▸ h)

theorem Trimmed.trim_eq (h : Trimmed t) : trim t = t := by
  have hstart : trimStart t = t := by
    cases t with
    | nil => rfl
    | cons c cs => simp [trimStart, h.1 c (by simp)]
  rw [trim, hstart, trimEnd, rdropWhile_eq_self_iff]
  intro hne
  simpa using h.2 (t.getLast hne) (by simp [List.getLast?_eq_some_getLast hne])

theorem Trimmed.trim_cons (h : Trimmed t) : trim (' ' :: t) = t := by
  have hspace : isWhitespace ' ' = true := by decide
  have htrim := h.trim_eq
  rw [trim, trimStart] at htrim ⊢
  rwa [dropWhile_cons_of_pos hspace]

theorem IsWord.trimmed (h : IsWord t) : Trimmed t :=
  ⟨fun c hc => isWhitespace_of_isWordChar (h.2 c (mem_of_mem_head? hc)),
    fun c hc => isWhitespace_of_isWordChar (h.2 c (mem_of_mem_getLast? hc))⟩

/-- A text without brackets and commas is gone over. -/
theorem splitOperandsFrom_plain (h : ∀ c ∈ t, c ≠ '[' ∧ c ≠ ']' ∧ c ≠ ',') (depth : ℤ)
    (cur rest : Text) :
    splitOperandsFrom depth cur (t ++ rest) = splitOperandsFrom depth (cur ++ t) rest := by
  induction t generalizing cur with
  | nil => simp
  | cons c t ih =>
    obtain ⟨hopen, hclose, hcomma⟩ := h c (by simp)
    rw [cons_append, splitOperandsFrom, if_neg hopen, if_neg hclose,
      if_neg fun hc => hcomma hc.1, ih fun d hd => h d (mem_cons_of_mem c hd)]
    simp

theorem IsOperand.of_plain (h : ∀ c ∈ t, c ≠ '[' ∧ c ≠ ']' ∧ c ≠ ',') : IsOperand t :=
  splitOperandsFrom_plain h 0

theorem plain_of_isWordChar {c : Char} (h : IsWordChar c) : c ≠ '[' ∧ c ≠ ']' ∧ c ≠ ',' := by
  refine ⟨ne_of_isWordChar h ?_, ne_of_isWordChar h ?_, ne_of_isWordChar h ?_⟩ <;>
    unfold IsWordChar <;> decide

theorem IsWord.isOperand (h : IsWord t) : IsOperand t :=
  .of_plain fun c hc => plain_of_isWordChar (h.2 c hc)

/-- Brackets hide what they hold. -/
theorem IsOperand.bracketed (h : ∀ c ∈ t, c ≠ '[' ∧ c ≠ ']' ∧ c ≠ ',') :
    IsOperand ('[' :: t ++ [']']) := by
  intro cur rest
  rw [append_assoc, cons_append, splitOperandsFrom, if_pos rfl, splitOperandsFrom_plain h,
    singleton_append, splitOperandsFrom, if_neg (by decide), if_pos rfl]
  simp

theorem splitOperandsFrom_last (h : IsOperand t) (cur : Text) :
    splitOperandsFrom 0 cur t = [trim (cur ++ t)] := by
  have hlast := h cur []
  rwa [append_nil] at hlast

theorem splitOperandsFrom_comma (h : IsOperand t) (cur rest : Text) :
    splitOperandsFrom 0 cur (t ++ ", ".toList ++ rest) =
      trim (cur ++ t) :: splitOperandsFrom 0 [' '] rest := by
  have hspace : splitOperandsFrom 0 [] (' ' :: rest) = splitOperandsFrom 0 [' '] rest := by
    rw [splitOperandsFrom, if_neg (by decide), if_neg (by decide), if_neg (by decide)]
    rfl
  rw [append_assoc, h]
  show splitOperandsFrom 0 (cur ++ t) (',' :: ' ' :: rest) = _
  rw [splitOperandsFrom, if_neg (by decide), if_neg (by decide), if_pos ⟨rfl, rfl⟩, hspace]

theorem splitOperands_one (h : IsOperand t) (ht : Trimmed t) (hne : t ≠ []) :
    splitOperands t = [t] := by
  rw [splitOperands, if_neg hne, splitOperandsFrom_last h, nil_append, ht.trim_eq]

theorem splitOperands_two {s t : Text} (hs : IsOperand s) (ht : IsOperand t) (hs' : Trimmed s)
    (ht' : Trimmed t) : splitOperands (s ++ ", ".toList ++ t) = [s, t] := by
  have hne : s ++ ", ".toList ++ t ≠ [] := by simp
  rw [splitOperands, if_neg hne, splitOperandsFrom_comma hs, splitOperandsFrom_last ht,
    nil_append, hs'.trim_eq, singleton_append, ht'.trim_cons]

theorem splitOperands_three {s t u : Text} (hs : IsOperand s) (ht : IsOperand t) (hu : IsOperand u)
    (hs' : Trimmed s) (ht' : Trimmed t) (hu' : Trimmed u) :
    splitOperands (s ++ ", ".toList ++ (t ++ ", ".toList ++ u)) = [s, t, u] := by
  have hne : s ++ ", ".toList ++ (t ++ ", ".toList ++ u) ≠ [] := by simp
  rw [splitOperands, if_neg hne, splitOperandsFrom_comma hs, splitOperandsFrom_comma ht,
    splitOperandsFrom_last hu, nil_append, hs'.trim_eq, singleton_append,
    singleton_append, ht'.trim_cons, hu'.trim_cons]

/-! ## The operands that are written -/

@[simp] theorem expect_some {α : Type} (operand : Text) (context : String) (a : α) :
    expect operand context (some a) = .ok a := rfl

@[simp] theorem ok_bind {ε α β : Type} (a : α) (f : α → Run ε β) :
    ((Except.ok a : Run ε α) >>= f) = f a := rfl

theorem isWord_regText (n : ℕ) : IsWord (regText n) := by
  refine ⟨by simp [regText], fun c hc => ?_⟩
  rcases List.mem_cons.1 hc with rfl | hc
  · unfold IsWordChar; decide
  · exact Text.isWordChar_toDec n c hc

theorem isWord_hexOf (n : ℕ) : IsWord (hexOf n) := by
  refine ⟨by simp [hexOf], fun c hc => ?_⟩
  rcases List.mem_append.1 hc with hc | hc
  · have hcases : c = '0' ∨ c = 'x' := by simpa using hc
    rcases hcases with rfl | rfl <;> unfold IsWordChar <;> decide
  · exact Text.isWordChar_toHex n c hc

theorem parseReg_regText (hn : n ≤ 10) : parseReg (regText n) = .ok n := by
  have hread : fromStrRadix (2 ^ 32) 10 (toDec n) = some n :=
    Text.fromStrRadix_of_ofDigitChars (Text.toDec_ne_nil n) (Text.ofDigitChars_toDec n) (by omega)
  have hstrip : stripPrefix? (regText n) ['r'] = some (toDec n) := by
    simp [stripPrefix?, regText]
  simp only [parseReg, (isWord_regText n).trimmed.trim_eq, hstrip, expect_some, ok_bind]
  rw [hread, expect_some, ok_bind, if_neg (by omega)]
  rfl

theorem stripPrefix?_hexOf (n : ℕ) : stripPrefix? (hexOf n) "0x".toList = some (toHex n) := by
  simp [stripPrefix?, hexOf]

theorem fromStrRadix_toHex {limit n : ℕ} (hn : n < limit) :
    fromStrRadix limit 16 (toHex n) = some n :=
  Text.fromStrRadix_of_ofDigitChars (Text.toHex_ne_nil n) (Text.ofDigitChars_toHex n) hn

theorem parseUint_hexOf (hn : n < wordSize) (context : String) :
    parseUint (hexOf n) context = .ok n := by
  simp only [parseUint, (isWord_hexOf n).trimmed.trim_eq, stripPrefix?_hexOf,
    fromStrRadix_toHex hn, expect]

theorem parseInt_hexOf (hn : n < 2 ^ 32) (context : String) :
    parseInt (hexOf n) context = .ok (n : ℤ) := by
  have hword : n < wordSize := lt_trans hn (by decide)
  simp only [parseInt, parseUint_hexOf hword, bind, Except.bind]
  rw [if_neg (by omega)]
  rfl

theorem parseIntSigned_hexOf (hn : n < 2 ^ 32) (context : String) :
    parseIntSigned (hexOf n) context = .ok (n : ℤ) := by
  have hstrip : stripPrefix? (hexOf n) ['-'] = none := by simp [stripPrefix?, hexOf]
  simp only [parseIntSigned, (isWord_hexOf n).trimmed.trim_eq, hstrip, parseInt_hexOf hn]

theorem parseAluRhs_regText (hn : n ≤ 10) : parseAluRhs (regText n) = .ok (true, n, 0) := by
  have hhead : ['r'] <+: regText n := by simp [regText]
  simp only [parseAluRhs, (isWord_regText n).trimmed.trim_eq, if_pos hhead, parseReg_regText hn]
  rfl

theorem parseAluRhs_hexOf (hn : n < 2 ^ 32) : parseAluRhs (hexOf n) = .ok (false, 0, (n : ℤ)) := by
  have hhead : ¬['r'] <+: hexOf n := by simp [hexOf]
  simp only [parseAluRhs, (isWord_hexOf n).trimmed.trim_eq, if_neg hhead, parseInt_hexOf hn]
  rfl

/-! ### Offsets -/

/-- A number that fits in 16 bits with a sign. -/
def IsI16 (off : ℤ) : Prop := -2 ^ 15 ≤ off ∧ off < 2 ^ 15

theorem toI16_eq (h : IsI16 off) : toI16 off = .ok off := if_pos h

theorem isI16_of_toI16 {off x : ℤ} (h : toI16 off = .ok x) : x = off ∧ IsI16 off := by
  unfold toI16 at h
  split_ifs at h with hrange
  · exact ⟨(Except.ok.inj h).symm, hrange⟩
  · cases h

theorem toI64_natAbs (h : IsI16 off) : toI64 off.natAbs = off.natAbs := by
  unfold IsI16 at h
  rw [toI64, if_pos (by omega)]

theorem negI64_natAbs (checks : Bool) (h : IsI16 off) (hneg : off < 0) :
    negI64 checks (off.natAbs : ℤ) = some off := by
  unfold IsI16 at h
  rw [negI64, if_neg (by omega)]
  congr 1
  omega

/-- The text of an offset is one operand. -/
theorem isOperand_offsetText (off : ℤ) : IsOperand (offsetText off) ∧ Trimmed (offsetText off) := by
  have hword := isWord_hexOf off.natAbs
  have hform : offsetText off = (if 0 ≤ off then '+' else '-') :: hexOf off.natAbs := by
    unfold offsetText hexOf
    split <;> rfl
  rw [hform]
  constructor
  · refine .of_plain fun c hc => ?_
    rcases mem_cons.1 hc with rfl | hc
    · split <;> decide
    · exact plain_of_isWordChar (hword.2 c hc)
  constructor
  · intro c hc
    obtain rfl : (if 0 ≤ off then '+' else '-') = c := by simpa using hc
    split <;> decide
  intro c hc
  rw [List.getLast?_cons_of_ne_nil hword.1] at hc
  exact hword.trimmed.2 c hc

/-- A branch offset is read back from its text. -/
theorem parseBranchOffset_offsetText (checks : Bool) (h : IsI16 off) :
    parseBranchOffset checks (offsetText off) = .ok off := by
  have hlt : off.natAbs < wordSize := by
    have : wordSize = 18446744073709551616 := rfl
    unfold IsI16 at h
    omega
  have htrim := (isOperand_offsetText off).2.trim_eq
  have hread := fromStrRadix_toHex hlt
  have hstrip : ∀ t : Text, stripPrefix? ('0' :: 'x' :: t) ['0', 'x'] = some t := fun t => by
    simp [stripPrefix?]
  unfold parseBranchOffset
  rw [htrim]
  unfold offsetText
  split_ifs with hsign
  · have habs : (off.natAbs : ℤ) = off := by omega
    simp only [String.reduceToList, cons_append, nil_append, pure_bind, hstrip, hread,
      expect_some, ok_bind, toI64_natAbs h, habs, Bool.false_eq_true, if_false, toI16_eq h]
  have hneg := negI64_natAbs checks h (not_le.1 hsign)
  simp only [String.reduceToList, cons_append, nil_append, pure_bind, hstrip, hread,
    expect_some, ok_bind, toI64_natAbs h, if_true, hneg, orPanic, toI16_eq h]

/-! ### Memory operands -/

/-- A text without a character of the pattern holds no occurrence of it. -/
theorem splitAtLast_eq_none {pat t : Text} {c : Char} (hc : c ∈ pat) (ht : c ∉ t) :
    splitAtLast pat t = none := by
  induction t with
  | nil =>
    rw [splitAtLast, if_neg]
    rintro rfl
    cases hc
  | cons d t ih =>
    have hrest : c ∉ t := fun hmem => ht (mem_cons_of_mem d hmem)
    rw [splitAtLast, ih hrest]
    exact if_neg fun hpre => ht (hpre.subset hc)

theorem splitAtLast_append {pat t : Text} {p : Text × Text} (h : splitAtLast pat t = some p)
    (s : Text) : splitAtLast pat (s ++ t) = some (s ++ p.1, p.2) := by
  induction s with
  | nil => exact h
  | cons c s ih => rw [cons_append, splitAtLast, ih]; rfl

/-- The last sign of a memory operand. -/
theorem splitAtLast_sign (sign : Char) (hsign : ¬IsWordChar sign) (ht : IsWord t) (s : Text) :
    splitAtLast [' ', sign, ' '] (s ++ ' ' :: sign :: ' ' :: t) = some (s, t) := by
  have hblank : ¬IsWordChar ' ' := by unfold IsWordChar; decide
  have hnone : splitAtLast [' ', sign, ' '] t = none :=
    splitAtLast_eq_none (c := ' ') (by simp) fun hmem => hblank (ht.2 _ hmem)
  obtain ⟨d, ds, rfl⟩ := exists_cons_of_ne_nil ht.1
  have hd : sign ≠ d := fun heq => hsign (heq ▸ ht.2 d (by simp))
  have hhere : splitAtLast [' ', sign, ' '] (' ' :: sign :: ' ' :: d :: ds) =
      some ([], d :: ds) := by
    have h1 : splitAtLast [' ', sign, ' '] (' ' :: d :: ds) = none := by
      rw [splitAtLast, hnone]
      exact if_neg (by simp [hd])
    have h2 : splitAtLast [' ', sign, ' '] (sign :: ' ' :: d :: ds) = none := by
      rw [splitAtLast, h1]
      refine if_neg ?_
      rintro ⟨u, hu⟩
      simp only [cons_append, List.cons.injEq] at hu
      exact hblank (hu.2.2.1 ▸ ht.2 d (by simp))
    rw [splitAtLast, h2]
    exact if_pos ⟨d :: ds, rfl⟩
  simpa using splitAtLast_append hhere s

variable (reg : ℕ)

/-- What stands between the brackets. -/
def memInner (off : ℤ) : Text := regText reg ++ formatOffset off

/-- The characters of an offset in a memory operand, with its sign. -/
theorem formatOffset_chars (off : ℤ) :
    ∀ c ∈ formatOffset off, IsWordChar c ∨ c = ' ' ∨ c = '+' ∧ 0 < off ∨ c = '-' ∧ off < 0 := by
  intro c hc
  have hword := isWord_hexOf off.natAbs
  unfold formatOffset at hc
  split_ifs at hc with hzero hpos
  · cases hc
  · rcases mem_append.1 hc with hc | hc
    · have hcases : c = ' ' ∨ c = '+' := by
        simp at hc
        tauto
      tauto
    · exact .inl (hword.2 c hc)
  have hneg : off < 0 := by omega
  rcases mem_append.1 hc with hc | hc
  · have hcases : c = ' ' ∨ c = '-' := by
      simp at hc
      tauto
    tauto
  · exact .inl (hword.2 c hc)

theorem memInner_plain (off : ℤ) : ∀ c ∈ memInner reg off, c ≠ '[' ∧ c ≠ ']' ∧ c ≠ ',' := by
  intro c hc
  rcases mem_append.1 hc with hc | hc
  · exact plain_of_isWordChar ((isWord_regText reg).2 c hc)
  rcases formatOffset_chars off c hc with h | rfl | ⟨rfl, -⟩ | ⟨rfl, -⟩
  · exact plain_of_isWordChar h
  all_goals decide

theorem memInner_trimmed (off : ℤ) : Trimmed (memInner reg off) := by
  refine ⟨by simp [memInner, regText]; decide, fun c hc => ?_⟩
  unfold memInner formatOffset at hc
  split_ifs at hc with hzero hpos
  · rw [append_nil] at hc
    exact (isWord_regText reg).trimmed.2 c hc
  all_goals
    rw [← append_assoc, List.getLast?_append_of_ne_nil _ (isWord_hexOf _).1] at hc
    exact (isWord_hexOf off.natAbs).trimmed.2 c hc

theorem memText_eq (off : ℤ) : memText reg off = '[' :: memInner reg off ++ [']'] := by
  simp [memText, memInner]

theorem isOperand_memText (off : ℤ) : IsOperand (memText reg off) ∧ Trimmed (memText reg off) := by
  rw [memText_eq]
  refine ⟨.bracketed (memInner_plain reg off), by simp; decide, fun c hc => ?_⟩
  rw [List.getLast?_concat] at hc
  cases hc
  decide

/-- A memory operand is read back from its text. -/
theorem parseMem_memText (checks : Bool) {reg : ℕ} (hreg : reg ≤ 10)
    (hoff : IsI16 off) : parseMem checks (memText reg off) = .ok (reg, off) := by
  have hlt : off.natAbs < wordSize := by
    have : wordSize = 18446744073709551616 := rfl
    unfold IsI16 at hoff
    omega
  have hwordreg := isWord_regText reg
  have hread := fromStrRadix_toHex hlt
  have hoffset : parseOffsetValue (hexOf off.natAbs) = .ok (off.natAbs : ℤ) := by
    simp only [parseOffsetValue, (isWord_hexOf _).trimmed.trim_eq, stripPrefix?_hexOf, hread,
      expect_some, ok_bind, toI64_natAbs hoff]
    rfl
  have hinner : (stripPrefix? (memText reg off) ['[']).bind (fun s => stripSuffix? s [']']) =
      some (memInner reg off) := by
    rw [memText_eq]
    have h1 : stripPrefix? ('[' :: memInner reg off ++ [']']) ['['] =
        some (memInner reg off ++ [']']) := by
      simp [stripPrefix?]
    rw [h1]
    simp [stripSuffix?]
  have hplus : '+' ∉ regText reg := fun hmem => by
    have := hwordreg.2 _ hmem
    revert this
    unfold IsWordChar
    decide
  have hminus : '-' ∉ regText reg := fun hmem => by
    have := hwordreg.2 _ hmem
    revert this
    unfold IsWordChar
    decide
  simp only [parseMem, (isOperand_memText reg off).2.trim_eq, hinner, expect_some, ok_bind,
    (memInner_trimmed reg off).trim_eq]
  unfold memInner formatOffset
  split_ifs with hzero hpos
  · subst hzero
    rw [append_nil, splitAtLast_eq_none (c := '+') (by decide) hplus,
      splitAtLast_eq_none (c := '-') (by decide) hminus]
    simp only [parseReg_regText hreg, ok_bind]
    rfl
  · have hsplit := splitAtLast_sign '+' (by unfold IsWordChar; decide)
      (isWord_hexOf off.natAbs) (regText reg)
    have habs : (off.natAbs : ℤ) = off := by omega
    simp only [String.reduceToList, cons_append, nil_append, hsplit,
      hwordreg.trimmed.trim_eq, parseReg_regText hreg, ok_bind, hoffset, habs, toI16_eq hoff]
    rfl
  · have hneg : off < 0 := by omega
    have hnone : splitAtLast [' ', '+', ' ']
        (regText reg ++ ' ' :: '-' :: ' ' :: hexOf off.natAbs) = none := by
      refine splitAtLast_eq_none (c := '+') (by decide) fun hmem => ?_
      rcases mem_append.1 hmem with hmem | hmem
      · exact hplus hmem
      simp only [mem_cons] at hmem
      rcases hmem with h | h | h | h
      · exact absurd h (by decide)
      · exact absurd h (by decide)
      · exact absurd h (by decide)
      have := (isWord_hexOf off.natAbs).2 _ h
      revert this
      unfold IsWordChar
      decide
    have hsplit := splitAtLast_sign '-' (by unfold IsWordChar; decide)
      (isWord_hexOf off.natAbs) (regText reg)
    simp only [String.reduceToList, cons_append, nil_append, hnone, hsplit,
      hwordreg.trimmed.trim_eq, parseReg_regText hreg, ok_bind, hoffset,
      negI64_natAbs checks hoff hneg, orPanic, toI16_eq hoff]
    rfl

/-! ## Slots and their fields -/

theorem signedWord_mod {w v : ℕ} (hv : v < 2 ^ w) (hw : 0 < w) : signedWord w v % 2 ^ w = v := by
  have hpow : (2 : ℕ) ^ w = 2 * 2 ^ (w - 1) := by
    rw [← Nat.pow_succ', Nat.succ_eq_add_one, Nat.sub_add_cancel hw]
  have hcast : ((2 ^ w : ℕ) : ℤ) = 2 ^ w := by norm_num
  unfold signedWord
  split_ifs with h
  · exact Int.emod_eq_of_lt (by omega) (by omega)
  · rw [Int.sub_emod_right]
    exact Int.emod_eq_of_lt (by omega) (by omega)

theorem signedWord_of_isI16 (h : IsI16 off) : signedWord 16 (off % 2 ^ 16).toNat = off := by
  unfold IsI16 at h
  unfold signedWord
  split_ifs with hlt <;> simp only [Nat.reduceSub, Nat.reducePow] at hlt <;> omega

/-- The fields of a slot are read back from its bytes. -/
theorem decodeSlot_bytes {opcode dst src : ℕ} {off imm : ℤ} (hopcode : opcode < 256)
    (hdst : dst < 16)
    (hsrc : src < 16) (hoff : IsI16 off) (addr : ℕ) (kind : InsnKind) (imm64 : Option ℕ) :
    decodeSlot addr (insn opcode dst src off imm).bytes kind imm64 =
      ⟨addr, (insn opcode dst src off imm).bytes, kind, opcode, dst, src, off,
        signedWord 32 (imm % 2 ^ 32).toNat, imm64⟩ := by
  have hoffset : readLe 2 (insn opcode dst src off imm).bytes 2 = (off % 2 ^ 16).toNat := by
    have hwindow : window (insn opcode dst src off imm).bytes 2 2 =
        toLe 2 (off % 2 ^ 16).toNat := by
      simp [window, Slot.bytes, toLe]
    rw [readLe, hwindow, ofLe_toLe, Nat.mod_eq_of_lt (by omega)]
  have himm : readLe 4 (insn opcode dst src off imm).bytes 4 = (imm % 2 ^ 32).toNat := by
    have hwindow : window (insn opcode dst src off imm).bytes 4 4 =
        toLe 4 (imm % 2 ^ 32).toNat := by
      simp [window, Slot.bytes, toLe]
    rw [readLe, hwindow, ofLe_toLe, Nat.mod_eq_of_lt (by omega)]
  have hop : byteAt (insn opcode dst src off imm).bytes 0 = opcode := by
    simp [byteAt, Slot.bytes, Nat.mod_eq_of_lt hopcode]
  have hregs : byteAt (insn opcode dst src off imm).bytes 1 = dst + 16 * src := by
    simp only [byteAt, Slot.bytes, cons_append, getD_cons_succ, getD_cons_zero, UInt8.toNat_ofNat']
    omega
  have hlow : (dst + 16 * src) % 16 = dst := by omega
  have hhigh : (dst + 16 * src) / 16 = src := by omega
  unfold decodeSlot
  rw [hop, hregs, hoffset, himm, hlow, hhigh, signedWord_of_isI16 hoff]

/-- The bytes of a slot depend on the low 32 bits of the number only. -/
theorem bytes_congr {opcode dst src : ℕ} {off imm imm' : ℤ} (h : imm % 2 ^ 32 = imm' % 2 ^ 32) :
    (insn opcode dst src off imm).bytes = (insn opcode dst src off imm').bytes := by
  simp only [Slot.bytes, h]

/-! ## Texts with a mnemonic -/

/-- The mnemonic of a text. -/
def mnemonicOf (text : Text) : Text := (trim text).takeWhile fun c => !isWhitespace c

theorem trimmed_mnemonic {m rest : Text} (hm : ∀ c ∈ m, isWhitespace c = false) (hne : m ≠ [])
    (hrest : Trimmed rest) (hne' : rest ≠ []) : Trimmed (m ++ ' ' :: rest) := by
  constructor
  · intro c hc
    rw [List.head?_append_of_ne_nil _ hne] at hc
    exact hm c (mem_of_mem_head? hc)
  intro c hc
  rw [List.getLast?_append_of_ne_nil _ (by simp), List.getLast?_cons_of_ne_nil hne'] at hc
  exact hrest.2 c hc

theorem takeWhile_mnemonic {m : Text} (hm : ∀ c ∈ m, isWhitespace c = false) (rest : Text) :
    (m ++ ' ' :: rest).takeWhile (fun c => !isWhitespace c) = m := by
  have hspace : isWhitespace ' ' = true := by decide
  rw [takeWhile_append_of_pos fun c hc => by simp [hm c hc]]
  simp [hspace]

/-- A text that is no placeholder is a mnemonic with operands. -/
theorem assembleSlot_mnemonic (checks : Bool) {m rest : Text}
    (hm : ∀ c ∈ m, isWhitespace c = false) (hne : m ≠ [])
    (hbpf : ¬"<bpf 0x".toList <+: m ++ ' ' :: rest)
    (hcont : ¬"<lddw-cont 0x".toList <+: m ++ ' ' :: rest) (hrest : Trimmed rest)
    (hne' : rest ≠ []) :
    assembleSlot checks (m ++ ' ' :: rest) =
      assembleMnemonic checks m (splitOperands rest) := by
  have hspace : isWhitespace ' ' = true := by decide
  have hexit : m ++ ' ' :: rest ≠ "exit".toList := fun heq => by
    have hmem : ' ' ∈ "exit".toList := heq ▸ by simp
    simp at hmem
  have hall : ∀ c ∈ m, (!isWhitespace c) = true := fun c hc => by simp [hm c hc]
  have hdrop : (m ++ ' ' :: rest).dropWhile (fun c => !isWhitespace c) = ' ' :: rest := by
    rw [dropWhile_append_of_pos hall]
    simp [hspace]
  simp only [assembleSlot, (trimmed_mnemonic hm hne hrest hne').trim_eq, stripPrefix?, if_neg hbpf,
    if_neg hcont, if_neg hexit, takeWhile_mnemonic hm, hdrop, hrest.trim_cons]
  rw [if_neg (by simp)]

end Univdreams.Arch.Bpf
