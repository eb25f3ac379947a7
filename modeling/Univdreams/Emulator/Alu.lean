import Univdreams.Emulator.Machine

/-!
# The arithmetic helpers and their flags

`alu_add_32` to `alu_sbb_8` and `condition_holds` of `src/emulator/emulator/isa_int.rs`. The three
widths of a helper have the same text, and one definition of the width models them. Two helpers
differ between the widths and have two definitions: the addition with carry, which at 32 bits finds
its carry by comparing words, and the comparison, which returns the difference at 32 bits only.

`alu_exact` compares the result and the flags with the exact sum or difference of the operands.
-/

namespace Univdreams.Emulator

open BitVec

section Helpers

variable {w : ℕ} (lhs rhs : BitVec w) (f : Flags)

/-- `set_flags_inc_dec_32`, whose text every helper repeats. -/
def setFlagsIncDec (result : BitVec w) (sub : Bool) : Flags :=
  { f with
    af := (lhs ^^^ rhs ^^^ result).getLsbD 4
    of := (if sub then (lhs ^^^ rhs) &&& (lhs ^^^ result)
      else (lhs ^^^ result) &&& (rhs ^^^ result)).msb }.setSzp result

/-- The result of a helper, whether it is written back, and the flags with the new carry. -/
def aluResult (result : BitVec w) (cf sub : Bool) : BitVec w × Bool × Flags :=
  (result, true, { setFlagsIncDec lhs rhs f result sub with cf })

/-- `alu_add_32`, `alu_add_16` and `alu_add_8`. -/
def aluAdd := aluResult lhs rhs f (lhs + rhs) (lhs.uaddOverflow rhs) false

/-- `alu_sub_32`, `alu_sub_16` and `alu_sub_8`. -/
def aluSub := aluResult lhs rhs f (lhs - rhs) (lhs.usubOverflow rhs) true

/-- `alu_cmp_16` and `alu_cmp_8`. -/
def aluCmp : BitVec w × Bool × Flags := (0, false, (aluSub lhs rhs f).2.2)

/-- `alu_cmp_32`. -/
def aluCmp32 (lhs rhs : BitVec 32) (f : Flags) : BitVec 32 × Bool × Flags :=
  ((aluSub lhs rhs f).1, false, (aluSub lhs rhs f).2.2)

/-- The carry flag as a word. -/
def Flags.carry (w : ℕ) : BitVec w := BitVec.ofNat w f.cf.toNat

/-- `alu_adc_16` and `alu_adc_8`. -/
def aluAdc := aluResult lhs rhs f (lhs + rhs + f.carry w)
  (lhs.toNat + (rhs.toNat + f.cf.toNat) > 2 ^ w - 1) false

/-- `alu_adc_32`. -/
def aluAdc32 (lhs rhs : BitVec 32) (f : Flags) : BitVec 32 × Bool × Flags :=
  let result := lhs + rhs + f.carry 32
  aluResult lhs rhs f result (result < lhs || (f.cf && rhs == BitVec.allOnes 32)) false

/-- `alu_sbb_32`, `alu_sbb_16` and `alu_sbb_8`. -/
def aluSbb := aluResult lhs rhs f (lhs - rhs - f.carry w)
  (lhs.toNat < rhs.toNat + f.cf.toNat) true

end Helpers

/-- `condition_holds`. -/
def conditionHolds (cc : BitVec 8) (f : Flags) : Bool :=
  match (cc &&& 0x0f).toNat with
  | 0x0 => f.of
  | 0x1 => !f.of
  | 0x2 => f.cf
  | 0x3 => !f.cf
  | 0x4 => f.zf
  | 0x5 => !f.zf
  | 0x6 => f.cf || f.zf
  | 0x7 => !f.cf && !f.zf
  | 0x8 => f.sf
  | 0x9 => !f.sf
  | 0xa => f.pf
  | 0xb => !f.pf
  | 0xc => f.sf != f.of
  | 0xd => f.sf == f.of
  | 0xe => f.zf || (f.sf != f.of)
  | _ => !f.zf && (f.sf == f.of)

/-! ## The architecture -/

/-- The exact sum or difference of two numbers and a carry. -/
def total (sub c : Bool) (a b : ℤ) : ℤ := if sub then a - (b + c.toNat) else a + (b + c.toNat)

variable {w : ℕ}

/-- Whether the low byte of a word has an even number of bits. -/
abbrev EvenLow (x : BitVec w) : Prop := Even ((List.range 8).countP x.getLsbD)

/-- What the architecture asks of a sum or difference and its flags: carry if the exact value
without a sign is no word, overflow if the one with a sign is none, and adjust for the low four
bits. -/
structure Exact {w : ℕ} (sub c : Bool) (a b : BitVec w) (out : BitVec w × Bool × Flags) : Prop where
  result : out.1 = BitVec.ofInt w (total sub c a.toNat b.toNat)
  cf : out.2.2.cf = true ↔ total sub c a.toNat b.toNat ∉ Set.Ico 0 (2 ^ w)
  of : out.2.2.of = true ↔ total sub c a.toInt b.toInt ∉ Set.Ico (-2 ^ (w - 1)) (2 ^ (w - 1))
  af : out.2.2.af = true ↔ total sub c (a.toNat % 16) (b.toNat % 16) ∉ Set.Ico 0 16
  zf : out.2.2.zf = true ↔ out.1 = 0
  sf : out.2.2.sf = true ↔ out.1.toInt < 0
  pf : out.2.2.pf = true ↔ EvenLow out.1

/-- What a condition code stands for after a comparison. An odd code negates the one before it. -/
def Compares (cc : ℕ) (a b : BitVec w) : Prop :=
  Xor (cc % 2 = 1) <| match cc / 2 with
    | 0 => a.toInt - b.toInt ∉ Set.Ico (-2 ^ (w - 1)) (2 ^ (w - 1))
    | 1 => a < b
    | 2 => a = b
    | 3 => a ≤ b
    | 4 => (a - b).toInt < 0
    | 5 => EvenLow (a - b)
    | 6 => a.toInt < b.toInt
    | _ => a.toInt ≤ b.toInt

/-- The helpers of a width do what the architecture asks. `adc` and `cmp` are its addition and
comparison. -/
def HelpersExact (adc cmp : BitVec w → BitVec w → Flags → BitVec w × Bool × Flags) : Prop :=
  ∀ a b f, Exact false false a b (aluAdd a b f) ∧ Exact false f.cf a b (adc a b f) ∧
    Exact true false a b (aluSub a b f) ∧ Exact true f.cf a b (aluSbb a b f) ∧
    (cmp a b f).2 = (false, (aluSub a b f).2.2) ∧
    ∀ cc, conditionHolds cc (cmp a b f).2.2 = true ↔ Compares (cc.toNat % 16) a b

/-! ## The flags are exact -/

/-- The fifth bit of an exclusive or is the lowest bit of the sum without the low four bits. -/
theorem getLsbD_four_xor (x y z : BitVec w) : (x ^^^ y ^^^ z).getLsbD 4 = true ↔
    (x.toNat / 16 + y.toNat / 16 + z.toNat / 16) % 2 = 1 := by
  have bit (v : BitVec w) : v.getLsbD 4 = decide (v.toNat / 16 % 2 = 1) :=
    Nat.testBit_eq_decide_div_mod_eq
  rw [getLsbD_xor, getLsbD_xor, bit, bit, bit]
  rcases Nat.mod_two_eq_zero_or_one (x.toNat / 16) with hx | hx <;>
    rcases Nat.mod_two_eq_zero_or_one (y.toNat / 16) with hy | hy <;>
    rcases Nat.mod_two_eq_zero_or_one (z.toNat / 16) with hz | hz <;>
    simp [hx, hy, hz] <;> omega

theorem parity8_iff : ∀ b : BitVec 8, parity8 b = true ↔ EvenLow b := by
  decide +kernel

theorem parity8_setWidth (x : BitVec w) : parity8 (x.setWidth 8) = true ↔ EvenLow x := by
  rw [parity8_iff, EvenLow, EvenLow]
  refine iff_of_eq (congrArg Even (List.countP_congr fun i hi => ?_))
  rw [getLsbD_setWidth, decide_eq_true (List.mem_range.mp hi), Bool.true_and]

section Exact

variable {w : ℕ} (hw : w = 8 ∨ w = 16 ∨ w = 32) (a b : BitVec w) (f : Flags)
include hw

/-- A helper is exact when its result and its carry are. -/
theorem exact_aluResult {sub c cf : Bool} {r : BitVec w}
    (hr : (r.toNat : ℤ) = total sub c a.toNat b.toNat % 2 ^ w)
    (hcf : cf = true ↔ total sub c a.toNat b.toNat ∉ Set.Ico 0 (2 ^ w)) :
    Exact sub c a b (aluResult a b f r cf sub) := by
  have ha := a.isLt
  have hb := b.isLt
  have hc : c.toNat ≤ 1 := c.toNat_le
  refine ⟨?_, hcf, ?_, ?_, beq_iff_eq, ?_, parity8_setWidth r⟩
  · apply eq_of_toNat_eq
    rw [toNat_ofInt]
    push_cast
    exact (Int.toNat_natCast _).symm.trans (congrArg Int.toNat hr)
  · show BitVec.msb _ = true ↔ _
    rw [Set.mem_Ico, toInt_eq_toNat_cond a, toInt_eq_toNat_cond b]
    cases sub <;> simp only [if_true, if_false, msb_and, msb_xor, total,
      Bool.false_eq_true] at * <;> simp only [msb_eq_decide] <;>
      rcases hw with rfl | rfl | rfl <;> simp at * <;> omega
  · show BitVec.getLsbD _ 4 = true ↔ _
    rw [getLsbD_four_xor, Set.mem_Ico]
    cases sub <;> rcases hw with rfl | rfl | rfl <;> simp [total] at * <;> omega
  · show r.msb = true ↔ r.toInt < 0
    rw [msb_eq_toInt, decide_eq_true_iff]

theorem exact_aluSub : Exact true false a b (aluSub a b f) := by
  have ha := a.isLt
  have hb := b.isLt
  refine exact_aluResult hw a b f ?_ ?_
  · rw [toNat_sub, total, if_pos rfl]
    rcases hw with rfl | rfl | rfl <;> simp <;> omega
  · rcases hw with rfl | rfl | rfl <;> simp [usubOverflow, total] <;> omega

/-- After a comparison each condition code is the comparison that it stands for: the carry orders
words without a sign, sign and overflow those with one. -/
theorem conditionHolds_iff (cc : BitVec 8) :
    conditionHolds cc (aluSub a b f).2.2 = true ↔ Compares (cc.toNat % 16) a b := by
  obtain ⟨-, hcf, hof, -, hzf, hsf, hpf⟩ := exact_aluSub hw a b f
  have hcc : (cc &&& 0x0f).toNat = cc.toNat % 16 := by
    rw [toNat_and]
    exact Nat.and_two_pow_sub_one_eq_mod cc.toNat 4
  have hlt : cc.toNat % 16 < 16 := Nat.mod_lt _ (by decide)
  rw [conditionHolds, hcc]
  have hsub : (a - b).toInt = (a.toInt - b.toInt).bmod (2 ^ w) := toInt_sub
  have hzero : a - b = 0 ↔ a = b := sub_eq_zero
  have heq : a.toInt = b.toInt ↔ a.toNat = b.toNat := toInt_inj.trans toNat_inj.symm
  change _ ↔ a - b = 0 at hzf
  change _ ↔ (a - b).toInt < 0 at hsf
  change _ ↔ EvenLow (a - b) at hpf
  rw [hzero, ← toNat_inj] at hzf
  rw [total, if_pos rfl, Bool.toNat_false, Nat.cast_zero, add_zero] at hcf hof
  generalize cc.toNat % 16 = k at hlt
  generalize (aluSub a b f).2.2 = g at *
  have hbelow : g.cf = true ↔ a.toNat < b.toNat := by
    rw [hcf, Set.mem_Ico]
    have ha := a.isLt
    rcases hw with rfl | rfl | rfl <;> omega
  have hsigned : g.sf = g.of ↔ b.toInt ≤ a.toInt := by
    rw [Bool.eq_iff_iff, hsf, hof, Set.mem_Ico, hsub, Int.bmod_def]
    have ha := a.toInt_lt
    have hb := b.toInt_lt
    have ha' := a.le_toInt
    have hb' := b.le_toInt
    rcases hw with rfl | rfl | rfl <;> simp at * <;> omega
  interval_cases k <;>
    simp [Compares, Xor, hbelow, hof, hsf, hpf, hzf, hsigned, ← Bool.not_eq_true,
      lt_def, le_def, ← toNat_inj] <;>
    omega

omit a b f in
/-- The helpers of a width, from the carry of its addition with carry and the flags of its
comparison. -/
theorem helpersExact_of {adc cmp : BitVec w → BitVec w → Flags → BitVec w × Bool × Flags}
    (hadc : ∀ a b f, ∃ cf, adc a b f = aluResult a b f (a + b + f.carry w) cf false ∧
      (cf = true ↔ 2 ^ w ≤ a.toNat + b.toNat + f.cf.toNat))
    (hcmp : ∀ a b f, (cmp a b f).2 = (false, (aluSub a b f).2.2)) : HelpersExact adc cmp := by
  intro a b f
  have ha := a.isLt
  have hb := b.isLt
  have hc : f.cf.toNat ≤ 1 := f.cf.toNat_le
  refine ⟨?_, ?_, exact_aluSub hw a b f, ?_, hcmp a b f, fun cc => ?_⟩
  · refine exact_aluResult hw a b f ?_ ?_
    · simp [total]
    · rcases hw with rfl | rfl | rfl <;> simp [uaddOverflow, total] <;> omega
  · obtain ⟨cf, heq, hcf⟩ := hadc a b f
    rw [heq]
    refine exact_aluResult hw a b f ?_ ?_
    · simp [total, Flags.carry, add_assoc]
    · rw [hcf]
      rcases hw with rfl | rfl | rfl <;> simp [total] <;> omega
  · refine exact_aluResult hw a b f ?_ ?_
    · rcases hw with rfl | rfl | rfl <;> simp [total, Flags.carry, toNat_sub] <;> omega
    · rcases hw with rfl | rfl | rfl <;> simp [total] <;> omega
  · rw [hcmp]
    exact conditionHolds_iff hw a b f cc

end Exact

/-- At the three widths the helpers are exact, and after a comparison each condition code is the
comparison that it stands for. -/
theorem alu_exact : HelpersExact (w := 8) aluAdc aluCmp ∧ HelpersExact (w := 16) aluAdc aluCmp ∧
    HelpersExact aluAdc32 aluCmp32 := by
  refine ⟨helpersExact_of (.inl rfl) (fun _ _ _ => ⟨_, rfl, ?_⟩) (fun _ _ _ => rfl),
    helpersExact_of (.inr (.inl rfl)) (fun _ _ _ => ⟨_, rfl, ?_⟩) (fun _ _ _ => rfl),
    helpersExact_of (.inr (.inr rfl)) (fun a b f => ⟨_, rfl, ?_⟩) (fun _ _ _ => rfl)⟩
  · rw [decide_eq_true_iff]
    omega
  · rw [decide_eq_true_iff]
    omega
  -- A carry into the largest word gives the other operand back, which is not below itself.
  have ha := a.isLt
  have hb := b.isLt
  rw [Bool.or_eq_true, decide_eq_true_iff, BitVec.lt_def, Bool.and_eq_true, beq_iff_eq,
    ← BitVec.toNat_inj]
  cases hf : f.cf <;> simp [Flags.carry, hf] <;> omega

end Univdreams.Emulator
