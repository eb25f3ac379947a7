import Univdreams.Compile.EvmMeaning
import Univdreams.Decompile.EvmLift

/-!
# The values of lifted expressions

The value of a lifted expression under an assignment of its variables and of what it reads from the
environment, and the proof that the idioms which `simplify` rewrites keep it, for every expression.
The expressions built from constants, variables and pure operations alone have their value from the
variables. The bound on the recursion of `simplify` is large enough: `simplifyWithin_succ` shows
that a larger one gives the same result.
-/

namespace Univdreams.Decompile

open Evm BitVec Option List Decompile.Expr Compile
open Compile (addressMask Word.ofBytes_stripZeros)

/-- The value of an operation with one operand. -/
def UnaryOp.denote : UnaryOp → Word → Word
  | .iszero, a => truth (a == 0)
  | .not, a => ~~~a
  | .address, a => a &&& addressMask
  | .bool, a => truth (a != 0)

/-- The value of an operation with two operands, in the order of the pops. -/
def BinaryOp.denote : BinaryOp → Word → Word → Word
  | .add, a, b => a + b
  | .sub, a, b => a - b
  | .mul, a, b => a * b
  | .div, a, b => a / b
  | .mod, a, b => if b = 0 then 0 else a % b
  | .exp, a, b => BitVec.ofNat 256 (a.toNat ^ b.toNat)
  | .and, a, b => a &&& b
  | .or, a, b => a ||| b
  | .xor, a, b => a ^^^ b
  | .shl, a, b => b <<< a.toNat
  | .shr, a, b => b >>> a.toNat
  | .lt, a, b => truth (a.ult b)
  | .gt, a, b => truth (b.ult a)
  | .eq, a, b => truth (a == b)
  | .ne, a, b => truth (a != b)
  | .le, a, b => truth (a.ule b)
  | .ge, a, b => truth (b.ule a)

namespace Expr

/-- An expression of 256-bit constants, variables and pure operations. -/
def isPure : Expr → Bool
  | .const b => (stripZeros b).length ≤ 32
  | .var _ => true
  | .un _ x => isPure x
  | .bin _ x y => isPure x && isPure y
  | .other _ _ => false

/-- The value of a pure expression under an assignment of its variables. -/
def eval (σ : Text → Word) : Expr → Word
  | .const b => Word.ofBytes b
  | .var v => σ v
  | .un op x => op.denote (eval σ x)
  | .bin op x y => op.denote (eval σ x) (eval σ y)
  | .other _ _ => 0

end Expr

/-! ## Every expression -/

/-- An assignment of the variables, and of what the other operations give on their operands: reads
of the environment, of memory and of storage, calls, hashes. -/
structure Assignment where
  var : Text → Word
  other : Text → List Word → Word

/-- The first word of the call data. -/
def Assignment.calldata0 (ρ : Assignment) : Word := ρ.other "calldataload".toList [0]

/-- The value of an operation without a constructor. The selector is the high four bytes of the call
data, and signed comparisons are truth values. -/
def Assignment.denote (ρ : Assignment) (name : Text) (vs : List Word) : Word :=
  if name = "msg.sig".toList then ρ.calldata0 >>> 224
  else if name = "slt".toList then truth ((vs.getD 0 0).slt (vs.getD 1 0))
  else if name = "sgt".toList then truth ((vs.getD 1 0).slt (vs.getD 0 0))
  else ρ.other name vs

namespace Expr

mutual

/-- The value of an expression. -/
def denote (ρ : Assignment) : Expr → Word
  | .const b => Word.ofBytes b
  | .var v => ρ.var v
  | .un op x => op.denote (denote ρ x)
  | .bin op x y => op.denote (denote ρ x) (denote ρ y)
  | .other name args => ρ.denote name (denoteList ρ args)

/-- The values of a list of operands. -/
def denoteList (ρ : Assignment) : List Expr → List Word
  | [] => []
  | x :: xs => denote ρ x :: denoteList ρ xs

end

theorem denoteList_eq_map (ρ : Assignment) (xs : List Expr) :
    denoteList ρ xs = xs.map (denote ρ) := by
  induction xs with
  | nil => rfl
  | cons x xs ih => rw [denoteList, ih, map_cons]

/-- A pure expression reads its variables only. -/
theorem denote_of_isPure {σ : Text → Word} {other : Text → List Word → Word} :
    ∀ {e : Expr}, e.isPure → e.denote ⟨σ, other⟩ = e.eval σ
  | .const _, _ | .var _, _ => rfl
  | .un op x, h => congrArg op.denote (denote_of_isPure (e := x) h)
  | .bin op x y, h => by
    simp only [isPure, Bool.and_eq_true] at h
    exact congrArg₂ op.denote (denote_of_isPure h.1) (denote_of_isPure h.2)

end Expr

section Rules

variable {ρ : Assignment} {op : BinaryOp} {x : Expr}

/-- A small constant has its value. -/
theorem denote_of_constValue {n : ℕ} (h : x.constValue = some n) :
    n < 2 ^ 64 ∧ x.denote ρ = BitVec.ofNat 256 n := by
  match x, h with
  | .const b, h =>
    simp only [constValue, ite_none_right_eq_some, Option.some.injEq] at h
    obtain ⟨hlen, rfl⟩ := h
    refine ⟨?_, ?_⟩
    · calc ofBe (stripZeros b) < 256 ^ (stripZeros b).length := ofBe_lt _
        _ ≤ 256 ^ 8 := Nat.pow_le_pow_right (by decide) hlen
        _ = 2 ^ 64 := by decide
    · rw [denote, ← Word.ofBytes_stripZeros]
      rfl

theorem isPure_const_toBe (n : ℕ) : (const (toBe 8 n)).isPure := by
  have hle : (stripZeros (toBe 8 n)).length ≤ (toBe 8 n).length := (dropWhile_suffix _).length_le
  simp only [length_toBe] at hle
  simp only [isPure, decide_eq_true_eq]
  omega

theorem denote_const_toBe {n : ℕ} (h : n < 2 ^ 64) :
    (const (toBe 8 n)).denote ρ = BitVec.ofNat 256 n := by
  rw [denote, Word.ofBytes, ofBe_toBe, Nat.mod_eq_of_lt (by simpa using h)]

/-- The arithmetic of `fold` is that of the operation. -/
theorem foldNumbers_denote {a b r : ℕ} (ha : a < 2 ^ 64) (hb : b < 2 ^ 64) (hr : r < 2 ^ 64)
    (h : foldNumbers op a b = some r) :
    op.denote (BitVec.ofNat 256 a) (BitVec.ofNat 256 b) = BitVec.ofNat 256 r := by
  have ha' : a % 2 ^ 256 = a := Nat.mod_eq_of_lt (by omega)
  have hb' : b % 2 ^ 256 = b := Nat.mod_eq_of_lt (by omega)
  have hr' : r % 2 ^ 256 = r := Nat.mod_eq_of_lt (by omega)
  have htoa : (BitVec.ofNat 256 a).toNat = a := by rw [toNat_ofNat, ha']
  have htob : (BitVec.ofNat 256 b).toNat = b := by rw [toNat_ofNat, hb']
  apply eq_of_toNat_eq
  rw [toNat_ofNat, hr']
  cases op with
  | add =>
    cases h
    rw [BinaryOp.denote, toNat_add, htoa, htob, Nat.mod_eq_of_lt (by omega)]
  | sub =>
    simp only [foldNumbers, ite_none_right_eq_some, Option.some.injEq] at h
    rw [BinaryOp.denote, toNat_sub, htoa, htob]
    omega
  | mul =>
    cases h
    rw [BinaryOp.denote, toNat_mul, htoa, htob, Nat.mod_eq_of_lt (by omega)]
  | div =>
    simp only [foldNumbers, ite_none_left_eq_some, Option.some.injEq] at h
    rw [BinaryOp.denote, toNat_udiv, htoa, htob, h.2]
  | mod =>
    simp only [foldNumbers, ite_none_left_eq_some, Option.some.injEq] at h
    have hne : BitVec.ofNat 256 b ≠ 0 := by
      intro hzero
      have := congrArg BitVec.toNat hzero
      rw [htob] at this
      exact h.1 this
    rw [BinaryOp.denote, if_neg hne, toNat_umod, htoa, htob, h.2]
  | and =>
    cases h
    rw [BinaryOp.denote, toNat_and, htoa, htob]
  | or =>
    cases h
    rw [BinaryOp.denote, toNat_or, htoa, htob]
  | xor =>
    cases h
    rw [BinaryOp.denote, toNat_xor, htoa, htob]
  | shl =>
    simp only [foldNumbers, ite_none_right_eq_some, Option.some.injEq] at h
    rw [BinaryOp.denote, toNat_shiftLeft, htoa, htob, Nat.shiftLeft_eq, h.2, hr']
  | shr =>
    simp only [foldNumbers, ite_none_right_eq_some, Option.some.injEq] at h
    rw [BinaryOp.denote, toNat_ushiftRight, htoa, htob, Nat.shiftRight_eq_div_pow, h.2]
  | exp =>
    simp only [foldNumbers, checkedPow, ite_none_right_eq_some, Option.some.injEq] at h
    rw [BinaryOp.denote, toNat_ofNat, htoa, htob, h.2.2, hr']
  | lt | gt | eq | ne | le | ge => cases h

/-- What constant folding gives is a small constant. -/
theorem fold_eq_some {y e : Expr} (h : fold op x y = some e) :
    ∃ a b r, x.constValue = some a ∧ y.constValue = some b ∧ foldNumbers op a b = some r ∧
      r < 2 ^ 64 ∧ e = .const (toBe 8 r) := by
  unfold fold at h
  simp only [bind_eq_bind, bind_eq_some_iff, ite_none_right_eq_some, Option.some.injEq] at h
  obtain ⟨a, ha, b, hb, r, hr, hlt, rfl⟩ := h
  exact ⟨a, b, r, ha, hb, hr, hlt, rfl⟩

/-- Constant folding keeps the value. -/
theorem denote_fold {y e : Expr} (h : fold op x y = some e) :
    e.denote ρ = op.denote (x.denote ρ) (y.denote ρ) := by
  obtain ⟨a, b, r, ha, hb, hr, hlt, rfl⟩ := fold_eq_some h
  obtain ⟨halt, hav⟩ := denote_of_constValue (ρ := ρ) ha
  obtain ⟨hblt, hbv⟩ := denote_of_constValue (ρ := ρ) hb
  rw [denote_const_toBe hlt, hav, hbv, foldNumbers_denote halt hblt hlt hr]

/-- A comparison with swapped operands is the mirrored one. -/
theorem denote_mirrorCmp {mirrored : BinaryOp} (h : mirrorCmp op = some mirrored) (a b : Word) :
    mirrored.denote b a = op.denote a b := by
  have hbeq : (b == a) = (a == b) := by
    rw [Bool.eq_iff_iff, beq_iff_eq, beq_iff_eq]
    exact eq_comm
  have hbne : (b != a) = (a != b) := by rw [bne, bne, hbeq]
  cases op with
  | eq => cases h; exact congrArg truth hbeq
  | ne => cases h; exact congrArg truth hbne
  | lt | gt | le | ge => cases h; rfl
  | add | sub | mul | div | mod | exp | and | or | xor | shl | shr => cases h

/-- A comparison is mirrored, or two constants are folded, or the operation stays. -/
theorem mirrorOrFold_induction {P : Expr → Prop} {y : Expr}
    (mirror : ∀ m, mirrorCmp op = some m → P (.bin m y x))
    (folded : ∀ n, fold op x y = some (.const (toBe 8 n)) → P (.const (toBe 8 n)))
    (stay : P (.bin op x y)) : P (mirrorOrFold op x y) := by
  have hfold : P ((fold op x y).getD (.bin op x y)) := by
    cases h : fold op x y with
    | none => exact stay
    | some e =>
      obtain ⟨-, -, n, -, -, -, -, rfl⟩ := fold_eq_some h
      exact folded n h
  unfold mirrorOrFold
  split
  · rename_i m hm
    split_ifs
    · exact mirror m hm
    · exact hfold
  · exact hfold

/-- The rules for two operands give the selector, an operand that is it already, an operand as an
address, a subtraction, or what `mirrorOrFold` gives. -/
theorem simplifyBin_induction {P : Expr → Prop} {y : Expr}
    (sig : isCalldata0 x ∨ isCalldata0 y → P msgSig) (left : isMsgSig x → P x)
    (right : isMsgSig y → P y)
    (address : ∀ z, z = x ∨ z = y → P (if isAddress z then z else .un .address z))
    (sub : ∀ z n, z = x ∨ z = y → P (.bin .sub z (.const (toBe 8 n))))
    (stay : P (mirrorOrFold op x y)) : P (simplifyBin op x y) := by
  cases op with
  | shr =>
    rw [simplifyBin]
    split_ifs with h
    · exact sig (.inr (Bool.and_eq_true_iff.1 h).2)
    · exact stay
  | div =>
    rw [simplifyBin]
    split_ifs with h
    · exact sig (.inl (Bool.and_eq_true_iff.1 h).1)
    · exact stay
  | and =>
    rw [simplifyBin]
    split
    · next h => exact left (Bool.and_eq_true_iff.1 h).2
    split
    · next h => exact right (Bool.and_eq_true_iff.1 h).2
    split
    · exact address _ (ite_eq_or_eq ..)
    · exact stay
  | add =>
    rw [simplifyBin]
    split
    · exact sub x _ (.inl rfl)
    split
    · exact sub y _ (.inr rfl)
    · exact stay
  | _ => exact stay

/-- The negation of a comparison is the inverse one. -/
theorem denote_inverseCmp {inverse : BinaryOp} (h : inverseCmp op = some inverse) (a b : Word) :
    inverse.denote a b = UnaryOp.denote .iszero (op.denote a b) := by
  cases op <;> cases h <;>
    simp only [BinaryOp.denote, UnaryOp.denote, truth_eq_zero, ule_eq_not_ult, bne, Bool.not_not]

theorem denote_mirrorOrFold (op : BinaryOp) (x y : Expr) :
    (mirrorOrFold op x y).denote ρ = op.denote (x.denote ρ) (y.denote ρ) := by
  refine mirrorOrFold_induction
    (P := fun e => e.denote ρ = op.denote (x.denote ρ) (y.denote ρ)) ?_ ?_ rfl
  · exact fun m hm => denote_mirrorCmp hm _ _
  · exact fun n h => denote_fold h

/-- A mask of the low 4 or 20 bytes has the value of the mask. -/
theorem denote_of_isMask {n : ℕ} (hn : n = 4 ∨ n = 20) (h : isMask x n) :
    x.denote ρ = BitVec.ofNat 256 (2 ^ (8 * n) - 1) := by
  unfold isMask at h
  rw [Bool.or_eq_true] at h
  rcases h with h | h
  · match x, h with
    | .const b, h =>
      simp only [isConstBytes, Bool.and_eq_true, decide_eq_true_eq, List.all_eq_true,
        beq_iff_eq] at h
      have hb : stripZeros b = List.replicate n 0xff := List.eq_replicate_iff.2 h
      rw [denote, ← Word.ofBytes_stripZeros, hb]
      rcases hn with rfl | rfl <;> rfl
  match x, h with
  | .bin .sub (.bin .shl s v) one, h =>
    simp only [Bool.and_eq_true, decide_eq_true_eq] at h
    obtain ⟨⟨hone, hs⟩, hv⟩ := h
    simp only [denote, BinaryOp.denote, (denote_of_constValue (ρ := ρ) hone).2,
      (denote_of_constValue (ρ := ρ) hs).2, (denote_of_constValue (ρ := ρ) hv).2]
    rcases hn with rfl | rfl <;> decide

/-- Masking an address again does nothing. -/
theorem denote_and_mask_of_isAddress (h : isAddress x) :
    x.denote ρ &&& addressMask = x.denote ρ := by
  match x, h with
  | .un .address y, _ =>
    simp only [denote, UnaryOp.denote, BitVec.and_assoc, BitVec.and_self]

/-- The first word of the call data is what the read of it gives. -/
theorem denote_of_isCalldata0 (h : isCalldata0 x) : x.denote ρ = ρ.calldata0 := by
  match x, h with
  | .other name [a], h =>
    simp only [isCalldata0, Bool.and_eq_true, decide_eq_true_eq] at h
    obtain ⟨rfl, ha⟩ := h
    have hzero : a.denote ρ = 0 := (denote_of_constValue ha).2
    rw [denote, denoteList, denoteList, hzero, Assignment.denote, if_neg (by decide),
      if_neg (by decide), if_neg (by decide), Assignment.calldata0]

/-- The selector is the high four bytes of the call data. -/
theorem denote_of_isMsgSig (h : isMsgSig x) : x.denote ρ = ρ.calldata0 >>> 224 := by
  match x, h with
  | .other name args, h =>
    simp only [isMsgSig, decide_eq_true_eq] at h
    rw [denote, Assignment.denote, if_pos h]

theorem denote_msgSig : msgSig.denote ρ = ρ.calldata0 >>> 224 := denote_of_isMsgSig rfl

/-- The selector fits in its mask. -/
theorem shiftRight_and_mask (w : Word) :
    w >>> 224 &&& BitVec.ofNat 256 (2 ^ (8 * 4) - 1) = w >>> 224 := by
  apply eq_of_toNat_eq
  have hlt := w.isLt
  rw [toNat_and, toNat_ushiftRight, toNat_ofNat, Nat.shiftRight_eq_div_pow,
    Nat.mod_eq_of_lt (by decide), Nat.and_two_pow_sub_one_eq_mod, Nat.mod_eq_of_lt]
  omega

/-- A constant that `inverted_small` accepts has 24 high bytes of ones. -/
theorem ofBe_of_invertedSmall {b : Bytes} {inv : ℕ} (h : invertedSmall b = some inv) :
    inv < 2 ^ 64 ∧ ofBe b = 2 ^ 256 - 1 - inv := by
  simp only [invertedSmall, ite_none_right_eq_some, Option.some.injEq] at h
  obtain ⟨⟨hlen, htop⟩, rfl⟩ := h
  set low := ofBe ((stripZeros b).drop 24) with hlow
  have hlowlt : low < 2 ^ 64 := by
    have := ofBe_lt ((stripZeros b).drop 24)
    simpa [hlen] using this
  have hval : ofBe (stripZeros b) = (2 ^ 192 - 1) * 2 ^ 64 + low := by
    conv_lhs => rw [← take_append_drop 24 (stripZeros b), htop]
    rw [ofBe_append, ← hlow, length_drop, hlen]
    congr 1
  rw [ofBe_stripZeros] at hval
  omega

/-- Adding a constant close to `2^256` is subtracting a small one. -/
theorem denote_of_subtrahend {n : ℕ} (h : subtrahend x = some n) :
    n < 2 ^ 64 ∧ x.denote ρ = -BitVec.ofNat 256 n := by
  match x, h with
  | .const c, h =>
    simp only [subtrahend] at h
    split at h
    · rename_i inv hinv
      obtain ⟨-, hval⟩ := ofBe_of_invertedSmall hinv
      rw [ite_none_right_eq_some, Option.some.injEq] at h
      refine ⟨by omega, ?_⟩
      rw [denote, Word.ofBytes, hval]
      apply eq_of_toNat_eq
      rw [toNat_neg, toNat_ofNat, toNat_ofNat]
      omega
    · cases h

/-- The division by `2^224` is the shift by 224 bits. -/
theorem denote_div_selector {y : Expr} (h : y.isConstBytes fun b => b = 1 :: List.replicate 28 0)
    (w : Word) : w / y.denote ρ = w >>> 224 := by
  match y, h with
  | .const b, h =>
    simp only [isConstBytes, decide_eq_true_eq] at h
    have hval : (const b).denote ρ = BitVec.ofNat 256 (2 ^ 224) := by
      rw [denote, ← Word.ofBytes_stripZeros, h]
      rfl
    rw [hval]
    apply eq_of_toNat_eq
    rw [toNat_udiv, toNat_ofNat, Nat.mod_eq_of_lt (by norm_num),
      toNat_ushiftRight, Nat.shiftRight_eq_div_pow]

/-- The rules for two operands keep the value. -/
theorem denote_simplifyBin (op : BinaryOp) (x y : Expr) :
    (simplifyBin op x y).denote ρ = op.denote (x.denote ρ) (y.denote ρ) := by
  cases op with
  | shr =>
    simp only [simplifyBin]
    split_ifs with h
    · rw [Bool.and_eq_true, decide_eq_true_eq] at h
      rw [denote_msgSig, denote_of_isCalldata0 h.2, (denote_of_constValue h.1).2]
      rfl
    · exact denote_mirrorOrFold _ x y
  | div =>
    simp only [simplifyBin]
    split_ifs with h
    · rw [Bool.and_eq_true] at h
      rw [denote_msgSig, denote_of_isCalldata0 h.1]
      exact (denote_div_selector h.2 _).symm
    · exact denote_mirrorOrFold _ x y
  | and =>
    simp only [simplifyBin]
    -- A conjunction with the mask is the address of the other operand.
    have haddr : ∀ {z m : Expr}, isMask m 20 →
      (if isAddress z then z else .un .address z).denote ρ =
        z.denote ρ &&& m.denote ρ := by
      intro z m hm
      rw [denote_of_isMask (.inr rfl) hm]
      split_ifs with ha
      · exact (denote_and_mask_of_isAddress ha).symm
      · rfl
    by_cases h1 : isMask y 4 && isMsgSig x
    · rw [if_pos h1]
      rw [Bool.and_eq_true] at h1
      rw [BinaryOp.denote, denote_of_isMask (.inl rfl) h1.1, denote_of_isMsgSig h1.2,
        shiftRight_and_mask]
    rw [if_neg h1]
    by_cases h2 : isMask x 4 && isMsgSig y
    · rw [if_pos h2]
      rw [Bool.and_eq_true] at h2
      rw [BinaryOp.denote, denote_of_isMask (.inl rfl) h2.1, denote_of_isMsgSig h2.2,
        BitVec.and_comm, shiftRight_and_mask]
    rw [if_neg h2]
    by_cases hy : isMask y 20
    · simp only [hy, Bool.true_or, if_true]
      exact haddr hy
    by_cases hx : isMask x 20
    · simp only [hy, hx, Bool.or_true, if_true]
      exact (haddr hx).trans (BitVec.and_comm _ _)
    · simp only [hy, hx]
      exact denote_mirrorOrFold .and x y
  | add =>
    simp only [simplifyBin]
    split
    · rename_i n hsub
      obtain ⟨hlt, hval⟩ := denote_of_subtrahend (ρ := ρ) hsub
      rw [denote, denote_const_toBe hlt, hval]
      exact BitVec.sub_eq_add_neg _ _
    split
    · rename_i n hsub
      obtain ⟨hlt, hval⟩ := denote_of_subtrahend (ρ := ρ) hsub
      rw [denote, denote_const_toBe hlt, hval]
      exact (BitVec.sub_eq_add_neg _ _).trans (add_comm _ _)
    · exact denote_mirrorOrFold _ x y
  | sub | mul | mod | exp | or | xor | shl | lt | gt | eq | ne | le | ge =>
    simp only [simplifyBin]
    exact denote_mirrorOrFold _ x y

/-- An operation that gives zero or one is a truth value. -/
theorem truth_of_isBoolean (h : isBoolean x) : truth (x.denote ρ != 0) = x.denote ρ := by
  have htruth : ∀ c : Bool, truth (truth c != 0) = truth c := by decide
  match x, h with
  | .un .bool y, _ => exact htruth _
  | .un .iszero y, _ => exact htruth _
  | .bin op y z, h =>
    cases op with
    | lt | gt | eq | ne | le | ge => exact htruth _
    | add | sub | mul | div | mod | exp | and | or | xor | shl | shr => cases h
  | .other name args, h =>
    simp only [isBoolean, Bool.or_eq_true, decide_eq_true_eq] at h
    rcases h with rfl | rfl
    · exact htruth _
    · exact htruth _

/-- The rules for one operand keep the value, when simplifying a comparison again does. -/
theorem denote_simplifyUn {again : Expr → Expr} (hagain : ∀ e, (again e).denote ρ = e.denote ρ)
    (op : UnaryOp) (x : Expr) : (simplifyUn again op x).denote ρ = op.denote (x.denote ρ) := by
  unfold simplifyUn
  split
  · -- A double negation.
    rename_i y
    have hval : UnaryOp.denote .iszero ((Expr.un .iszero y).denote ρ) =
      truth (y.denote ρ != 0) := by
      simp only [denote, UnaryOp.denote, truth_eq_zero, bne]
    split_ifs with hb
    · rw [hval, truth_of_isBoolean hb]
    · exact hval.symm
  · -- The negation of an operation with two operands.
    rename_i cmp y z
    cases hinv : inverseCmp cmp with
    | none => rfl
    | some inverse => exact (hagain _).trans (denote_inverseCmp hinv _ _)
  · -- The negation of a conversion to a boolean.
    rename_i y
    simp only [denote, UnaryOp.denote, truth_eq_zero, bne, Bool.not_not]
  · rfl

/-- `simplify` keeps the value of every expression, within any bound. -/
theorem denote_simplifyWithin (n : ℕ) : ∀ e : Expr, (simplifyWithin n e).denote ρ = e.denote ρ := by
  induction n with
  | zero => exact fun e => rfl
  | succ n ih =>
    intro e
    match e with
    | .const b | .var v => rfl
    | .un op x =>
      rw [simplifyWithin, denote_simplifyUn ih, ih, denote]
    | .bin op x y =>
      rw [simplifyWithin, denote_simplifyBin, ih, ih, denote]
    | .other name args =>
      rw [simplifyWithin, denote, denote, denoteList_eq_map, denoteList_eq_map, List.map_map]
      exact congrArg (ρ.denote name) (map_congr_left fun a _ => ih a)

end Rules

/-! ## Pure expressions -/

section Pure

variable {σ : Text → Word}

/-- A simplification that keeps an expression pure, and its value. -/
def Keeps (σ : Text → Word) (e e' : Expr) : Prop := e'.isPure ∧ e'.eval σ = e.eval σ

/-- A pure expression is not a read of the call data or the selector. -/
theorem not_calldata0_of_isPure {x : Expr} (h : x.isPure) : isCalldata0 x = false := by
  cases x <;> simp_all [isPure, isCalldata0]

theorem not_msgSig_of_isPure {x : Expr} (h : x.isPure) : isMsgSig x = false := by
  cases x <;> simp_all [isPure, isMsgSig]

/-- Simplifying an operator keeps its expression pure. -/
theorem isPure_simplifyBin (op : BinaryOp) {x y : Expr} (hx : x.isPure) (hy : y.isPure) :
    (simplifyBin op x y).isPure := by
  have hbin : ∀ {z w : Expr} (op : BinaryOp), z.isPure → w.isPure → (bin op z w).isPure :=
    fun op hz hw => Bool.and_eq_true_iff.2 ⟨hz, hw⟩
  refine simplifyBin_induction (P := fun e => e.isPure) ?_ (fun _ => hx) (fun _ => hy) ?_ ?_ ?_
  · simp [not_calldata0_of_isPure hx, not_calldata0_of_isPure hy]
  · rintro z (rfl | rfl) <;> split_ifs <;> assumption
  · rintro z n (rfl | rfl)
    · exact hbin .sub hx (isPure_const_toBe n)
    · exact hbin .sub hy (isPure_const_toBe n)
  · exact mirrorOrFold_induction (P := fun e => e.isPure) (fun m _ => hbin m hy hx)
      (fun n _ => isPure_const_toBe n) (hbin op hx hy)

/-- Simplifying keeps an expression pure. -/
theorem isPure_simplifyWithin (n : ℕ) : ∀ e : Expr, e.isPure → (simplifyWithin n e).isPure := by
  induction n with
  | zero => exact fun e he => he
  | succ n ih =>
    intro e he
    match e, he with
    | .const b, he | .var v, he => exact he
    | .un op x, he =>
      have hx := ih x he
      rw [simplifyWithin]
      generalize simplifyWithin n x = x' at hx
      unfold simplifyUn
      split
      · split_ifs
        · exact hx
        · exact hx
      · split
        · exact ih _ hx
        · exact hx
      · exact hx
      · exact hx
    | .bin op x y, he =>
      simp only [isPure, Bool.and_eq_true] at he
      exact isPure_simplifyBin op (ih x he.1) (ih y he.2)

/-- `simplify` keeps a pure expression pure, and its value. -/
theorem keeps_simplify {e : Expr} (he : e.isPure) : Keeps σ e (simplify e) := by
  have hpure : (simplify e).isPure := isPure_simplifyWithin _ e he
  refine ⟨hpure, ?_⟩
  calc (simplify e).eval σ = (simplify e).denote ⟨σ, fun _ _ => 0⟩ :=
        (denote_of_isPure hpure).symm
    _ = e.denote ⟨σ, fun _ _ => 0⟩ := denote_simplifyWithin _ e
    _ = e.eval σ := denote_of_isPure he

end Pure

/-! ## The bound on the recursion -/

theorem nodes_pos (e : Expr) : 0 < e.nodes := by
  cases e <;> simp [Expr.nodes]

/-- The rules for two operands do not make an expression larger. -/
theorem nodes_simplifyBin_le (op : BinaryOp) (x y : Expr) :
    (simplifyBin op x y).nodes ≤ (bin op x y).nodes := by
  have hx := nodes_pos x
  have hy := nodes_pos y
  refine simplifyBin_induction (P := fun e => e.nodes ≤ (bin op x y).nodes) ?_ ?_ ?_ ?_ ?_ ?_
  · intro _
    simp only [msgSig, nodes, nodesList]
    omega
  · intro _
    simp only [nodes]
    omega
  · intro _
    simp only [nodes]
    omega
  · rintro z (rfl | rfl) <;> split_ifs <;> simp only [nodes] <;> omega
  · rintro z n (rfl | rfl) <;> simp only [nodes] <;> omega
  · refine mirrorOrFold_induction (P := fun e => e.nodes ≤ (bin op x y).nodes) ?_ ?_ le_rfl
    · intro m _
      simp only [nodes]
      omega
    intro n _
    simp only [nodes]
    omega

/-- `simplify` does not make an expression larger, within any bound. -/
theorem nodes_simplifyWithin_le (n : ℕ) : ∀ e : Expr, (simplifyWithin n e).nodes ≤ e.nodes := by
  induction n with
  | zero => exact fun e => le_rfl
  | succ n ih =>
    intro e
    match e with
    | .const b | .var v => exact le_rfl
    | .un op x =>
      have hx := ih x
      refine le_trans (b := 1 + (simplifyWithin n x).nodes) ?_ (by simp only [nodes]; omega)
      simp only [simplifyWithin]
      generalize simplifyWithin n x = y
      unfold simplifyUn
      split
      · split_ifs
        · simp only [nodes]
          omega
        · simp only [nodes]
          omega
      · split
        · exact (ih _).trans (by simp only [nodes]; omega)
        · simp only [nodes, le_refl]
      · simp only [nodes]
        omega
      · simp only [nodes, le_refl]
    | .bin op x y =>
      have hx := ih x
      have hy := ih y
      refine (nodes_simplifyBin_le op _ _).trans ?_
      simp only [nodes]
      omega
    | .other name args =>
      simp only [simplifyWithin, nodes, Nat.add_le_add_iff_left]
      induction args with
      | nil => exact le_rfl
      | cons a as iha =>
        simp only [map_cons, nodesList]
        have := ih a
        omega

/-- A larger bound does not change the result: `simplify` never runs out of it. -/
theorem simplifyWithin_succ (n : ℕ) : ∀ e : Expr, e.nodes ≤ n →
    simplifyWithin (n + 1) e = simplifyWithin n e := by
  induction n with
  | zero =>
    intro e he
    have := nodes_pos e
    omega
  | succ n ih =>
    intro e he
    match e, he with
    | .const b, _ | .var v, _ => rfl
    | .un op x, he =>
      simp only [nodes] at he
      have hx : simplifyWithin (n + 1) x = simplifyWithin n x := ih x (by omega)
      have hle : (simplifyWithin n x).nodes ≤ n := (nodes_simplifyWithin_le n x).trans (by omega)
      rw [simplifyWithin, simplifyWithin, hx]
      -- The result that is simplified again is no larger than the operand.
      generalize simplifyWithin n x = y at hle
      unfold simplifyUn
      split
      · rfl
      · split
        · exact ih _ hle
        · rfl
      · rfl
      · rfl
    | .bin op x y, he =>
      simp only [nodes] at he
      rw [simplifyWithin, simplifyWithin, ih x (by omega), ih y (by omega)]
    | .other name args, he =>
      simp only [nodes] at he
      rw [simplifyWithin, simplifyWithin]
      congr 1
      refine map_congr_left fun a ha => ih a ?_
      have hmem : a.nodes ≤ nodesList args := by
        clear he
        induction args with
        | nil => simp at ha
        | cons b bs ihb =>
          simp only [nodesList]
          rcases mem_cons.1 ha with rfl | ha
          · omega
          · have := ihb ha
            omega
      omega

/-! ## Rewriting idioms -/

/-- Rewriting idioms keeps the value of every lifted expression, under every assignment of its
variables and of what it reads. The recursion always ends within the bound it has. -/
theorem simplify_denotes (e : Expr) (ρ : Assignment) :
    (simplify e).denote ρ = e.denote ρ ∧ ∀ n, simplifyWithin (e.nodes + n) e = simplify e := by
  refine ⟨denote_simplifyWithin _ e, fun n => ?_⟩
  induction n with
  | zero => rfl
  | succ n ih =>
    rw [← ih]
    exact simplifyWithin_succ (e.nodes + n) e (by omega)

/-- Extracting the selector and comparing it, as a contract's dispatcher does. -/
example : simplify (.un .iszero (.bin .eq (.const [0xa9, 0x05, 0x9c, 0xbb])
    (.bin .shr (.const [0xe0]) (.other "calldataload".toList [.const []])))) =
      .bin .ne msgSig (.const [0xa9, 0x05, 0x9c, 0xbb]) := rfl

end Univdreams.Decompile
