import Univdreams.Compile.EvmValue

/-!
# Lowered expressions mean what they say

`Means ρ scope vyper e v` is the value of an expression under EVM arithmetic: constants, live stack
slots, known selectors, the unary and binary operators, the entry of a mapping, and the two
conversions. It is stated without the translation, in terms of words, and `lowerExpr_means` compares
the two: the symbolic value that `lower_expr` makes of such an expression is pure, and stands for
its value. With the correctness of the emitter this gives `value_lowerExpr_correct`, for the code
that is generated for an expression.
-/

namespace Univdreams.Compile

open Evm BitVec Compile.Sym Run List

variable {s : Sym} {a b : Word} {opts : Opts} {scope : Scope} {ρ : Valuation}

/-- The value of a binary operator on 256-bit words. A division by zero gives zero, and truth values
are zero and one. -/
def BinOp.denote : BinOp → Word → Word → Word
  | .add, a, b => a + b
  | .sub, a, b => a - b
  | .mul, a, b => a * b
  | .div, a, b => a / b
  | .mod, a, b => if b = 0 then 0 else a % b
  | .exp, a, b => BitVec.ofNat 256 (a.toNat ^ b.toNat)
  | .and, a, b => a &&& b
  | .or, a, b => a ||| b
  | .xor, a, b => a ^^^ b
  | .shl, a, b => a <<< b.toNat
  | .shr, a, b => a >>> b.toNat
  | .lt, a, b => truth (a.ult b)
  | .gt, a, b => truth (b.ult a)
  | .le, a, b => truth (a.ule b)
  | .ge, a, b => truth (b.ule a)
  | .eq, a, b => truth (a == b)
  | .ne, a, b => truth (a != b)
  | .logicAnd, a, b => truth (a != 0 && b != 0)
  | .logicOr, a, b => truth (a != 0 || b != 0)

/-- The low 160 bits of a word. -/
def addressMask : Word := Word.ofBytes (List.replicate 20 0xff)

/-- A name that is not an environment read or a selector, so that the scope resolves it. -/
def IsVariable (n : Text) : Prop :=
  n ≠ "msg.sig".toList ∧ envOpcode n = none ∧ Text.stripSuffix? n ".selector".toList = none

instance (n : Text) : Decidable (IsVariable n) := by
  unfold IsVariable
  infer_instance

/-- The value of an expression of constants, slots, selectors, operators, mappings and
conversions. -/
inductive Means (ρ : Valuation) (scope : Scope) (vyper : Bool) : EExpr → Word → Prop where
  /-- A constant of at most 256 bits. -/
  | num {b : Bytes} : b.length ≤ 32 → Means ρ scope vyper (.num b) (Word.ofBytes b)
  /-- The name of a live stack slot. -/
  | slot {n : Text} {k : ℕ} : IsVariable n → scope.names n = some (.slot k) →
      Means ρ scope vyper (.name n) (ρ.slot k)
  /-- The selector of a function with one known signature, left-aligned. -/
  | selector {n f : Text} {sel : UInt32} : n ≠ "msg.sig".toList → envOpcode n = none →
      Text.stripSuffix? n ".selector".toList = some f →
      scope.selectors.selectorsNamed f = [sel] →
      Means ρ scope vyper (.name n) (Word.ofBytes (selectorWord sel))
  | not {x : EExpr} {a : Word} : Means ρ scope vyper x a →
      Means ρ scope vyper (.unary .not x) (truth (a == 0))
  | bitNot {x : EExpr} {a : Word} : Means ρ scope vyper x a →
      Means ρ scope vyper (.unary .bitNot x) (~~~a)
  | neg {x : EExpr} {a : Word} : Means ρ scope vyper x a →
      Means ρ scope vyper (.unary .neg x) (-a)
  | binary {x y : EExpr} {a b : Word} (op : BinOp) : Means ρ scope vyper x a →
      Means ρ scope vyper y b → Means ρ scope vyper (.binary op x y) (op.denote a b)
  /-- The storage slot of a mapping entry. -/
  | mapping {x y : EExpr} {a b : Word} : Means ρ scope vyper x a → Means ρ scope vyper y b →
      Means ρ scope vyper (.call "mapping".toList [x, y]) (hashPair ρ.world vyper a b)
  | address {x : EExpr} {a : Word} : isThis [x] = false → Means ρ scope vyper x a →
      Means ρ scope vyper (.call "address".toList [x]) (a &&& addressMask)
  | bool {x : EExpr} {a : Word} : Means ρ scope vyper x a →
      Means ρ scope vyper (.call "bool".toList [x]) (truth (a != 0))

/-! ## Operators on symbolic values -/

section Operators

variable {ρ : Valuation} {vyper : Bool}

/-- A symbolic value is pure and stands for the word `v`. -/
def Denotes (ρ : Valuation) (vyper : Bool) (s : Sym) (v : Word) : Prop :=
  s.isPure ∧ Sym.eval ρ vyper s = v

theorem denotes_unary (code : UInt8) {f : Word → Word} (hf : Evm.unary code = some f)
    {a : Word} (hs : Denotes ρ vyper s a) : Denotes ρ vyper (.op code [s]) (f a) := by
  have harity : arity code = some 1 := by simp [arity, hf]
  refine ⟨by simp [isPure, arePure, harity, hs.1], ?_⟩
  simp [eval, evals, compute, hf, hs.2]

theorem denotes_binary (code : UInt8) {f : Word → Word → Word} (hf : Evm.binary code = some f)
    {s t : Sym} (hs : Denotes ρ vyper s a) (ht : Denotes ρ vyper t b) :
    Denotes ρ vyper (.op code [s, t]) (f a b) := by
  have hunary : ∀ code : UInt8, (Evm.binary code).isSome → Evm.unary code = none :=
  by decide +kernel
  have harity : arity code = some 2 := by simp [arity, hf, hunary code (by simp [hf])]
  refine ⟨by simp [isPure, arePure, harity, hs.1, ht.1], ?_⟩
  simp [eval, evals, compute, hf, hs.2, ht.2]

theorem denotes_const {b : Bytes} (h : b.length ≤ 32) :
    Denotes ρ vyper (.const b) (Word.ofBytes b) := by
  refine ⟨?_, rfl⟩
  have hle : (stripZeros b).length ≤ b.length := (dropWhile_suffix _).length_le
  simpa [isPure] using hle.trans h

theorem denotes_konst {v : ℕ} (h : v < 2 ^ 64) :
    Denotes ρ vyper (konst v) (BitVec.ofNat 256 v) := by
  have hlen : (stripZeros (toBe 8 v)).length ≤ 32 := by
    have hle : (stripZeros (toBe 8 v)).length ≤ (toBe 8 v).length := (dropWhile_suffix _).length_le
    simp at hle
    omega
  have hval : Word.ofBytes (stripZeros (toBe 8 v)) = BitVec.ofNat 256 v := by
    rw [Word.ofBytes_stripZeros, Word.ofBytes, ofBe_toBe, Nat.mod_eq_of_lt (by simpa using h)]
  rw [← hval]
  exact denotes_const hlen

theorem truth_eq_zero (b : Bool) : (truth b == 0) = !b := by
  cases b <;> rfl

/-- A symbolic value that `is_boolean` accepts stands for zero or one. -/
theorem truth_of_isBoolean {v : Word} (hb : s.isBoolean) (hs : Denotes ρ vyper s v) :
    truth (v != 0) = v := by
  obtain ⟨hp, rfl⟩ := hs
  match s, hb, hp with
  | .op code args, hb, hp =>
    simp only [isPure, Bool.and_eq_true, decide_eq_true_eq] at hp
    simp only [isBoolean, contains_cons, contains_nil, Bool.or_false, Bool.or_eq_true,
      beq_iff_eq] at hb
    have htruth : ∀ c : Bool, truth (truth c != 0) = truth c := by decide
    rcases hb with rfl | rfl | rfl | rfl | rfl | rfl
    all_goals
      match args, hp.1 with
      | [a, b], h => first | exact htruth _ | cases h
      | [a], h => first | exact htruth _ | cases h

/-- `boolean` makes one of every word but zero. -/
theorem denotes_boolean {a : Word} (hs : Denotes ρ vyper s a) :
    Denotes ρ vyper (boolean s) (truth (a != 0)) := by
  unfold boolean
  split_ifs with hb
  · rwa [truth_of_isBoolean hb hs]
  · have h := denotes_unary 0x15 rfl (denotes_unary 0x15 rfl hs)
    rwa [truth_eq_zero] at h

/-- `negate` makes one of zero and zero of every other word. -/
theorem denotes_negate {s t : Sym} {a : Word} (hs : Denotes ρ vyper s a) (h : negate s = some t) :
    Denotes ρ vyper t (truth (a == 0)) := by
  have hplain : Denotes ρ vyper (.op 0x15 [s]) (truth (a == 0)) := denotes_unary 0x15 rfl hs
  unfold negate at h
  split at h
  · cases h
  · rename_i x rest
    obtain ⟨hp, rfl⟩ := hs
    simp only [isPure, Bool.and_eq_true, decide_eq_true_eq] at hp
    split_ifs at h with hb
    · -- The operand of the folded negation is already zero or one.
      match rest, hp.1, h with
      | [], _, h =>
        cases h
        have hx : Denotes ρ vyper x (eval ρ vyper x) := ⟨by simpa [arePure] using hp.2, rfl⟩
        have hneg : eval ρ vyper (.op 0x15 [x]) = truth (eval ρ vyper x == 0) :=
          (denotes_unary 0x15 rfl hx).2
        have hback := truth_of_isBoolean hb hx
        rw [hneg, truth_eq_zero, ← bne]
        exact ⟨hx.1, hback.symm⟩
    · cases h
      exact hplain
  · cases h
    exact hplain

/-- A product with a power of two is a shift to the left. -/
theorem mul_pow_eq_shiftLeft (a : Word) (n : ℕ) : a * BitVec.ofNat 256 (2 ^ n) = a <<< n := by
  apply eq_of_toNat_eq
  simp [Nat.shiftLeft_eq, Nat.mul_mod]

/-- A quotient by a power of two is a shift to the right, also when the power is zero in 256
bits. -/
theorem div_pow_eq_shiftRight (a : Word) (n : ℕ) : a / BitVec.ofNat 256 (2 ^ n) = a >>> n := by
  apply eq_of_toNat_eq
  simp only [toNat_udiv, toNat_ofNat, toNat_ushiftRight, Nat.shiftRight_eq_div_pow]
  by_cases hn : n < 256
  · rw [Nat.mod_eq_of_lt (Nat.pow_lt_pow_right (by decide) hn)]
  have hdvd : 2 ^ 256 ∣ 2 ^ n := Nat.pow_dvd_pow 2 (by omega)
  rw [Nat.mod_eq_zero_of_dvd hdvd, Nat.div_zero]
  have hlt : a.toNat < 2 ^ n := a.isLt.trans_le (Nat.le_of_dvd (by positivity) hdvd)
  exact (Nat.div_eq_of_lt hlt).symm

/-- The power of two that stands for a shift where the shifts are not available. -/
theorem denotes_pow_two {b : Word} (hs : Denotes ρ vyper s b) :
    Denotes ρ vyper (.op 0x0a [.konst 2, s]) (BitVec.ofNat 256 (2 ^ b.toNat)) :=
  denotes_binary 0x0a rfl (denotes_konst (by decide)) hs

theorem denotes_shl {s t : Sym} (hs : Denotes ρ vyper s a)
    (ht : Denotes ρ vyper t b) : Denotes ρ vyper (shl s t opts) (a <<< b.toNat) := by
  unfold shl
  split_ifs
  · exact denotes_binary 0x1b rfl ht hs
  · rw [← mul_pow_eq_shiftLeft]
    exact denotes_binary 0x02 rfl hs (denotes_pow_two ht)

theorem denotes_shr {s t : Sym} (hs : Denotes ρ vyper s a)
    (ht : Denotes ρ vyper t b) : Denotes ρ vyper (shr s t opts) (a >>> b.toNat) := by
  unfold shr
  split_ifs
  · exact denotes_binary 0x1c rfl ht hs
  · rw [← div_pow_eq_shiftRight]
    exact denotes_binary 0x04 rfl hs (denotes_pow_two ht)

theorem or_ne_zero (a b : Word) : (a ||| b != 0) = (a != 0 || b != 0) := by
  rw [Bool.eq_iff_iff]
  have hzero : a ||| b = 0 ↔ a = 0 ∧ b = 0 := or_eq_zero_iff
  simp only [bne_iff_ne, Bool.or_eq_true, ne_eq, hzero]
  tauto

theorem truth_and (p q : Bool) : truth p &&& truth q = truth (p && q) := by
  cases p <;> cases q <;> decide

/-- The binary operators are translated to opcodes with their meaning. -/
theorem denotes_lowerBinary {op : BinOp} {s t u : Sym}
    (hs : Denotes ρ vyper s a) (ht : Denotes ρ vyper t b) (h : lowerBinary opts op s t = some u) :
    Denotes ρ vyper u (op.denote a b) := by
  cases op with
  | shl => cases h; exact denotes_shl hs ht
  | shr => cases h; exact denotes_shr hs ht
  | le =>
    have hn := denotes_negate (denotes_binary 0x11 rfl hs ht) h
    rwa [truth_eq_zero, ← ule_eq_not_ult] at hn
  | ge =>
    have hn := denotes_negate (denotes_binary 0x10 rfl hs ht) h
    rwa [truth_eq_zero, ← ule_eq_not_ult] at hn
  | ne =>
    have hn := denotes_negate (denotes_binary 0x14 rfl hs ht) h
    rwa [truth_eq_zero] at hn
  | logicAnd =>
    cases h
    have hand := denotes_binary 0x16 rfl (denotes_boolean hs) (denotes_boolean ht)
    rwa [truth_and] at hand
  | logicOr =>
    cases h
    have hor := denotes_boolean (denotes_binary 0x17 rfl hs ht)
    rwa [or_ne_zero] at hor
  | add | sub | mul | div | mod | exp | and | or | xor | lt | gt | eq =>
    cases h
    exact denotes_binary _ rfl hs ht

end Operators

/-! ## Expressions -/

theorem lowerName_of_isVariable {n : Text}
    (hn : IsVariable n) (hs : scope.names n = some s) : lowerName scope opts n = .ok s := by
  obtain ⟨hsig, henv, hsel⟩ := hn
  simp only [lowerName, if_neg hsig, henv, hsel, hs]

theorem lowerExprs_one {x : EExpr} {ss : List Sym}
    (h : lowerExprs scope opts [x] = .ok ss) : ∃ s, lowerExpr scope opts x = .ok s ∧ ss = [s] := by
  obtain ⟨s, hs, rfl⟩ := Run.steps₁_eq_ok.1 h
  exact ⟨s, hs, rfl⟩

theorem lowerExprs_two {x y : EExpr} {ss : List Sym} (h : lowerExprs scope opts [x, y] = .ok ss) :
    ∃ s t, lowerExpr scope opts x = .ok s ∧ lowerExpr scope opts y = .ok t ∧ ss = [s, t] := by
  obtain ⟨s, ts, hs, hts, h⟩ := Run.bind₂_eq_ok.1 h
  obtain ⟨t, ht, rfl⟩ := lowerExprs_one hts
  cases h
  exact ⟨s, t, hs, ht, rfl⟩

/-- A mapping entry lowers to the hash of its parts. -/
theorem lowerExpr_mapping {x y : EExpr}
    (h : lowerExpr scope opts (.call "mapping".toList [x, y]) = .ok s) :
    ∃ s1 s2, lowerExpr scope opts x = .ok s1 ∧ lowerExpr scope opts y = .ok s2 ∧
      s = .mapping s1 s2 := by
  obtain ⟨-, ss, -, hss, h⟩ := bind₂_eq_ok.1 h
  obtain ⟨s1, s2, h1, h2, rfl⟩ := lowerExprs_two hss
  cases h
  exact ⟨s1, s2, h1, h2, rfl⟩

/-- A conversion to an address keeps the low 160 bits. -/
theorem lowerExpr_address {x : EExpr}
    (hthis : isThis [x] = false) (h : lowerExpr scope opts (.call "address".toList [x]) = .ok s) :
    ∃ t, lowerExpr scope opts x = .ok t ∧ s = .op 0x16 [t, .const (replicate 20 0xff)] := by
  have h : (if isThis [x] then _ else _) = Except.ok s := h
  rw [hthis] at h
  obtain ⟨-, ss, -, hss, h⟩ := bind₂_eq_ok.1 h
  obtain ⟨t, ht, rfl⟩ := lowerExprs_one hss
  cases h
  exact ⟨t, ht, rfl⟩

/-- A conversion to a boolean. -/
theorem lowerExpr_bool {x : EExpr} (h : lowerExpr scope opts (.call "bool".toList [x]) = .ok s) :
    ∃ t, lowerExpr scope opts x = .ok t ∧ s = boolean t := by
  obtain ⟨-, ss, -, hss, h⟩ := bind₂_eq_ok.1 h
  obtain ⟨t, ht, rfl⟩ := lowerExprs_one hss
  cases h
  exact ⟨t, ht, rfl⟩

/-- The symbolic value of an expression is pure and stands for the expression's value. -/
theorem lowerExpr_means {e : EExpr} {v : Word} (h : Means ρ scope opts.vyper e v)
    (hs : lowerExpr scope opts e = .ok s) : Denotes ρ opts.vyper s v := by
  induction h generalizing s with
  | num hb =>
    cases hs
    exact denotes_const hb
  | slot hn hk =>
    cases (lowerName_of_isVariable hn hk).symm.trans hs
    exact ⟨rfl, rfl⟩
  | selector hsig henv hsuffix hsel =>
    simp only [lowerExpr, lowerName, if_neg hsig, henv, hsuffix, hsel] at hs
    cases hs
    exact denotes_const (by simp [selectorWord])
  | not _ ih =>
    obtain ⟨x, hx, hs⟩ := bind_eq_ok.1 hs
    exact denotes_negate (ih hx) (orPanic_eq_ok.1 hs)
  | bitNot _ ih =>
    obtain ⟨x, hx, rfl⟩ := steps₁_eq_ok.1 hs
    exact denotes_unary 0x19 rfl (ih hx)
  | neg _ ih =>
    obtain ⟨x, hx, rfl⟩ := steps₁_eq_ok.1 hs
    have hzero : Denotes ρ opts.vyper (konst 0) 0 := denotes_konst (by decide)
    have hsub := denotes_binary 0x03 rfl hzero (ih hx)
    rwa [BitVec.ofNat_eq_ofNat, BitVec.zero_sub] at hsub
  | binary op _ _ iha ihb =>
    obtain ⟨x, y, hx, hy, hs⟩ := bind₂_eq_ok.1 hs
    exact denotes_lowerBinary (iha hx) (ihb hy) (orPanic_eq_ok.1 hs)
  | mapping _ _ iha ihb =>
    obtain ⟨s1, s2, h1, h2, rfl⟩ := lowerExpr_mapping hs
    obtain ⟨hp1, rfl⟩ := iha h1
    obtain ⟨hp2, rfl⟩ := ihb h2
    exact ⟨by simp [isPure, hp1, hp2], rfl⟩
  | address hthis _ ih =>
    obtain ⟨x, hx, rfl⟩ := lowerExpr_address hthis hs
    exact denotes_binary 0x16 rfl (ih hx) (denotes_const (by simp))
  | bool _ ih =>
    obtain ⟨x, hx, rfl⟩ := lowerExpr_bool hs
    exact denotes_boolean (ih hx)

/-- A negation does not panic on a pure value. -/
theorem exists_negate {vyper : Bool} {a : Word}
    (hs : Denotes ρ vyper s a) : ∃ t, negate s = some t := by
  unfold negate
  split
  · -- An `ISZERO` without an operand is not pure.
    cases hs.1
  · rename_i x rest
    split_ifs
    · exact ⟨_, List.getLast?_eq_some_getLast (by simp)⟩
    · exact ⟨_, rfl⟩
  · exact ⟨_, rfl⟩

theorem exists_lowerBinary {vyper : Bool} (opts : Opts) {s t : Sym} (hs : Denotes ρ vyper s a)
    (ht : Denotes ρ vyper t b) (op : BinOp) : ∃ u, lowerBinary opts op s t = some u := by
  cases op with
  | le => exact exists_negate (denotes_binary 0x11 rfl hs ht)
  | ge => exact exists_negate (denotes_binary 0x10 rfl hs ht)
  | ne => exact exists_negate (denotes_binary 0x14 rfl hs ht)
  | add | sub | mul | div | mod | exp | and | or | xor | shl | shr | lt | gt | eq | logicAnd
  | logicOr => exact ⟨_, rfl⟩

/-- An expression with a value can be lowered. -/
theorem exists_lowerExpr {e : EExpr} {v : Word}
    (h : Means ρ scope opts.vyper e v) : ∃ s, lowerExpr scope opts e = .ok s := by
  induction h with
  | num _ => exact ⟨_, rfl⟩
  | slot hn hk => exact ⟨_, lowerName_of_isVariable hn hk⟩
  | selector hsig henv hsuffix hsel =>
    exact ⟨.const _, by simp only [lowerExpr, lowerName, if_neg hsig, henv, hsuffix, hsel]; rfl⟩
  | not hx ih =>
    obtain ⟨s, hs⟩ := ih
    obtain ⟨t, ht⟩ := exists_negate (lowerExpr_means hx hs)
    exact ⟨t, by rw [lowerExpr, hs]; exact orPanic_eq_ok.2 ht⟩
  | bitNot _ ih | neg _ ih =>
    obtain ⟨s, hs⟩ := ih
    exact ⟨_, by rw [lowerExpr, hs]; rfl⟩
  | binary op hx hy ihx ihy =>
    obtain ⟨s, hs⟩ := ihx
    obtain ⟨t, ht⟩ := ihy
    obtain ⟨u, hu⟩ := exists_lowerBinary opts (lowerExpr_means hx hs) (lowerExpr_means hy ht) op
    exact ⟨u, by rw [lowerExpr, hs, ht]; exact orPanic_eq_ok.2 hu⟩
  | mapping _ _ ihx ihy =>
    obtain ⟨s, hs⟩ := ihx
    obtain ⟨t, ht⟩ := ihy
    refine ⟨.mapping s t, ?_⟩
    rw [lowerExpr, if_neg (by decide), if_neg (by decide), if_pos rfl]
    simp only [lowerExprs, hs, ht]
    rfl
  | address hthis _ ih =>
    obtain ⟨s, hs⟩ := ih
    refine ⟨.op 0x16 [s, .const (replicate 20 0xff)], ?_⟩
    rw [lowerExpr, if_pos rfl, hthis]
    simp only [lowerExprs, hs]
    rfl
  | bool _ ih =>
    obtain ⟨s, hs⟩ := ih
    refine ⟨boolean s, ?_⟩
    rw [lowerExpr, if_neg (by decide), if_pos rfl]
    simp only [lowerExprs, hs]
    rfl

/-- Compiled expressions are right. Where an expression of constants, live stack slots, selectors,
operators, mappings and conversions lowers to a symbolic value, and the emitter generates code for
that, the code pushes the value of the expression on every stack that the emitter's model describes.
The items below stay, and memory changes at most in its first 64 bytes. A stack with room for one
item for each byte of the code never reaches its limit. -/
theorem value_lowerExpr_correct {ρ : Valuation} {scope : Scope} {e : EExpr} {v : Word} {s : Sym}
    {em em' : Emitter} (hmeans : Means ρ scope em.opts.vyper e v)
    (hlower : lowerExpr scope em.opts e = .ok s) (hvalue : Emitter.value s em = .ok em') :
    ∃ c, em'.code ρ.address = em.code ρ.address ++ c ∧
      ∀ (st deep : List Word) (m : Memory), st = em.stack ρ ++ deep →
        ∃ m' : Memory, (∀ i, 0x40 ≤ i → m' i = m i) ∧
          Executes ρ.world c ⟨st, m⟩ ⟨v :: st, m'⟩ ∧
          (st.length + c.length ≤ stackLimit → ∀ pre post, ∃ n,
            run ρ.world (pre ++ c ++ post) n ⟨pre.length, ⟨st, m⟩⟩ =
              .ok ⟨pre.length + c.length, ⟨v :: st, m'⟩⟩) := by
  obtain ⟨hpure, hval⟩ := lowerExpr_means hmeans hlower
  have hpush := pushes_value (ρ := ρ) s hpure hvalue
  obtain ⟨c, hcode, hrun⟩ := hpush.code
  refine ⟨c, hcode, ?_⟩
  rintro st deep m rfl
  obtain ⟨m', hm', hexec⟩ := hrun deep m
  rw [hpush.stack, hval, List.cons_append] at hexec
  exact ⟨m', hm', hexec, fun hroom pre post => hexec.run_of_room hroom pre post⟩

/-- A mapping entry whose key is a shifted stack slot, compiled for a contract without `PUSH0` and
without shifts. -/
theorem value_lowerExpr_correct_mapping :
    ∃ (ρ : Valuation) (scope : Scope) (e : EExpr) (v : Word) (s : Sym) (em em' : Emitter),
      e = .call "mapping".toList [.num [3], .binary .shr (.name "v0".toList) (.num [5])] ∧
      Means ρ scope em.opts.vyper e v ∧ lowerExpr scope em.opts e = .ok s ∧
      Emitter.value s em = .ok em' ∧
      ∃ c, em'.code ρ.address = em.code ρ.address ++ c ∧
        ∀ (st deep : List Word) (m : Memory), st = em.stack ρ ++ deep →
          ∃ m' : Memory, (∀ i, 0x40 ≤ i → m' i = m i) ∧
            Executes ρ.world c ⟨st, m⟩ ⟨v :: st, m'⟩ ∧
            (st.length + c.length ≤ stackLimit → ∀ pre post, ∃ n,
              run ρ.world (pre ++ c ++ post) n ⟨pre.length, ⟨st, m⟩⟩ =
                .ok ⟨pre.length + c.length, ⟨v :: st, m'⟩⟩) := by
  let ρ : Valuation := ⟨⟨fun _ _ => 0, fun _ => 7⟩, fun _ => 96, fun _ => 0, fun _ => 0,
    fun _ _ => 0⟩
  let scope : Scope := ⟨fun n => if n = "v0".toList then some (.slot 0) else none, []⟩
  let em := Emitter.new ⟨false, false, false⟩ 0 1
  have hname : Means ρ scope em.opts.vyper (.name "v0".toList) 96 :=
    .slot (by decide) rfl
  have hnum : ∀ x : UInt8, Means ρ scope em.opts.vyper (.num [x]) (Word.ofBytes [x]) :=
    fun x => .num (by simp)
  have hmeans := Means.mapping (hnum 3) (.binary .shr hname (hnum 5))
  exact ⟨ρ, scope, _, _, _, em, _, rfl, hmeans, rfl, rfl, value_lowerExpr_correct hmeans rfl rfl⟩

end Univdreams.Compile
