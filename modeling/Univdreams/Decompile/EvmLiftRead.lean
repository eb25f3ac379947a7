import Univdreams.Compile.EvmRead
import Univdreams.Decompile.EvmLiftValue

/-!
# Reading lifted expressions back

The text that the lifter prints for an expression, read by the expression language. Each construct
is shown to read back to a tree with the value of the construct, at the level of the grammar at
which it stands: an operand is either in parentheses or a primary expression or starts with a unary
operator. The last kind does not survive as the base of a power, where the unary operator is read to
be outside of the power. `Expr.readable` excludes it, and with it the constants whose selector has a
name that does not determine it.
-/

namespace Univdreams.Decompile

open Evm List Text Decompile.Expr Option BitVec Compile.Word Compile
open Compile (SelectorMap Scope Opts Sym Valuation EExpr IsPrimary IsOperand IsExpr IsIdentifier
  IsVariable Means Punct BinOp signatureName levels isThis selectorWord)

/-! ## Expressions that read back -/

namespace Expr

/-- The variables of an expression. -/
def vars : Expr → List Text
  | .var v => [v]
  | .un _ x => vars x
  | .bin _ x y => vars x ++ vars y
  | _ => []

/-- Whether the text of an expression starts with a unary operator: a negation, a complement, or a
constant printed as one. -/
def isPrefixed : Expr → Bool
  | .const b => (invertedSmall b).isSome
  | .un .iszero _ | .un .not _ => true
  | _ => false

/-- The name of the selector that a constant is printed as. -/
def selectorName (sigs : SelectorMap) (b : Bytes) : Option Text :=
  ((leftAlignedSelector b).bind sigs.functionBySelector).map signatureName

/-- No power has a base that starts with a unary operator, and a constant printed as the selector of
a name has a name with one selector. -/
def readable (sigs : SelectorMap) : Expr → Bool
  | .const b => match selectorName sigs b with
    | some name => (sigs.selectorsNamed name).length = 1
    | none => true
  | .var _ => true
  | .un _ x => readable sigs x
  | .bin op x y => !(op = .exp && x.isPrefixed) && readable sigs x && readable sigs y
  | .other _ _ => false

end Expr

/-- Induction over the pure expressions. -/
theorem Expr.isPure_induction {P : ∀ e : Expr, e.isPure → Prop} (const : ∀ b h, P (.const b) h)
    (var : ∀ v h, P (.var v) h) (un : ∀ op x hx h, P x hx → P (.un op x) h)
    (bin : ∀ op x y hx hy h, P x hx → P y hy → P (.bin op x y) h) : ∀ e h, P e h
  | .const b, h => const b h
  | .var v, h => var v h
  | .un op x, h => un op x h h (isPure_induction const var un bin x h)
  | .bin op x y, h => by
    obtain ⟨hx, hy⟩ := Bool.and_eq_true_iff.1 h
    exact bin op x y hx hy h (isPure_induction const var un bin x hx)
      (isPure_induction const var un bin y hy)

/-! ## Simplification adds no variables -/

section Simplify

variable {sigs : SelectorMap} {ok : Text → Prop}

/-- A pure expression with variables of one kind. -/
def Over (ok : Text → Prop) (e : Expr) : Prop := e.isPure ∧ ∀ v ∈ e.vars, ok v

/-- The operands of an operation have its variables. -/
theorem over_bin {op : BinaryOp} {x y : Expr} : Over ok (.bin op x y) ↔ Over ok x ∧ Over ok y := by
  simp only [Over, isPure, vars, Bool.and_eq_true, mem_append]
  grind

/-- A constant has no variables. -/
theorem over_const_toBe (n : ℕ) : Over ok (.const (toBe 8 n)) :=
  ⟨isPure_const_toBe n, by simp [vars]⟩

/-- The rules for two operands add no variables. -/
theorem over_simplifyBin {op : BinaryOp} {x y : Expr} (h : Over ok (.bin op x y)) :
    Over ok (simplifyBin op x y) := by
  obtain ⟨hx, hy⟩ := over_bin.1 h
  refine simplifyBin_induction (P := Over ok) ?_ ?_ ?_ ?_ ?_ ?_
  · simp [not_calldata0_of_isPure hx.1, not_calldata0_of_isPure hy.1]
  · simp [not_msgSig_of_isPure hx.1]
  · simp [not_msgSig_of_isPure hy.1]
  · intro z hz
    have hover : Over ok z := by rcases hz with rfl | rfl <;> assumption
    split_ifs
    · exact hover
    · exact hover
  · rintro z n (rfl | rfl) <;> exact over_bin.2 ⟨‹_›, over_const_toBe n⟩
  · exact mirrorOrFold_induction (P := Over ok) (fun _ _ => over_bin.2 ⟨hy, hx⟩)
      (fun n _ => over_const_toBe n) h

/-- The rules for one operand add no variables, when what they simplify again gets none. -/
theorem over_simplifyUn {again : Expr → Expr} (hagain : ∀ e, Over ok e → Over ok (again e))
    {op : UnaryOp} {x : Expr} (hx : Over ok x) : Over ok (simplifyUn again op x) := by
  unfold simplifyUn
  split
  · split_ifs
    · exact hx
    · exact hx
  · rename_i cmp y z
    cases inverseCmp cmp with
    | none => exact hx
    | some inverse => exact hagain _ (over_bin.2 (over_bin.1 hx))
  · exact hx
  · exact hx

/-- Simplification within a bound adds no variables. -/
theorem over_simplifyWithin (n : ℕ) : ∀ e : Expr, Over ok e → Over ok (simplifyWithin n e) := by
  induction n with
  | zero => exact fun e he => he
  | succ n ih =>
    intro e he
    match e, he with
    | .const b, he | .var v, he => exact he
    | .un op x, he => exact over_simplifyUn ih (ih x he)
    | .bin op x y, he =>
      obtain ⟨hx, hy⟩ := over_bin.1 he
      exact over_simplifyBin (over_bin.2 ⟨ih x hx, ih y hy⟩)

/-- Simplification keeps an expression pure and adds no variables. -/
theorem over_simplify {e : Expr} (he : Over ok e) : Over ok (simplify e) :=
  over_simplifyWithin _ e he

/-- A readable expression with variables of one kind. -/
def Fits (sigs : SelectorMap) (ok : Text → Prop) (e : Expr) : Prop := e.readable sigs ∧ Over ok e

/-- The operands of a readable operation are readable, and no base of a power starts with a unary
operator. -/
theorem fits_bin {op : BinaryOp} {x y : Expr} : Fits sigs ok (.bin op x y) ↔
    ¬(op = .exp ∧ x.isPrefixed) ∧ Fits sigs ok x ∧ Fits sigs ok y := by
  simp only [Fits, readable, over_bin, Bool.and_eq_true, Bool.not_eq_true',
    Bool.and_eq_false_imp, decide_eq_true_eq]
  grind

end Simplify

/-- A pure expression reads no storage that could be named. -/
theorem nameStorage_of_isPure (names : StorageNames) {e : Expr} (he : e.isPure) :
    nameStorage names e = e := by
  have hin : nameStorageIn names e = e := by
    induction e, he using isPure_induction with
    | const b => rfl
    | var v => rfl
    | un op x _ _ ih => rw [nameStorageIn, ih]
    | bin op x y _ _ _ ihx ihy => rw [nameStorageIn, ihx, ihy]
  unfold nameStorage
  split_ifs
  · rfl
  · exact hin

/-! ## Texts and their values -/

section Shows

variable {scope : Scope} {vyper : Bool} {sigs : SelectorMap} {t : Text} {f : Valuation → Word}

/-- The text reads, at a level of the grammar, as a tree with the value `f ρ` for every valuation.
It is not the name of the contract, which has a conversion of its own. -/
def Shows (reads : Text → EExpr → Prop) (scope : Scope) (vyper : Bool) (t : Text)
    (f : Valuation → Word) : Prop :=
  ∃ tree, reads t tree ∧ isThis [tree] = false ∧ ∀ ρ, Means ρ scope vyper tree (f ρ)

theorem Shows.isOperand (h : Shows IsPrimary scope vyper t f) :
    Shows IsOperand scope vyper t f := by
  obtain ⟨tree, hread, hmeans⟩ := h
  exact ⟨tree, hread.isOperand, hmeans⟩

theorem Shows.isExpr (h : Shows IsOperand scope vyper t f) : Shows IsExpr scope vyper t f := by
  obtain ⟨tree, hread, hmeans⟩ := h
  exact ⟨tree, hread.isExpr, hmeans⟩

theorem Shows.parens (h : Shows IsExpr scope vyper t f) :
    Shows IsPrimary scope vyper (parens t) f := by
  obtain ⟨tree, hread, hmeans⟩ := h
  exact ⟨tree, hread.parens, hmeans⟩

theorem Shows.iszero (h : Shows IsOperand scope vyper t f) :
    Shows IsOperand scope vyper ('!' :: t) fun ρ => UnaryOp.denote .iszero (f ρ) := by
  obtain ⟨tree, hread, -, hmeans⟩ := h
  exact ⟨_, hread.not, rfl, fun ρ => .not (hmeans ρ)⟩

theorem Shows.not (h : Shows IsOperand scope vyper t f) :
    Shows IsOperand scope vyper ('~' :: t) fun ρ => UnaryOp.denote .not (f ρ) := by
  obtain ⟨tree, hread, -, hmeans⟩ := h
  exact ⟨_, hread.bitNot, rfl, fun ρ => .bitNot (hmeans ρ)⟩

theorem Shows.address (h : Shows IsExpr scope vyper t f) :
    Shows IsPrimary scope vyper ("address".toList ++ Decompile.parens t)
      fun ρ => UnaryOp.denote .address (f ρ) := by
  obtain ⟨tree, hread, hthis, hmeans⟩ := h
  exact ⟨_, hread.call (by decide), rfl, fun ρ => .address hthis (hmeans ρ)⟩

theorem Shows.bool (h : Shows IsExpr scope vyper t f) :
    Shows IsPrimary scope vyper ("bool".toList ++ Decompile.parens t)
      fun ρ => UnaryOp.denote .bool (f ρ) := by
  obtain ⟨tree, hread, -, hmeans⟩ := h
  exact ⟨_, hread.call (by decide), rfl, fun ρ => .bool (hmeans ρ)⟩

/-- A power, in the order of its text. -/
theorem Shows.exp {s : Text} {g : Valuation → Word} (hs : Shows IsPrimary scope vyper s f)
    (ht : Shows IsOperand scope vyper t g) :
    Shows IsOperand scope vyper (s ++ " ".toList ++ infixSymbol .exp ++ " ".toList ++ t)
      fun ρ => BinaryOp.denote .exp (f ρ) (g ρ) := by
  obtain ⟨base, hbase, -, hmbase⟩ := hs
  obtain ⟨exponent, hexp, -, hmexp⟩ := ht
  exact ⟨_, hbase.power hexp, rfl, fun ρ => .binary .exp (hmbase ρ) (hmexp ρ)⟩

/-- The token of an operation and the operator that it is read as, with its level. -/
def operator : BinaryOp → Punct × BinOp × ℕ
  | .add => (.plus, .add, 8)
  | .sub => (.minus, .sub, 8)
  | .mul => (.star, .mul, 9)
  | .div => (.slash, .div, 9)
  | .mod => (.percent, .mod, 9)
  | .exp => (.starStar, .exp, 10)
  | .and => (.amp, .and, 6)
  | .or => (.pipe, .or, 4)
  | .xor => (.caret, .xor, 5)
  | .shl => (.shl, .shl, 7)
  | .shr => (.shr, .shr, 7)
  | .lt => (.lt, .lt, 3)
  | .gt => (.gt, .gt, 3)
  | .eq => (.eqEq, .eq, 2)
  | .ne => (.ne, .ne, 2)
  | .le => (.le, .le, 3)
  | .ge => (.ge, .ge, 3)

/-- The operands in the order in which they are printed: the amount of a shift comes last. -/
def printed {α : Type} (op : BinaryOp) (x y : α) : α × α :=
  if op = .shl ∨ op = .shr then (y, x) else (x, y)

theorem operator_spec {op : BinaryOp} (h : op ≠ .exp) : infixSymbol op = (operator op).1.text ∧
    ∃ ops, levels[(operator op).2.2]? = some ops ∧
      ((operator op).1, (operator op).2.1) ∈ ops := by
  cases op with
  | exp => exact absurd rfl h
  | add | sub | mul | div | mod | and | or | xor | shl | shr | lt | gt | eq | ne | le | ge =>
    exact ⟨rfl, _, rfl, by decide⟩

theorem operator_denote (op : BinaryOp) (a b : Word) :
    (operator op).2.1.denote (printed op a b).1 (printed op a b).2 = op.denote a b := by
  cases op <;> rfl

/-- An operation other than a power. -/
theorem Shows.bin (op : BinaryOp) (hop : op ≠ .exp) {s : Text} {g : Valuation → Word}
    (hs : Shows IsOperand scope vyper s f) (ht : Shows IsOperand scope vyper t g) :
    Shows IsExpr scope vyper ((printed op s t).1 ++ " ".toList ++ infixSymbol op ++ " ".toList ++
      (printed op s t).2) fun ρ => op.denote (f ρ) (g ρ) := by
  obtain ⟨hsym, ops, hlevel, hmem⟩ := operator_spec hop
  obtain ⟨x, hx, -, hmx⟩ := hs
  obtain ⟨y, hy, -, hmy⟩ := ht
  have hread : IsOperand (printed op s t).1 (printed op x y).1 ∧
      IsOperand (printed op s t).2 (printed op x y).2 := by
    unfold printed
    split_ifs
    · exact ⟨hy, hx⟩
    · exact ⟨hx, hy⟩
  have hmeans : ∀ ρ, Means ρ scope vyper (printed op x y).1 (printed op (f ρ) (g ρ)).1 ∧
      Means ρ scope vyper (printed op x y).2 (printed op (f ρ) (g ρ)).2 := by
    intro ρ
    unfold printed
    split_ifs
    · exact ⟨hmy ρ, hmx ρ⟩
    · exact ⟨hmx ρ, hmy ρ⟩
  refine ⟨_, hsym ▸ hread.1.binary hread.2 hlevel hmem, rfl, fun ρ => ?_⟩
  have hbinary := Means.binary (operator op).2.1 (hmeans ρ).1 (hmeans ρ).2
  rwa [operator_denote] at hbinary

/-! ## Constants -/

/-- A hexadecimal number below `2^256`. -/
theorem shows_hex {ds : Text} {n : ℕ} (hne : ds ≠ []) (h : ofDigitChars 16 0 ds = some n)
    (hn : n < 2 ^ 256) :
    Shows IsPrimary scope vyper ("0x".toList ++ ds) fun _ => BitVec.ofNat 256 n := by
  obtain ⟨bytes, hread, hlen, rfl⟩ := exists_isPrimary_hex hne h hn
  exact ⟨_, hread, rfl, fun _ => .num hlen⟩

theorem ofDigitChars_toHexPadded (w n : ℕ) : ofDigitChars 16 0 (toHexPadded w n) = some n := by
  rw [toHexPadded, ofDigitChars_zeros (by decide), ofDigitChars_toHex]

theorem toHexPadded_ne_nil (w n : ℕ) : toHexPadded w n ≠ [] := by
  simp [toHexPadded, toHex_ne_nil]

theorem length_toHexPadded_byte (b : UInt8) : (toHexPadded 2 b.toNat).length = 2 := by
  have h : ∀ n < 256, (toHexPadded 2 n).length = 2 := by decide +kernel
  exact h _ b.toNat_lt

/-- Two digits for each byte are the digits of the number. -/
theorem ofDigitChars_bytes : ∀ (bs : Bytes) (acc : ℕ),
    ofDigitChars 16 acc (bs.flatMap fun x => toHexPadded 2 x.toNat) =
      some (acc * 256 ^ bs.length + ofBe bs)
  | [], acc => by simp [ofDigitChars]
  | b :: bs, acc => by
    rw [flatMap_cons, ofDigitChars_append,
      ofDigitChars_acc (ofDigitChars_toHexPadded 2 b.toNat), length_toHexPadded_byte,
      bind_some, ofDigitChars_bytes bs, ofBe_cons, length_cons, Nat.pow_succ]
    ring_nf

/-- The complement of a constant that `inverted_small` accepts. -/
theorem complement_of_invertedSmall {b : Bytes} {inv : ℕ} (h : invertedSmall b = some inv) :
    ~~~(BitVec.ofNat 256 inv) = Word.ofBytes b := by
  obtain ⟨hinv, hval⟩ := ofBe_of_invertedSmall h
  rw [Word.ofBytes, hval]
  apply eq_of_toNat_eq
  rw [toNat_not, toNat_ofNat, toNat_ofNat]
  omega

/-- Bytes in front of 28 zero bytes. -/
theorem ofBe_append_zeros (bs : Bytes) : ofBe (bs ++ List.replicate 28 0) = ofBe bs * 2 ^ 224 := by
  have hzero : ofBe (List.replicate 28 0) = 0 := by decide
  have hpow : 256 ^ 28 = 2 ^ 224 := by decide
  rw [ofBe_append, hzero, length_replicate, hpow, Nat.add_zero]

/-- A constant of the form `selector << 224`. -/
theorem ofBe_of_leftAlignedSelector {b : Bytes} {sel : UInt32} (hb : (stripZeros b).length ≤ 32)
    (h : leftAlignedSelector b = some sel) : ofBe b = sel.toNat * 2 ^ 224 := by
  simp only [leftAlignedSelector, ite_none_right_eq_some, Option.some.injEq] at h
  obtain ⟨⟨hlen, hzero⟩, rfl⟩ := h
  set k := (stripZeros b).length - 28 with hk
  have hlt : ofBe ((stripZeros b).take k) < 2 ^ 32 := by
    calc ofBe ((stripZeros b).take k) < 256 ^ ((stripZeros b).take k).length := ofBe_lt _
      _ ≤ 256 ^ 4 := Nat.pow_le_pow_right (by decide) (by simp; omega)
      _ = 2 ^ 32 := by decide
  have hsel : (UInt32.ofNat (ofBe ((stripZeros b).take k))).toNat =
    ofBe ((stripZeros b).take k) := by
    rw [UInt32.toNat_ofNat']
    exact Nat.mod_eq_of_lt hlt
  rw [hsel, ← ofBe_stripZeros b]
  conv_lhs => rw [← take_append_drop k (stripZeros b), hzero]
  exact ofBe_append_zeros _

theorem ofBe_selectorWord (sel : UInt32) : ofBe (selectorWord sel) = sel.toNat * 2 ^ 224 := by
  have hsel : sel.toNat < 2 ^ 32 := sel.toNat_lt
  rw [selectorWord, ofBe_append_zeros, ofBe_toBe, Nat.mod_eq_of_lt (by simpa using hsel)]

/-- The only known selector of a name is each one that the name stands for. -/
theorem selectorsNamed_eq {sel : UInt32} {sig : Text}
    (hsig : sigs.functionBySelector sel = some sig)
    (hone : (sigs.selectorsNamed (signatureName sig)).length = 1) :
    sigs.selectorsNamed (signatureName sig) = [sel] := by
  obtain ⟨sel', hsel'⟩ := length_eq_one_iff.1 hone
  have hmem : sel ∈ sigs.selectorsNamed (signatureName sig) := by
    have hentry : (sel, sig) ∈ sigs := by
      obtain ⟨l1, l2, rfl, -⟩ := lookup_eq_some_iff.1 hsig
      simp
    exact mem_map.2 ⟨(sel, sig), mem_filter.2 ⟨hentry, by simp⟩, rfl⟩
  rw [hsel'] at hmem ⊢
  rw [mem_singleton.1 hmem]

theorem isIdentifier_selector {name : Text} (h : IsIdentifier name) :
    IsIdentifier (name ++ ".selector".toList) := by
  obtain ⟨c, cs, rfl, hstart⟩ := h.eq_cons
  refine ⟨by simpa using hstart, ?_⟩
  have hsuffix : identSpan ".selector".toList = (".selector".toList, []) := by decide
  rw [identSpan_append _ _ h.2, hsuffix]

/-- The name of a selector is no environment read. -/
theorem envOpcode_selector (name : Text) :
    name ++ ".selector".toList ≠ "msg.sig".toList ∧
      envOpcode (name ++ ".selector".toList) = none := by
  have hsuffix : ".selector".toList <:+ name ++ ".selector".toList := suffix_append _ _
  have hne : ∀ key : Text, ¬".selector".toList <:+ key → name ++ ".selector".toList ≠ key :=
    fun key hkey h => hkey (h ▸ hsuffix)
  refine ⟨hne _ (by decide), ?_⟩
  rw [envOpcode, lookup_eq_none_iff]
  intro entry hentry
  have hkey : ¬".selector".toList <:+ entry.1 := by
    revert entry
    decide
  simpa using hne entry.1 hkey

/-- A name with one known selector. -/
theorem shows_selector {sel : UInt32} {sig : Text} (hscope : scope.selectors = sigs)
    (hsig : sigs.functionBySelector sel = some sig) (hident : IsIdentifier (signatureName sig))
    (hone : (sigs.selectorsNamed (signatureName sig)).length = 1) :
    Shows IsPrimary scope vyper (signatureName sig ++ ".selector".toList)
      fun _ => BitVec.ofNat 256 (sel.toNat * 2 ^ 224) := by
  obtain ⟨hsig', henv⟩ := envOpcode_selector (signatureName sig)
  have hstrip : stripSuffix? (signatureName sig ++ ".selector".toList) ".selector".toList =
      some (signatureName sig) := by
    simp [stripSuffix?]
  have hnamed : scope.selectors.selectorsNamed (signatureName sig) = [sel] := by
    rw [hscope, selectorsNamed_eq hsig hone]
  refine ⟨_, IsPrimary.name (isIdentifier_selector hident), ?_, fun ρ => ?_⟩
  · simp only [isThis, decide_eq_false_iff_not]
    intro h
    rw [h] at henv
    cases henv
  · rw [← ofBe_selectorWord]
    exact .selector hsig' henv hstrip hnamed

/-- A selector without a name. -/
theorem shows_shifted (sel : UInt32) :
    Shows IsPrimary scope vyper ("(0x".toList ++ toHexPadded 8 sel.toNat ++ " << 0xe0)".toList)
      fun _ => BitVec.ofNat 256 (sel.toNat * 2 ^ 224) := by
  have hsel := sel.toNat_lt
  have hleft : Shows IsPrimary scope vyper ("0x".toList ++ toHexPadded 8 sel.toNat)
      fun _ => BitVec.ofNat 256 sel.toNat :=
    shows_hex (toHexPadded_ne_nil _ _) (ofDigitChars_toHexPadded _ _) (by omega)
  have hright : Shows IsPrimary scope vyper ("0x".toList ++ "e0".toList)
      fun _ => BitVec.ofNat 256 224 :=
    shows_hex (by decide) (by decide) (by decide)
  have hshift := (Shows.bin .shl (by decide) hright.isOperand hleft.isOperand).parens
  have hval : BinaryOp.denote .shl (BitVec.ofNat 256 224) (BitVec.ofNat 256 sel.toNat) =
      BitVec.ofNat 256 (sel.toNat * 2 ^ 224) := by
    apply eq_of_toNat_eq
    simp [BinaryOp.denote, Nat.shiftLeft_eq]
  simp only [hval] at hshift
  simpa [printed, infixSymbol, parens] using hshift

/-- The text of a constant has its value, as a primary expression unless it is printed as a
complement. -/
theorem shows_hexConst {b : Bytes} (hscope : scope.selectors = sigs)
    (hnames : ∀ entry ∈ sigs, IsIdentifier (signatureName entry.2))
    (hb : (stripZeros b).length ≤ 32) (hread : (const b).readable sigs) :
    Shows IsOperand scope vyper (hexConst sigs b) (fun _ => Word.ofBytes b) ∧
      ((const b).isPrefixed = false →
        Shows IsPrimary scope vyper (hexConst sigs b) fun _ => Word.ofBytes b) := by
  cases hinv : invertedSmall b with
  | some inv =>
    have hlt := (ofBe_of_invertedSmall hinv).1
    have hhex : Shows IsPrimary scope vyper ("0x".toList ++ toHex inv)
        fun _ => BitVec.ofNat 256 inv :=
      shows_hex (toHex_ne_nil inv) (ofDigitChars_toHex inv) (by omega)
    have hnot := hhex.isOperand.not
    simp only [UnaryOp.denote, complement_of_invertedSmall hinv] at hnot
    refine ⟨by simpa [hexConst, hinv] using hnot, fun h => ?_⟩
    simp [isPrefixed, hinv] at h
  | none =>
    suffices h : Shows IsPrimary scope vyper (hexConst sigs b) fun _ => Word.ofBytes b from
      ⟨h.isOperand, fun _ => h⟩
    have hlt : ofBe (stripZeros b) < 2 ^ 256 := by
      calc ofBe (stripZeros b) < 256 ^ (stripZeros b).length := ofBe_lt _
        _ ≤ 256 ^ 32 := Nat.pow_le_pow_right (by decide) hb
        _ = 2 ^ 256 := by decide
    simp only [hexConst, hinv]
    by_cases hempty : (stripZeros b).isEmpty
    · rw [if_pos hempty, ← ofBytes_stripZeros b, isEmpty_iff.1 hempty]
      exact shows_hex (by decide) (by decide) (by decide)
    rw [if_neg hempty]
    cases hsel : leftAlignedSelector b with
    | some sel =>
      rw [Word.ofBytes, ofBe_of_leftAlignedSelector hb hsel]
      cases hsig : sigs.functionBySelector sel with
      | some sig =>
        obtain ⟨l1, l2, hl, -⟩ := lookup_eq_some_iff.1 hsig
        have hident := hnames (sel, sig) (by simp [hl])
        simp only [readable, selectorName, hsel, bind_some, hsig, map_some,
          decide_eq_true_eq] at hread
        simp only [hsig]
        exact shows_selector hscope hsig hident hread
      | none =>
        simp only [hsig]
        exact shows_shifted sel
    | none =>
      rw [← ofBytes_stripZeros b, Word.ofBytes]
      by_cases hfour : (stripZeros b).length = 4
      · simp only [if_pos hfour]
        exact shows_hex (toHexPadded_ne_nil _ _) (ofDigitChars_toHexPadded _ _) hlt
      simp only [if_neg hfour]
      obtain ⟨x, xs, hbytes⟩ := exists_cons_of_ne_nil (isEmpty_eq_false_iff.1
        (Bool.eq_false_iff.2 hempty))
      rw [hbytes] at hlt ⊢
      have hdigits : ofDigitChars 16 0 (toHex x.toNat ++
          xs.flatMap fun x => toHexPadded 2 x.toNat) = some (ofBe (x :: xs)) := by
        rw [ofDigitChars_append, ofDigitChars_toHex, bind_some, ofDigitChars_bytes, ofBe_cons]
      exact shows_hex (by simp [toHex_ne_nil]) hdigits hlt

/-! ## Expressions -/

/-- The text of a readable expression has its value. As an operand it is a primary expression,
unless it starts with a unary operator. -/
theorem shows_render {slotOf : Text → ℕ} (hscope : scope.selectors = sigs)
    (hnames : ∀ entry ∈ sigs, IsIdentifier (signatureName entry.2)) (e : Expr)
    (he : Fits sigs (fun v => IsIdentifier v ∧ IsVariable v ∧
      scope.names v = some (.slot (slotOf v)))
      e) :
    Shows IsExpr scope vyper (renderRaw sigs e) (fun ρ => e.eval fun v => ρ.slot (slotOf v)) ∧
    Shows IsOperand scope vyper (renderChild sigs e) (fun ρ => e.eval fun v => ρ.slot (slotOf v)) ∧
    (e.isPrefixed = false → Shows IsPrimary scope vyper (renderChild sigs e)
      fun ρ => e.eval fun v => ρ.slot (slotOf v)) := by
  induction e, he.2.1 using isPure_induction with
  | const b =>
    obtain ⟨hoperand, hprimary⟩ := @shows_hexConst scope vyper sigs b hscope hnames
      (by simpa [isPure] using he.2.1) he.1
    simp only [renderRaw, renderChild, eval]
    exact ⟨hoperand.isExpr, hoperand, hprimary⟩
  | var v =>
    obtain ⟨hident, hvar, hslot⟩ := he.2.2 v (by simp [vars])
    have hshow : Shows IsPrimary scope vyper v fun ρ => ρ.slot (slotOf v) := by
      refine ⟨_, .name hident, ?_, fun ρ => .slot hvar hslot⟩
      simp only [isThis, decide_eq_false_iff_not]
      rintro rfl
      cases hvar.2.1
    simp only [renderRaw, renderChild, eval]
    exact ⟨hshow.isOperand.isExpr, hshow.isOperand, fun _ => hshow⟩
  | un op x _ _ ih =>
    obtain ⟨hraw, hchild, -⟩ := ih he
    have hsame : renderChild sigs (.un op x) = renderRaw sigs (.un op x) := by
      simp only [renderChild]
    rw [hsame]
    cases op with
    | iszero =>
      simp only [renderRaw]
      exact ⟨hchild.iszero.isExpr, hchild.iszero, fun h => by cases h⟩
    | not =>
      simp only [renderRaw]
      exact ⟨hchild.not.isExpr, hchild.not, fun h => by cases h⟩
    | address =>
      simp only [renderRaw]
      exact ⟨hraw.address.isOperand.isExpr, hraw.address.isOperand, fun _ => hraw.address⟩
    | bool =>
      simp only [renderRaw]
      exact ⟨hraw.bool.isOperand.isExpr, hraw.bool.isOperand, fun _ => hraw.bool⟩
  | bin op x y _ _ _ ihx ihy =>
    obtain ⟨hexp, hx, hy⟩ := fits_bin.1 he
    obtain ⟨-, hxchild, hxprimary⟩ := ihx hx
    obtain ⟨-, hychild, -⟩ := ihy hy
    have hraw : Shows IsExpr scope vyper (renderRaw sigs (.bin op x y))
        fun ρ => eval (fun v => ρ.slot (slotOf v)) (.bin op x y) := by
      simp only [renderRaw, eval]
      by_cases hop : op = .exp
      · subst hop
        have hbase := hxprimary (by simpa using hexp)
        rw [if_neg (by decide)]
        exact (hbase.exp hychild).isExpr
      have hbin := Shows.bin op hop hxchild hychild
      unfold printed at hbin
      split_ifs at hbin ⊢ <;> exact hbin
    have hparens : renderChild sigs (.bin op x y) = parens (renderRaw sigs (.bin op x y)) := by
      simp only [renderChild, renderRaw]
      split_ifs <;> rfl
    rw [hparens]
    exact ⟨hraw, hraw.parens.isOperand, fun _ => hraw.parens⟩

end Shows

/-! ## The printed text -/

/-- The text that the lifter prints for an expression of constants, variables and pure operations
that is readable when it is simplified is parsed, and the tree is lowered to a value that is the
value of the expression, for every assignment of the variables to live stack slots. -/
theorem parseExpr_render {sigs : SelectorMap} (names : StorageNames) {scope : Scope} {opts : Opts}
    {slotOf : Text → ℕ} {e : Expr} (hscope : scope.selectors = sigs)
    (hnames : ∀ entry ∈ sigs, IsIdentifier (signatureName entry.2)) (hpure : e.isPure)
    (hvars : ∀ v ∈ e.vars,
      IsIdentifier v ∧ IsVariable v ∧ scope.names v = some (.slot (slotOf v)))
    (hread : (simplify e).readable sigs) :
    ∃ tree s, Compile.parseExpr (render sigs names e) = .ok tree ∧
      Compile.lowerExpr scope opts tree = .ok s ∧
      ∀ ρ : Valuation, Sym.eval ρ opts.vyper s = e.eval fun v => ρ.slot (slotOf v) := by
  have hfits : Fits sigs _ (simplify e) := ⟨hread, over_simplify ⟨hpure, hvars⟩⟩
  obtain ⟨tree, hparse, -, hmeans⟩ :=
    (@shows_render scope opts.vyper sigs slotOf hscope hnames (simplify e) hfits).1
  have hrender : render sigs names e = renderRaw sigs (simplify e) := by
    rw [render, nameStorage_of_isPure names hfits.2.1]
  -- Whether the tree can be lowered does not depend on the valuation.
  have hany : Valuation := ⟨⟨fun _ _ => 0, fun _ => 0⟩, fun _ => 0, fun _ => 0, fun _ => 0,
    fun _ _ => 0⟩
  obtain ⟨s, hs⟩ := Compile.exists_lowerExpr (hmeans hany)
  refine ⟨tree, s, hrender ▸ hparse.parseExpr, hs, fun ρ => ?_⟩
  rw [(Compile.lowerExpr_means (hmeans ρ) hs).2]
  exact (keeps_simplify hpure).2

/-- The cube of a variable plus the square of the negation of a comparison, which is printed as the
opposite comparison. -/
theorem parseExpr_render_cube :
    ∃ (scope : Scope) (opts : Opts) (e : Expr),
      e = .bin .add (.bin .exp (.var "v0".toList) (.const [3]))
        (.bin .exp (.un .iszero (.bin .lt (.var "v0".toList) (.var "v1".toList))) (.const [2])) ∧
      e.isPure ∧ (simplify e).readable [] ∧
      ∃ tree s, Compile.parseExpr (render [] [] e) = .ok tree ∧
        Compile.lowerExpr scope opts tree = .ok s ∧
        ∀ ρ : Valuation, Sym.eval ρ opts.vyper s =
          e.eval fun v => ρ.slot (if v = "v0".toList then 0 else 1) := by
  let slotOf : Text → ℕ := fun v => if v = "v0".toList then 0 else 1
  let scope : Scope := ⟨fun v => some (.slot (slotOf v)), []⟩
  refine ⟨scope, ⟨true, true, false⟩, _, rfl, by decide, by decide, ?_⟩
  refine @parseExpr_render [] [] scope _ slotOf _ rfl (by simp) (by decide) ?_ (by decide)
  intro v hv
  have hv' : v = "v0".toList ∨ v = "v1".toList := by
    simp only [Expr.vars, mem_append, mem_singleton] at hv
    tauto
  rcases hv' with rfl | rfl
  · exact ⟨by decide, by decide, rfl⟩
  · exact ⟨by decide, by decide, rfl⟩

/-- The square of a complement is read as the complement of a square, and a selector whose name has
two known selectors is not lowered. -/
theorem parseExpr_render_misread :
    ∃ (scope : Scope) (opts : Opts) (e e' : Expr),
      e = .bin .exp (.un .not (.var "v0".toList)) (.const [2]) ∧
      e' = .const (selectorWord 0xa9059cbb) ∧ e.isPure ∧ e'.isPure ∧
      scope.names "v0".toList = some (.slot 0) ∧
      (¬∃ tree s, Compile.parseExpr (render scope.selectors [] e) = .ok tree ∧
        Compile.lowerExpr scope opts tree = .ok s ∧
        ∀ ρ : Valuation, Sym.eval ρ opts.vyper s = e.eval fun _ => ρ.slot 0) ∧
      ¬∃ tree s, Compile.parseExpr (render scope.selectors [] e') = .ok tree ∧
        Compile.lowerExpr scope opts tree = .ok s := by
  let sigs : SelectorMap := [(0xa9059cbb, "transfer(address,uint256)".toList),
    (0x095bcdb6, "transfer(address,uint256,uint256)".toList)]
  let scope : Scope := ⟨fun v => if v = "v0".toList then some (.slot 0) else none, sigs⟩
  refine ⟨scope, ⟨true, true, false⟩, _, _, rfl, rfl, by decide, by decide, rfl, ?_, ?_⟩
  · rintro ⟨tree, s, hparse, hlower, heval⟩
    have hrender : render scope.selectors [] (.bin .exp (.un .not (.var "v0".toList))
      (.const [2])) =
        '~' :: ("v0".toList ++ " ".toList ++ Punct.starStar.text ++ " ".toList ++
          "0x2".toList) := by
      have hsimp : simplify (.bin .exp (.un .not (.var "v0".toList)) (.const [2])) =
          .bin .exp (.un .not (.var "v0".toList)) (.const [2]) := rfl
      rw [render, hsimp]
      simp only [nameStorage, List.isEmpty_nil, if_true, renderRaw, renderChild]
      rfl
    have htwo : IsPrimary "0x2".toList (.num [2]) :=
      .num (by decide) (List.all_eq_true.1 (by decide)) rfl
    have hread := ((IsPrimary.name (v := "v0".toList) (by decide)).power
      htwo.isOperand).bitNot.isExpr.parseExpr
    rw [hrender, hread] at hparse
    cases hparse
    cases hlower
    -- With zero in the slot, the complement of the square is not the square of the complement.
    have h := heval ⟨⟨fun _ _ => 0, fun _ => 0⟩, fun _ => 0, fun _ => 0, fun _ => 0, fun _ _ => 0⟩
    revert h
    decide
  · rintro ⟨tree, s, hparse, hlower⟩
    have hrender : render scope.selectors [] (.const (selectorWord 0xa9059cbb)) =
        "transfer.selector".toList := by
      have hsimp : simplify (.const (selectorWord 0xa9059cbb)) =
          .const (selectorWord 0xa9059cbb) := rfl
      rw [render, hsimp]
      simp only [nameStorage, List.isEmpty_nil, if_true, renderRaw]
      decide
    have hread := (IsPrimary.name (v := "transfer.selector".toList)
      (by decide)).isOperand.isExpr.parseExpr
    rw [hrender, hread] at hparse
    cases hparse
    cases hlower

end Univdreams.Decompile
