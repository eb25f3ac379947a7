import Univdreams.Numerals
import Univdreams.Compile.EvmExpr

/-!
# Reading expressions

Rules for what the lexer and the parser of the expression language make of a text. The three
judgements follow the levels of the grammar. `IsPrimary t e` says that the text `t` reads as the
expression `e` where a primary expression with its indices is expected, `IsOperand t e` where a
unary expression is, and `IsExpr t e` where any expression is. Each says it for every text and every
tokens that may follow. `IsExpr.parseExpr` gives the result for a whole text.

The budget of the parser falls by one in each call. Twenty for each token of the text suffice for an
operand, and eleven more for the levels of the binary operators above it.
-/

namespace Univdreams.Compile

open List Option Text

variable {t rest : Text} {toks : List Tok} {e : EExpr} {p : Punct}

/-! ## Tokens of a text -/

/-- The lexer makes the tokens `toks` of the text, with every budget that is large enough. -/
def Lexes (t : Text) (toks : List Tok) : Prop := ∀ n, t.length ≤ n → lexLoop n t = .ok toks

/-- What may follow an identifier or a number: a character that cannot belong to it. -/
def Boundary (t : Text) : Prop := ∀ c ∈ t.head?, isIdentChar c = false ∧ c ≠ '.'

theorem Lexes.nil : Lexes [] [] := by
  intro n _
  cases n <;> rfl

/-- One round of the lexer. -/
theorem Lexes.step {c : Char} {cs : Text} {tok : Option Tok}
    (hstep : lexStep c cs = .ok (tok, rest)) (hlen : rest.length ≤ cs.length)
    (h : Lexes rest toks) :
    Lexes (c :: cs) (tok.toList ++ toks) := by
  intro n hn
  match n, hn with
  | n + 1, hn =>
    have hrest := h n (hlen.trans (by simpa using hn))
    simp only [lexLoop, hstep, hrest, Except.bind, bind]
    rfl

/-- A space is skipped. -/
theorem Lexes.space (h : Lexes rest toks) : Lexes (' ' :: rest) toks :=
  Lexes.step (show lexStep ' ' rest = .ok (none, rest) from rfl) le_rfl h

/-- A punctuation token, when no longer one is tried first and found. -/
theorem Lexes.punct {c : Char} {cs : Text} (htext : p.text ++ rest = c :: cs)
    (hplain : isAsciiWhitespace c = false ∧ isAsciiDigit c = false ∧ isIdentStart c = false ∧
      c ≠ '"') (hfind : Punct.all.find? (fun q => q.text.isPrefixOf (c :: cs)) = some p)
    (h : Lexes rest toks) : Lexes (p.text ++ rest) (.punct p :: toks) := by
  obtain ⟨hspace, hdigit, hstart, hquote⟩ := hplain
  have hdrop : (c :: cs).drop p.text.length = rest := by rw [← htext, drop_left]
  have hstep : lexStep c cs = .ok (some (.punct p), rest) := by
    simp only [lexStep, hspace, hdigit, hstart, hquote, hfind, hdrop, if_false, Bool.false_eq_true]
  have hlen : rest.length ≤ cs.length := by
    have hpos : 0 < p.text.length := by cases p <;> decide
    have := congrArg List.length htext
    simp only [length_append, length_cons] at this
    omega
  rw [htext]
  exact Lexes.step hstep hlen h

/-- An identifier: the text that the lexer takes as one when nothing follows. -/
def IsIdentifier (t : Text) : Prop := t.head?.any isIdentStart ∧ identSpan t = (t, [])

instance (t : Text) : Decidable (IsIdentifier t) := by
  unfold IsIdentifier
  infer_instance

theorem IsIdentifier.eq_cons (h : IsIdentifier t) : ∃ c cs, t = c :: cs ∧ isIdentStart c := by
  cases t with
  | nil => cases h.1
  | cons c cs => exact ⟨c, cs, rfl, by simpa using h.1⟩

/-- An identifier goes on with the characters behind it that could belong to it. -/
theorem identSpan_append (rest : Text) : ∀ t : Text, identSpan t = (t, []) →
    identSpan (t ++ rest) = (t ++ (identSpan rest).1, (identSpan rest).2)
  | [], _ => rfl
  | c :: cs, h => by
    simp only [identSpan] at h
    split_ifs at h with hc
    swap
    · cases h
    simp only [Prod.mk.injEq, List.cons.injEq, true_and] at h
    have hcs : identSpan cs = (cs, []) := Prod.ext h.1 h.2
    have ih := identSpan_append rest cs hcs
    -- A dot in the identifier has its letter inside the identifier.
    have hc' : (isIdentChar c || (c == '.' &&
        ((cs ++ rest).head?.map isAsciiAlphabetic).getD false)) = true := by
      rw [Bool.or_eq_true, Bool.and_eq_true] at hc ⊢
      rcases hc with hc | ⟨hdot, halpha⟩
      · exact .inl hc
      refine .inr ⟨hdot, ?_⟩
      cases cs with
      | nil => simp at halpha
      | cons d ds => simpa using halpha
    rw [cons_append, identSpan, if_pos hc', ih]
    rfl

/-- No character of an identifier follows a boundary. -/
theorem identSpan_of_boundary (h : Boundary rest) : identSpan rest = ([], rest) := by
  cases rest with
  | nil => rfl
  | cons c cs =>
    obtain ⟨hc, hdot⟩ := h c rfl
    simp [identSpan, hc, hdot]

theorem char_le_iff (a b : Char) : a ≤ b ↔ a.toNat ≤ b.toNat := Iff.rfl

/-- The first character of an identifier starts nothing else. -/
theorem not_space_or_digit_of_isIdentStart {c : Char} (h : isIdentStart c) :
    isAsciiWhitespace c = false ∧ isAsciiDigit c = false := by
  simp only [isIdentStart, isAsciiAlphabetic, Bool.or_eq_true, Bool.and_eq_true, decide_eq_true_eq,
    beq_iff_eq, ← Char.toNat_inj, char_le_iff, Char.reduceToNat] at h
  simp only [isAsciiWhitespace, isAsciiDigit, Bool.or_eq_false_iff, Bool.and_eq_false_iff,
    beq_eq_false_iff_ne, decide_eq_false_iff_not, ne_eq, ← Char.toNat_inj, char_le_iff,
    Char.reduceToNat]
  omega

theorem Lexes.ident {v : Text} (hv : IsIdentifier v) (hrest : Boundary rest) (h : Lexes rest toks) :
    Lexes (v ++ rest) (.ident v :: toks) := by
  obtain ⟨c, cs, rfl, hstart⟩ := hv.eq_cons
  have hspan := hv.2
  obtain ⟨hspace, hdigit⟩ := not_space_or_digit_of_isIdentStart hstart
  have hspan' := identSpan_append rest (c :: cs) hspan
  have hstep : lexStep c (cs ++ rest) = .ok (some (.ident (c :: cs)), rest) := by
    rw [identSpan_of_boundary hrest, append_nil, cons_append] at hspan'
    simp [lexStep, hspace, hdigit, hstart, hspan']
  exact Lexes.step hstep (by simp) h

/-- A number: digits, letters and underscores that `parse_number` accepts. -/
theorem Lexes.num {c : Char} {cs : Text} {bytes : Bytes} (hdigit : isAsciiDigit c)
    (hchars : ∀ x ∈ c :: cs, isNumberChar x) (hnum : parseNumber (c :: cs) = .ok bytes)
    (hrest : Boundary rest) (h : Lexes rest toks) :
    Lexes (c :: cs ++ rest) (.num bytes :: toks) := by
  have hstop : ∀ x ∈ rest.head?, isNumberChar x = false := by
    intro x hx
    have hident := (hrest x hx).1
    simp only [isIdentChar, Bool.or_eq_false_iff] at hident
    simp [isNumberChar, hident.1]
  have htake : (c :: (cs ++ rest)).takeWhile isNumberChar = c :: cs := by
    rw [← cons_append, takeWhile_append_of_pos hchars]
    cases rest with
    | nil => simp
    | cons x xs => simp [hstop x rfl]
  have hdrop : (c :: (cs ++ rest)).dropWhile isNumberChar = rest := by
    rw [← cons_append, dropWhile_append_of_pos hchars]
    cases rest with
    | nil => simp
    | cons x xs => simp [hstop x rfl]
  have hspace : isAsciiWhitespace c = false := by
    simp only [isAsciiDigit, Bool.and_eq_true, decide_eq_true_eq, char_le_iff,
      Char.reduceToNat] at hdigit
    simp only [isAsciiWhitespace, Bool.or_eq_false_iff, beq_eq_false_iff_ne, ne_eq,
      ← Char.toNat_inj, Char.reduceToNat]
    omega
  have hstep : lexStep c (cs ++ rest) = .ok (some (.num bytes), rest) := by
    simp only [lexStep, hspace, hdigit, htake, hdrop, hnum, if_true, Bool.false_eq_true, if_false]
    rfl
  exact Lexes.step hstep (by simp) h

/-! ## Hexadecimal constants -/

/-- Pairs of hexadecimal digits give the bytes of the number. -/
theorem hexPairs_spec : ∀ (ds : Text) (acc n : ℕ), ds.length % 2 = 0 →
    ofDigitChars 16 acc ds = some n →
    ∃ bs, hexPairs ds = some bs ∧ n = acc * 256 ^ bs.length + ofBe bs
  | [], acc, n, _, h => by
    cases h
    exact ⟨[], rfl, by simp⟩
  | [_], _, _, hlen, _ => by simp at hlen
  | a :: b :: rest, acc, n, hlen, h => by
    simp only [ofDigitChars, bind_eq_bind, bind_eq_some_iff] at h
    obtain ⟨x, hx, y, hy, h⟩ := h
    obtain ⟨bs, hbs, hn⟩ := hexPairs_spec rest _ n (by simp at hlen; omega) h
    refine ⟨UInt8.ofNat (16 * x + y) :: bs, by simp [hexPairs, hx, hy, hbs], ?_⟩
    have hlt : ∀ {c : Char} {d : ℕ}, toDigit 16 c = some d → d < 16 := by
      intro c d hd
      simp only [toDigit, ite_none_right_eq_some, Option.some.injEq] at hd
      omega
    have hxy : (UInt8.ofNat (16 * x + y)).toNat = 16 * x + y := by
      have := hlt hx
      have := hlt hy
      simp [UInt8.toNat_ofNat']
      omega
    rw [hn, ofBe_cons, hxy, length_cons, Nat.pow_succ]
    ring

theorem isNumberChar_of_toDigit {c : Char} (h : (toDigit 16 c).isSome) : isNumberChar c := by
  by_contra hc
  simp only [isNumberChar, isAsciiAlphanumeric, isAsciiAlphabetic, isAsciiDigit, Bool.or_eq_true,
    Bool.and_eq_true, decide_eq_true_eq, not_or] at hc
  obtain ⟨⟨hletter, hdigit⟩, -⟩ := hc
  simp only [toDigit, if_neg hdigit, if_neg hletter.1, if_neg hletter.2] at h
  simp at h

/-- A hexadecimal constant is read with its value. -/
theorem parseNumber_hex {ds : Text} {n : ℕ} (hne : ds ≠ []) (h : ofDigitChars 16 0 ds = some n)
    (hn : n < 2 ^ 256) :
    ∃ bytes, parseNumber ('0' :: 'x' :: ds) = .ok bytes ∧ bytes.length ≤ 32 ∧
      ofBe bytes = n := by
  have hdigits := isSome_toDigit_of_ofDigitChars h
  set padded := if ds.length % 2 = 1 then '0' :: ds else ds with hpadded
  have hpad : padded.length % 2 = 0 ∧ ofDigitChars 16 0 padded = some n := by
    rw [hpadded]
    split_ifs with hodd
    · exact ⟨by simp; omega, (ofDigitChars_zeros (by decide) 1 ds).trans h⟩
    · exact ⟨by omega, h⟩
  obtain ⟨bs, hbs, hval⟩ := hexPairs_spec padded 0 n hpad.1 hpad.2
  rw [Nat.zero_mul, Nat.zero_add] at hval
  have hnumber : numberBytes ('0' :: 'x' :: ds) = .ok bs := by
    have hstrip : stripPrefix? ('0' :: 'x' :: ds) "0x".toList = some ds := by
      simp [stripPrefix?]
    have hall : ds.all (fun c => (toDigit 16 c).isSome) = true := all_eq_true.2 hdigits
    have hempty : ds.isEmpty = false := by simpa using hne
    simp only [numberBytes, hstrip, orElse_some, hall, hempty, Bool.not_true, Bool.or_self,
      Bool.false_eq_true, if_false, ← hpadded, hbs]
  have hlen : (stripZeros bs).length ≤ 32 := by
    apply length_stripZeros_le
    rw [← hval]
    exact hn.trans_le (by decide)
  refine ⟨stripZeros bs, ?_, hlen, ?_⟩
  · simp only [parseNumber, hnumber, bind, Except.bind]
    rw [if_neg (by omega)]
  · rw [ofBe_stripZeros, hval]

/-! ## Punctuation -/

/-- The first character of a punctuation token starts nothing else. -/
theorem punct_plain (p : Punct) : ∃ c cs, p.text = c :: cs ∧ isAsciiWhitespace c = false ∧
    isAsciiDigit c = false ∧ isIdentStart c = false ∧ c ≠ '"' := by
  cases p <;> exact ⟨_, _, rfl, by decide⟩

theorem Lexes.punct_of_find
    (hfind : Punct.all.find? (fun q => q.text.isPrefixOf (p.text ++ rest)) = some p)
    (h : Lexes rest toks) : Lexes (p.text ++ rest) (.punct p :: toks) := by
  obtain ⟨c, cs, htext, hplain⟩ := punct_plain p
  have hcons : p.text ++ rest = c :: (cs ++ rest) := by rw [htext, cons_append]
  exact Lexes.punct hcons hplain (by rw [← hcons]; exact hfind) h

/-- A punctuation token in front of a space is not part of a longer one. -/
theorem Lexes.spaced (p : Punct) (h : Lexes rest toks) :
    Lexes (p.text ++ ' ' :: rest) (.punct p :: toks) := by
  apply Lexes.punct_of_find _ h.space
  cases p <;> rfl

/-- The punctuation that no longer token starts with. -/
theorem Lexes.single (hp : p = .lparen ∨ p = .rparen ∨ p = .comma ∨ p = .tilde)
    (h : Lexes rest toks) : Lexes (p.text ++ rest) (.punct p :: toks) := by
  apply Lexes.punct_of_find _ h
  rcases hp with rfl | rfl | rfl | rfl
  all_goals rfl

/-- A negation, which an equals sign would turn into a comparison. -/
theorem Lexes.bang (hrest : rest.head? ≠ some '=') (h : Lexes rest toks) :
    Lexes ('!' :: rest) (.punct .bang :: toks) := by
  apply Lexes.punct_of_find (p := .bang) _ h
  cases rest with
  | nil => simp [Punct.all, Punct.text, isPrefixOf]
  | cons c cs =>
    have hc : c ≠ '=' := by simpa using hrest
    simp [Punct.all, Punct.text, isPrefixOf, hc.symm]

/-! ## What follows an expression -/

/-- The end of the text, or a token that closes an expression. -/
def Closes : List Tok → Prop
  | [] => True
  | .punct p :: _ => p = .rparen ∨ p = .comma ∨ p = .rbracket
  | _ => False

/-- What follows an operand: not a power, an index or a call. -/
structure FollowsOperand (rest : List Tok) : Prop where
  power : eat .starStar rest = none
  index : eat .lbracket rest = none
  call : eat .lparen rest = none

theorem eat_punct_ne {q : Punct} (h : q ≠ p) (rest : List Tok) :
    eat p (.punct q :: rest) = none := by
  simp [eat, h]

theorem eatOp_eq_none {rest : List Tok} : ∀ {ops : List (Punct × BinOp)},
    (∀ p op, (p, op) ∈ ops → eat p rest = none) → eatOp ops rest = none
  | [], _ => rfl
  | (p, op) :: ops, h => by
    rw [eatOp, h p op (by simp)]
    exact eatOp_eq_none fun q o hq => h q o (mem_cons_of_mem _ hq)

/-- A closing token is no operator of any level. -/
theorem Closes.eatOp {rest : List Tok} (h : Closes rest) {ops : List (Punct × BinOp)}
    (hops : ops ∈ levels) : eatOp ops rest = none := by
  apply eatOp_eq_none
  intro p op hp
  match rest, h with
  | [], _ => rfl
  | .punct q :: rest, h =>
    have hno : ∀ ops ∈ levels, ∀ e ∈ ops, e.1 ≠ .rparen ∧ e.1 ≠ .comma ∧ e.1 ≠ .rbracket := by
      decide
    obtain ⟨h1, h2, h3⟩ := hno ops hops _ hp
    apply eat_punct_ne
    rcases h with rfl | rfl | rfl
    · exact h1.symm
    · exact h2.symm
    · exact h3.symm

theorem Closes.followsOperand {rest : List Tok} (h : Closes rest) : FollowsOperand rest := by
  match rest, h with
  | [], _ => exact ⟨rfl, rfl, rfl⟩
  | .punct q :: rest, h =>
    rcases h with rfl | rfl | rfl
    all_goals exact ⟨rfl, rfl, rfl⟩

/-! ## The judgements -/

/-- The tokens of a text, whatever follows it behind a boundary. -/
structure Tokens (t : Text) (toks : List Tok) : Prop where
  /-- The text does not start with an equals sign. -/
  start : ∃ c ∈ t.head?, c ≠ '='
  /-- There is a token, and it closes nothing. -/
  opens : ∀ rest, toks ≠ [] ∧ eat .rparen (toks ++ rest) = none
  /-- The tokens stand in front of those of the rest. -/
  lexes : ∀ {rest : Text} {rtoks : List Tok}, Boundary rest → Lexes rest rtoks →
    Lexes (t ++ rest) (toks ++ rtoks)

/-- The text reads as `e` where a primary expression with its indices is expected. -/
def IsPrimary (t : Text) (e : EExpr) : Prop :=
  ∃ toks, Tokens t toks ∧ (∀ rest, eatUnOp (toks ++ rest) = none) ∧
    ∀ n rest, 20 * toks.length ≤ n + 2 → eat .lbracket rest = none → eat .lparen rest = none →
      indexed n (toks ++ rest) = .ok (e, rest)

/-- The text reads as `e` where a unary expression is expected. -/
def IsOperand (t : Text) (e : EExpr) : Prop :=
  ∃ toks, Tokens t toks ∧ ∀ n rest, 20 * toks.length ≤ n → FollowsOperand rest →
    unary n (toks ++ rest) = .ok (e, rest)

/-- The text reads as `e` where any expression is expected. -/
def IsExpr (t : Text) (e : EExpr) : Prop :=
  ∃ toks, Tokens t toks ∧ ∀ n rest, 20 * toks.length + 11 ≤ n → Closes rest →
    binary n 0 (toks ++ rest) = .ok (e, rest)

theorem Tokens.head_ne (h : Tokens t toks) (rest : Text) : (t ++ rest).head? ≠ some '=' := by
  obtain ⟨c, hc, hne⟩ := h.start
  cases t with
  | nil => simp at hc
  | cons d ds =>
    have hd : d = c := by simpa using hc
    subst hd
    simpa using hne

theorem Tokens.pos (h : Tokens t toks) : 0 < toks.length :=
  length_pos_iff.2 (h.opens []).1

/-! ## Operands -/

/-- A primary expression without indices. -/
theorem IsPrimary.of_primary (htoks : Tokens t toks) (hno : ∀ rest, eatUnOp (toks ++ rest) = none)
    (hparse : ∀ n rest, 20 * toks.length ≤ n + 3 → eat .lparen rest = none →
      primary n (toks ++ rest) = .ok (e, rest)) : IsPrimary t e := by
  refine ⟨toks, htoks, hno, fun n rest hn hindex hcall => ?_⟩
  have hpos := htoks.pos
  obtain ⟨n, rfl⟩ : ∃ k, n = k + 2 := ⟨n - 2, by omega⟩
  rw [indexed, hparse (n + 1) rest (by omega) hcall]
  simp only [bind, Except.bind, indexLoop, hindex]

/-- A constant. -/
theorem IsPrimary.num {c : Char} {cs : Text} {bytes : Bytes} (hdigit : isAsciiDigit c)
    (hchars : ∀ x ∈ c :: cs, isNumberChar x) (hnum : parseNumber (c :: cs) = .ok bytes) :
    IsPrimary (c :: cs) (.num bytes) := by
  have htoks : Tokens (c :: cs) [.num bytes] := by
    refine ⟨⟨c, rfl, ?_⟩, fun _ => ⟨by simp, rfl⟩,
      fun hrest h => Lexes.num hdigit hchars hnum hrest h⟩
    rintro rfl
    cases hdigit
  refine .of_primary htoks (fun _ => rfl) fun n rest hn _ => ?_
  obtain ⟨n, rfl⟩ : ∃ k, n = k + 1 := ⟨n - 1, by simp at hn; omega⟩
  rfl

/-- A hexadecimal constant. -/
theorem exists_isPrimary_hex {ds : Text} {n : ℕ} (hne : ds ≠ [])
    (h : ofDigitChars 16 0 ds = some n) (hn : n < 2 ^ 256) :
    ∃ bytes, IsPrimary ("0x".toList ++ ds) (.num bytes) ∧ bytes.length ≤ 32 ∧ ofBe bytes = n := by
  obtain ⟨bytes, hnum, hlen, hval⟩ := parseNumber_hex hne h hn
  refine ⟨bytes, IsPrimary.num (by decide) ?_ hnum, hlen, hval⟩
  intro x hx
  change x ∈ '0' :: 'x' :: ds at hx
  simp only [mem_cons] at hx
  rcases hx with rfl | rfl | hx
  · decide
  · decide
  · exact isNumberChar_of_toDigit (isSome_toDigit_of_ofDigitChars h x hx)

theorem tokens_ident {v : Text} (hv : IsIdentifier v) : Tokens v [.ident v] := by
  refine ⟨?_, fun _ => ⟨by simp, rfl⟩, fun hrest h => Lexes.ident hv hrest h⟩
  obtain ⟨c, cs, rfl, hstart⟩ := hv.eq_cons
  refine ⟨c, rfl, ?_⟩
  rintro rfl
  cases hstart

/-- An identifier. -/
theorem IsPrimary.name {v : Text} (hv : IsIdentifier v) : IsPrimary v (.name v) := by
  refine .of_primary (tokens_ident hv) (fun _ => rfl) fun n rest hn hcall => ?_
  obtain ⟨n, rfl⟩ : ∃ k, n = k + 1 := ⟨n - 1, by simp at hn; omega⟩
  simp only [singleton_append, primary, hcall]

theorem Boundary.rparen (rest : Text) : Boundary (')' :: rest) := by
  intro c hc
  have hc' : ')' = c := by simpa using hc
  subst hc'
  decide

theorem Boundary.space (rest : Text) : Boundary (' ' :: rest) := by
  intro c hc
  have hc' : ' ' = c := by simpa using hc
  subst hc'
  decide

/-- The tokens of a text in parentheses. -/
theorem Tokens.lexes_parens (h : Tokens t toks) {rtoks : List Tok} (hrest : Lexes rest rtoks) :
    Lexes ('(' :: t ++ [')'] ++ rest) (.punct .lparen :: toks ++ [.punct .rparen] ++ rtoks) := by
  have hclose : Lexes (')' :: rest) (.punct .rparen :: rtoks) :=
    Lexes.single (p := .rparen) (by simp) hrest
  have hopen := Lexes.single (p := .lparen) (by simp) (h.lexes (Boundary.rparen rest) hclose)
  simpa [Punct.text] using hopen

/-- An expression in parentheses. -/
theorem IsExpr.parens (h : IsExpr t e) : IsPrimary ('(' :: t ++ [')']) e := by
  obtain ⟨toks, htoks, hparse⟩ := h
  have htoks' : Tokens ('(' :: t ++ [')']) (.punct .lparen :: toks ++ [.punct .rparen]) :=
    ⟨⟨'(', rfl, by decide⟩, fun _ => ⟨by simp, rfl⟩, fun _ hrest => htoks.lexes_parens hrest⟩
  refine .of_primary htoks' (fun _ => rfl) fun n rest hn _ => ?_
  simp only [length_append, length_cons, length_nil] at hn
  obtain ⟨n, rfl⟩ : ∃ k, n = k + 1 := ⟨n - 1, by omega⟩
  have hinner := hparse n (.punct .rparen :: rest) (by omega) (.inl rfl)
  simp only [append_assoc, cons_append, nil_append, primary, hinner, bind,
    Except.bind, expect, eat, if_true]
  rfl

/-- A call with one argument. -/
theorem IsExpr.call {f : Text} (hf : IsIdentifier f) (h : IsExpr t e) :
    IsPrimary (f ++ ('(' :: t ++ [')'])) (.call f [e]) := by
  obtain ⟨toks, htoks, hparse⟩ := h
  have hopen : ∀ rest : Text, Boundary ('(' :: rest) := by
    intro rest c hc
    have hc' : '(' = c := by simpa using hc
    subst hc'
    decide
  have htoks' : Tokens (f ++ ('(' :: t ++ [')']))
      (.ident f :: (.punct .lparen :: toks ++ [.punct .rparen])) := by
    refine ⟨?_, fun _ => ⟨by simp, rfl⟩, fun _ hrest => ?_⟩
    · obtain ⟨c, hc, hne⟩ := (tokens_ident hf).start
      exact ⟨c, by rw [mem_def] at hc ⊢; simp [hc], hne⟩
    have hparens := htoks.lexes_parens hrest
    have hlex := Lexes.ident hf (hopen _) hparens
    simpa using hlex
  refine .of_primary htoks' (fun _ => rfl) fun n rest hn _ => ?_
  simp only [length_append, length_cons, length_nil] at hn
  obtain ⟨n, rfl⟩ : ∃ k, n = k + 2 := ⟨n - 2, by omega⟩
  have hinner := hparse n (.punct .rparen :: rest) (by omega) (.inl rfl)
  have hne := (htoks.opens (.punct .rparen :: rest)).2
  simp only [append_assoc, cons_append, nil_append, primary, eat, if_true] at hne ⊢
  simp only [hne, arguments, hinner, bind, Except.bind, eat, if_true]
  rfl

/-- A primary expression is an operand. -/
theorem IsPrimary.isOperand (h : IsPrimary t e) : IsOperand t e := by
  obtain ⟨toks, htoks, hno, hparse⟩ := h
  refine ⟨toks, htoks, fun n rest hn hrest => ?_⟩
  have hpos := htoks.pos
  obtain ⟨n, rfl⟩ : ∃ k, n = k + 2 := ⟨n - 2, by omega⟩
  rw [unary, hno rest]
  simp only [power]
  rw [hparse n rest (by omega) hrest.index hrest.call]
  simp only [bind, Except.bind, hrest.power]

/-- A unary operator in front of an operand. -/
theorem IsOperand.unary_of_lexes {op : UnOp}
    (hp : ∀ rest, eatUnOp (.punct p :: rest) = some (op, rest)) (hstart : p.text.head? ≠ some '=')
    (hclose : p ≠ .rparen)
    (hlex : ∀ {rest : Text} {rtoks : List Tok}, rest.head? ≠ some '=' → Lexes rest rtoks →
      Lexes (p.text ++ rest) (.punct p :: rtoks)) (h : IsOperand t e) :
    IsOperand (p.text ++ t) (.unary op e) := by
  obtain ⟨toks, htoks, hparse⟩ := h
  have htoks' : Tokens (p.text ++ t) (.punct p :: toks) := by
    refine ⟨?_, fun _ => ⟨by simp, eat_punct_ne hclose _⟩, fun hrest hr => ?_⟩
    · obtain ⟨c, cs, htext, -⟩ := punct_plain p
      rw [htext] at hstart ⊢
      exact ⟨c, rfl, by simpa using hstart⟩
    · rw [append_assoc]
      exact hlex (htoks.head_ne _) (htoks.lexes hrest hr)
  refine ⟨_, htoks', fun n rest hn hrest => ?_⟩
  simp only [length_cons] at hn
  obtain ⟨n, rfl⟩ : ∃ k, n = k + 1 := ⟨n - 1, by omega⟩
  rw [cons_append, unary, hp]
  simp only [hparse n rest (by omega) hrest, bind, Except.bind]
  rfl

theorem IsOperand.not (h : IsOperand t e) : IsOperand ('!' :: t) (.unary .not e) :=
  h.unary_of_lexes (p := .bang) (fun _ => rfl) (by decide) (by decide) Lexes.bang

theorem IsOperand.bitNot (h : IsOperand t e) : IsOperand ('~' :: t) (.unary .bitNot e) :=
  h.unary_of_lexes (p := .tilde) (fun _ => rfl) (by decide) (by decide)
    fun _ hr => Lexes.single (by simp) hr

/-- The tokens of two operands with an operator between them. -/
theorem Tokens.spaced {l r : Text} {ls rs : List Tok} (hl : Tokens l ls) (hr : Tokens r rs)
    (p : Punct) : Tokens (l ++ " ".toList ++ p.text ++ " ".toList ++ r) (ls ++ .punct p :: rs) := by
  refine ⟨?_, fun rest => ⟨by simp, ?_⟩, fun {rest rtoks} hrest h => ?_⟩
  · obtain ⟨c, hc, hne⟩ := hl.start
    exact ⟨c, by rw [mem_def] at hc ⊢; simp [hc], hne⟩
  · rw [append_assoc]
    exact (hl.opens _).2
  have hright := Lexes.spaced p (hr.lexes hrest h)
  have hall := hl.lexes (Boundary.space (p.text ++ ' ' :: (r ++ rest))) hright.space
  simpa using hall

/-- A power: its base is a primary expression, and its exponent may be another power. -/
theorem IsPrimary.power {b x : Text} {eb ex : EExpr} (hb : IsPrimary b eb) (hx : IsOperand x ex) :
    IsOperand (b ++ " ".toList ++ Punct.starStar.text ++ " ".toList ++ x)
      (.binary .exp eb ex) := by
  obtain ⟨bs, hbs, hno, hbase⟩ := hb
  obtain ⟨xs, hxs, hexp⟩ := hx
  refine ⟨_, hbs.spaced hxs .starStar, fun n rest hn hrest => ?_⟩
  simp only [length_append, length_cons] at hn
  obtain ⟨n, rfl⟩ : ∃ k, n = k + 2 := ⟨n - 2, by omega⟩
  rw [append_assoc, unary, hno]
  simp only [Compile.power, cons_append]
  rw [hbase n _ (by omega) rfl rfl]
  simp only [bind, Except.bind, eat, if_true]
  rw [hexp n rest (by omega) hrest]
  rfl

/-! ## Binary operators -/

/-- From a level of the binary operators to a looser one, when no operator between follows. -/
theorem binary_climb {m : ℕ} {rest : List Tok} : ∀ (k level : ℕ),
    level + k ≤ levels.length → binary (m + 1) (level + k) toks = .ok (e, rest) →
    (∀ i ops, level ≤ i → i < level + k → levels[i]? = some ops → eatOp ops rest = none) →
    binary (m + k + 1) level toks = .ok (e, rest)
  | 0, level, _, h, _ => h
  | k + 1, level, hlevel, h, hrest => by
    have ih := binary_climb k (level + 1) (by omega) (by rwa [Nat.add_right_comm level 1 k])
      fun i ops hle hi => hrest i ops (by omega) (by omega)
    have hlt : level < levels.length := by omega
    have hops : levels[level]? = some levels[level] := List.getElem?_eq_getElem hlt
    rw [binary, hops]
    rw [← Nat.add_assoc m k 1, ih]
    simp only [bind, Except.bind, binaryLoop, hrest level _ le_rfl (by omega) hops]

/-- A unary expression at a level of binary operators, if none as tight follows. -/
theorem binary_of_unary {m : ℕ} {rest : List Tok} (h : unary m toks = .ok (e, rest)) (level : ℕ)
    (hlevel : level ≤ levels.length)
    (hrest : ∀ i ops, level ≤ i → levels[i]? = some ops → eatOp ops rest = none) :
    binary (m + (levels.length - level) + 1) level toks = .ok (e, rest) := by
  have hk : level + (levels.length - level) = levels.length := by omega
  apply binary_climb _ level hk.le
  · rw [hk, binary, List.getElem?_eq_none_iff.2 le_rfl]
    exact h
  · exact fun i ops hle _ hops => hrest i ops hle hops

/-- An operand is an expression. -/
theorem IsOperand.isExpr (h : IsOperand t e) : IsExpr t e := by
  obtain ⟨toks, htoks, hparse⟩ := h
  refine ⟨toks, htoks, fun n rest hn hrest => ?_⟩
  obtain ⟨m, rfl⟩ : ∃ m, n = m + 10 + 1 := ⟨n - 11, by omega⟩
  exact binary_of_unary (hparse m rest (by omega) hrest.followsOperand) 0 (Nat.zero_le _)
    fun i ops _ hops => hrest.eatOp (mem_of_getElem? hops)

theorem eatOp_punct (p : Punct) (rest : List Tok) : ∀ ops : List (Punct × BinOp),
    eatOp ops (.punct p :: rest) =
      (ops.find? fun entry => p = entry.1).map fun entry => (entry.2, rest)
  | [] => rfl
  | (q, op) :: ops => by
    rw [eatOp, eatOp_punct p rest ops]
    by_cases h : p = q <;> simp [eat, h]

/-- The token `p` is the operator `op` of one level, and no operator of another level. -/
def IsOperatorAt (level : ℕ) (p : Punct) (op : BinOp) : Prop :=
  ∀ i ops, levels[i]? = some ops →
    (ops.find? fun entry => p = entry.1) = if i = level then some (p, op) else none

/-- Every entry of the table of levels is an operator of its level only. -/
theorem isOperatorAt_of_mem {level : ℕ} {op : BinOp} {ops : List (Punct × BinOp)}
    (hops : levels[level]? = some ops) (hp : (p, op) ∈ ops) : IsOperatorAt level p op := by
  have htable : ∀ i < levels.length, ∀ entry ∈ levels.getD i [], ∀ j < levels.length,
      ((levels.getD j []).find? fun e => entry.1 = e.1) = if j = i then some entry else none := by
    decide
  intro j ops' hj
  have hlevel : level < levels.length := (List.getElem?_eq_some_iff.1 hops).1
  have hjlt : j < levels.length := (List.getElem?_eq_some_iff.1 hj).1
  have h := htable level hlevel (p, op) (by simpa [List.getD, hops] using hp) j hjlt
  simpa [List.getD, hj] using h

/-- Two operands with an operator between them. -/
theorem IsOperand.binary {l r : Text} {el er : EExpr} {op : BinOp} {level : ℕ}
    {ops : List (Punct × BinOp)} (hl : IsOperand l el) (hr : IsOperand r er)
    (hops : levels[level]? = some ops) (hp : (p, op) ∈ ops) :
    IsExpr (l ++ " ".toList ++ p.text ++ " ".toList ++ r) (.binary op el er) := by
  obtain ⟨ls, hls, hleft⟩ := hl
  obtain ⟨rs, hrs, hright⟩ := hr
  have hop := isOperatorAt_of_mem hops hp
  have hlevel : level < levels.length := (List.getElem?_eq_some_iff.1 hops).1
  have hten : levels.length = 10 := rfl
  refine ⟨_, hls.spaced hrs p, fun n rest hn hrest => ?_⟩
  simp only [length_append, length_cons] at hn
  have hfollows : FollowsOperand (.punct p :: (rs ++ rest)) := by
    have hno : ∀ i < levels.length, ∀ entry ∈ levels.getD i [],
        entry.1 ≠ .starStar ∧ entry.1 ≠ .lbracket ∧ entry.1 ≠ .lparen := by decide
    obtain ⟨h1, h2, h3⟩ := hno level hlevel (p, op) (by simpa [List.getD, hops] using hp)
    exact ⟨eat_punct_ne h1 _, eat_punct_ne h2 _, eat_punct_ne h3 _⟩
  have hclosed : ∀ i ops, levels[i]? = some ops → eatOp ops rest = none :=
    fun i ops hi => hrest.eatOp (mem_of_getElem? hi)
  -- The budget of the left operand, below the levels from its own to the loosest.
  obtain ⟨m, rfl⟩ : ∃ m, n = m + (levels.length - (level + 1)) + 1 + level + 1 := ⟨n - 11, by omega⟩
  apply binary_climb level 0 (by omega)
  · have hlhs := binary_of_unary (hleft m (.punct p :: (rs ++ rest)) (by omega) hfollows)
      (level + 1)
      hlevel fun i ops' hle hi => by
        rw [eatOp_punct, hop i ops' hi, if_neg (by omega)]
        rfl
    have hrhs := binary_of_unary
      (hright (m - 1) rest (by omega) hrest.followsOperand) (level + 1) hlevel
      fun i ops' _ hi => hclosed i ops' hi
    have heat : eatOp ops (.punct p :: (rs ++ rest)) = some (op, rs ++ rest) := by
      rw [eatOp_punct, hop level ops hops, if_pos rfl]
      rfl
    have hbudget : m + (levels.length - (level + 1)) =
      m - 1 + (levels.length - (level + 1)) + 1 := by
      omega
    rw [Nat.zero_add, Compile.binary, hops, append_assoc, cons_append]
    rw [hlhs]
    simp only [bind, Except.bind]
    rw [binaryLoop, heat]
    simp only
    rw [hbudget, hrhs]
    simp only [bind, Except.bind, binaryLoop, hclosed level ops hops]
  · exact fun i ops' _ _ hi => hclosed i ops' hi

/-! ## Whole texts -/

/-- A text that reads as an expression is parsed to it. -/
theorem IsExpr.parseExpr (h : IsExpr t e) : parseExpr t = .ok e := by
  obtain ⟨toks, htoks, hparse⟩ := h
  have hlex : lex t = .ok toks := by
    have hend : Boundary [] := by simp [Boundary]
    have hl := htoks.lexes hend .nil
    simpa [lex] using hl t.length (by simp)
  have hpos := htoks.pos
  have hempty : toks.isEmpty = false := by
    cases toks with
    | nil => simp at hpos
    | cons _ _ => rfl
  have hbinary := hparse (parseBudget toks) [] (by simp only [parseBudget]; omega) trivial
  rw [append_nil] at hbinary
  have hlist : parseList t = .ok [e] := by
    simp only [parseList, hlex, bind, Except.bind, hempty, Bool.false_eq_true, if_false, hbinary]
    rfl
  simp only [Compile.parseExpr, hlist, bind, Except.bind]
  rfl

end Univdreams.Compile
