import Univdreams.Numerals
import Univdreams.Ud.Emit

/-!
# Lexing what the printer writes

`Scans` says that a piece of text makes certain tokens, whatever stands behind it, and composes
along the text. The lemmas of this module are the tokens of the pieces that the printer writes:
names, numbers, strings, comments and single characters.
-/

namespace Univdreams.Ud

open List Text Lexer

variable {c : Char} {start pos : Pos} {w rest : Text} {n : ℕ}

/-! ## Positions and places -/

@[simp] theorem Pos.after_nil (pos : Pos) : pos.after [] = pos := rfl

@[simp] theorem Pos.after_append (pos : Pos) (s t : Text) :
    pos.after (s ++ t) = (pos.after s).after t := List.foldl_append

/-- The text between two places is what the first has before the second. -/
@[simp] theorem cut_append (s t : Text) : cut (s ++ t) t = s := by
  simp [cut]

/-! ## Tokens of a text -/

/-- The lexer makes the tokens `toks` of the rest of its input, with enough rounds. -/
def Lexes (l : Lexer) (toks : List Token) : Prop :=
  ∀ n, l.rest.length < n → l.tokenizeLoop n = .ok toks

/-- Between two states of the lexer are just the tokens `us`, each of which starts before the second
state. -/
structure Scans (l : Lexer) (us : List Token) (l' : Lexer) : Prop where
  run : ∀ n, l.tokenizeLoop (us.length + n) = (us ++ ·) <$> l'.tokenizeLoop n
  place : ∀ u ∈ us, l'.rest.length < u.start.length
  length : l'.rest.length + us.length ≤ l.rest.length

/-- Scans of adjacent texts compose. -/
theorem Scans.trans {l1 l2 l3 : Lexer} {us vs : List Token} (h1 : Scans l1 us l2)
    (h2 : Scans l2 vs l3) : Scans l1 (us ++ vs) l3 where
  run n := by
    rw [length_append, Nat.add_assoc, h1.run, h2.run]
    cases l3.tokenizeLoop n <;> simp [Functor.map, Except.map]
  place u hu := by
    have := h2.length
    rcases mem_append.1 hu with hu | hu
    · exact lt_of_le_of_lt (by omega) (h1.place u hu)
    · exact h2.place u hu
  length := by
    have h1 := h1.length
    have h2 := h2.length
    rw [length_append]
    omega

/-- What follows the second state follows the tokens between the two. -/
theorem Scans.lexes {l l' : Lexer} {us toks : List Token} (h : Scans l us l') (h' : Lexes l' toks) :
    Lexes l (us ++ toks) := by
  intro n hn
  have hlen := h.length
  obtain ⟨m, rfl⟩ : ∃ m, n = us.length + m := ⟨n - us.length, by omega⟩
  rw [h.run, h' m (by omega)]
  rfl

/-- White space makes no token. -/
theorem scans_space {ws : Text} (hws : ∀ c ∈ ws, isWhitespace c = true) (pos : Pos) (rest : Text) :
    Scans ⟨pos, ws ++ rest⟩ [] ⟨pos.after ws, rest⟩ where
  run n := by
    have hskip : (⟨pos, ws ++ rest⟩ : Lexer).skipWhitespace =
        (⟨pos.after ws, rest⟩ : Lexer).skipWhitespace := by
      simp only [skipWhitespace, Lexer.mk.injEq]
      rw [takeWhile_append_of_pos hws, dropWhile_append_of_pos hws, Pos.after_append]
      exact ⟨rfl, rfl⟩
    have hsame : (⟨pos, ws ++ rest⟩ : Lexer).tokenizeLoop n =
        (⟨pos.after ws, rest⟩ : Lexer).tokenizeLoop n := by
      cases n with
      | zero => rfl
      | succ n => simp only [tokenizeLoop, nextToken, hskip]
    rw [length_nil, Nat.zero_add, hsame]
    cases tokenizeLoop n ⟨pos.after ws, rest⟩ <;> rfl
  place u hu := by cases hu
  length := by simp

/-- One token, with the text `c :: w`. -/
theorem scans_token {pos : Pos} {kind : TokenKind} (hc : isWhitespace c = false)
    (hkind : kind ≠ .eof) (h : lexKind pos c (w ++ rest) = .ok (kind, rest)) :
    Scans ⟨pos, (c :: w) ++ rest⟩ [⟨kind, pos.line, pos.col, (c :: w) ++ rest, rest⟩]
      ⟨pos.after (c :: w), rest⟩ where
  run n := by
    have hskip : (⟨pos, (c :: w) ++ rest⟩ : Lexer).skipWhitespace = ⟨pos, (c :: w) ++ rest⟩ := by
      simp [skipWhitespace, hc]
    have hhere : (⟨pos, (c :: w) ++ rest⟩ : Lexer).tokenHere =
        .ok (⟨kind, pos.line, pos.col, (c :: w) ++ rest, rest⟩, ⟨pos.after (c :: w), rest⟩) := by
      have hcut : cut (c :: (w ++ rest)) rest = c :: w := cut_append (c :: w) rest
      simp only [tokenHere, cons_append, h]
      simp only [bind, Except.bind, pure, Except.pure, hcut]
    rw [length_singleton, Nat.add_comm]
    simp only [tokenizeLoop, nextToken, hskip, hhere]
    simp only [bind, Except.bind, pure, Except.pure, if_neg hkind]
    cases tokenizeLoop n ⟨pos.after (c :: w), rest⟩ <;> rfl
  place u hu := by
    obtain rfl := mem_singleton.1 hu
    simp
  length := by simp

/-! ## Single characters and names -/

/-- A text behind which no name and no number goes on. -/
def Boundary (rest : Text) : Prop := ∀ c ∈ rest.head?, isIdentContinue c = false

theorem boundary_cons {rest : Text} : Boundary (c :: rest) ↔ isIdentContinue c = false := by
  simp [Boundary]

/-- An identifier of the lexer. -/
def IsIdentifier (t : Text) : Prop :=
  t.head?.any isIdentStart = true ∧ t.tail.all isIdentContinue = true

instance (t : Text) : Decidable (IsIdentifier t) := inferInstanceAs (Decidable (_ ∧ _))

/-- A fact about all ASCII characters. -/
theorem ascii_forall {P : Char → Prop} (h : ∀ n : Fin 128, P (Char.ofNat n))
    (hc : c.toNat < 128) : P c := by
  have hp := h ⟨c.toNat, hc⟩
  rwa [Char.ofNat_toNat] at hp

/-- The characters of names are ASCII characters. -/
theorem toNat_lt_of_isIdentContinue (h : isIdentContinue c = true) : c.toNat < 128 := by
  simp only [isIdentContinue, isAsciiAlphanumeric, isAsciiAlphabetic, isAsciiDigit, Bool.or_eq_true,
    beq_iff_eq, Bool.and_eq_true, decide_eq_true_eq] at h
  rcases h with (rfl | rfl) | (⟨-, h⟩ | ⟨-, h⟩) | ⟨-, h⟩
  · decide
  · decide
  all_goals exact lt_of_le_of_lt (toNat_le_of_le h) (by decide)

theorem isIdentContinue_of_start (h : isIdentStart c = true) : isIdentContinue c = true := by
  simp only [isIdentStart, isIdentContinue, isAsciiAlphanumeric, Bool.or_eq_true] at h ⊢
  tauto

/-- What the classes of characters have to do with each other, for one character. -/
def CharFacts (c : Char) : Prop :=
  (isIdentStart c = true ∨ isAsciiDigit c = true → singleKind c = none ∧ isWhitespace c = false ∧
    c ≠ '-' ∧ c ≠ '/' ∧ c ≠ '"' ∧ c ≠ '>') ∧
  (isIdentStart c = true → isAsciiDigit c = false) ∧
  ((toDigit 10 c).isSome = true → isAsciiDigit c = true) ∧
  ∀ r : Fin 17, (toDigit r c).isSome = true → isIdentContinue c = true

instance (c : Char) : Decidable (CharFacts c) := inferInstanceAs (Decidable (_ ∧ _))

/-- The classes are decided by looking at all ASCII characters. -/
theorem charFacts (hc : c.toNat < 128) : CharFacts c := by
  have all : ∀ n : Fin 128, CharFacts (Char.ofNat n) := by decide +kernel
  exact ascii_forall all hc

/-- A character that starts a name is no other token and no white space. -/
theorem isIdentStart_plain (h : isIdentStart c = true) :
    singleKind c = none ∧ isWhitespace c = false ∧ isAsciiDigit c = false ∧ c ≠ '-' ∧ c ≠ '/' ∧
      c ≠ '"' := by
  have hfacts := charFacts (toNat_lt_of_isIdentContinue (isIdentContinue_of_start h))
  obtain ⟨hsingle, hspace, hminus, hslash, hquote, -⟩ := hfacts.1 (.inl h)
  exact ⟨hsingle, hspace, hfacts.2.1 h, hminus, hslash, hquote⟩

theorem lexKind_single {kind : TokenKind} (h : singleKind c = some kind) (pos : Pos)
    (rest : Text) : lexKind pos c rest = .ok (kind, rest) := by
  simp [lexKind, h]

theorem takeWhile_boundary {p : Char → Bool} (hw : ∀ c ∈ w, p c = true)
    (hrest : ∀ c ∈ rest.head?, p c = false) :
    (w ++ rest).takeWhile p = w ∧ (w ++ rest).dropWhile p = rest := by
  rw [takeWhile_append_of_pos hw, dropWhile_append_of_pos hw]
  cases rest with
  | nil => simp
  | cons c cs => simp [hrest c (by simp)]

theorem lexKind_ident (h : IsIdentifier (c :: w)) (hrest : Boundary rest)
    (pos : Pos) : lexKind pos c (w ++ rest) = .ok (.ident (c :: w), rest) := by
  obtain ⟨hc, hw⟩ := h
  simp only [List.head?_cons, Option.any_some, tail_cons, all_eq_true] at hc hw
  obtain ⟨hsingle, -, hdigit, hminus, hslash, hquote⟩ := isIdentStart_plain hc
  obtain ⟨htake, hdrop⟩ := takeWhile_boundary hw hrest
  simp [lexKind, hsingle, hminus, hslash, hquote, hdigit, hc, htake, hdrop]

/-! ## Single tokens -/

/-- The text `w` is one token of kind `k`. When `b` is set, that holds in front of a boundary
only. -/
def Spells (w : Text) (k : TokenKind) (b : Bool) : Prop :=
  ∀ pos rest, (b = true → Boundary rest) →
    Scans ⟨pos, w ++ rest⟩ [⟨k, pos.line, pos.col, w ++ rest, rest⟩] ⟨pos.after w, rest⟩

/-- A character that is a token is no white space. -/
theorem isWhitespace_of_singleKind {k : TokenKind} (h : singleKind c = some k) :
    isWhitespace c = false ∧ k ≠ .eof := by
  unfold singleKind at h
  split at h
  all_goals first
    | (cases h; constructor <;> decide)
    | cases h

theorem Spells.single {k : TokenKind} (h : singleKind c = some k) :
    Spells [c] k false := fun pos rest _ =>
  have hplain := isWhitespace_of_singleKind h
  scans_token hplain.1 hplain.2 (lexKind_single h pos rest)

theorem Spells.ident {w : Text} (h : IsIdentifier w) : Spells w (.ident w) true := by
  intro pos rest hrest
  cases w with
  | nil => cases h.1
  | cons c w =>
    have hc : isIdentStart c = true := by simpa using h.1
    exact scans_token (isIdentStart_plain hc).2.1 (by simp) (lexKind_ident h (hrest rfl) pos)

/-! ## Numbers -/

theorem isNumberContinue_of_toDigit {radix : ℕ} (h : (toDigit radix c).isSome) :
    isNumberContinue radix c = true := by
  simp [isNumberContinue, h]

/-- Digits are characters of names. -/
theorem isIdentContinue_of_toDigit {radix : ℕ} (hr : radix ≤ 16)
    (h : (toDigit radix c).isSome) : isIdentContinue c = true :=
  (charFacts (toNat_lt_of_toDigit h)).2.2.2 ⟨radix, by omega⟩ h

theorem Boundary.not_number {rest : Text} (h : Boundary rest) {radix : ℕ} (hr : radix ≤ 16) :
    ∀ c ∈ rest.head?, isNumberContinue radix c = false := by
  intro c hc
  have hcont := h c hc
  by_contra hne
  rw [Bool.not_eq_false, isNumberContinue, Bool.or_eq_true, beq_iff_eq] at hne
  rcases hne with rfl | hne
  · simp [isIdentContinue] at hcont
  · rw [isIdentContinue_of_toDigit hr hne] at hcont
    cases hcont

theorem numberKind_eq {pos : Pos} {negative : Bool} {radix n : ℕ} {text ds : Text} (hne : ds ≠ [])
    (h : ofDigitChars radix 0 ds = some n) (hn : n < 2 ^ 64) :
    numberKind pos negative radix text ds =
      .ok (.int (if negative then -UInt64.ofNat n else UInt64.ofNat n)) := by
  rw [numberKind, fromStrRadix_of_ofDigitChars hne h hn]

theorem filter_digits {radix n : ℕ} {ds : Text} (h : ofDigitChars radix 0 ds = some n) :
    ds.filter (· ≠ '_') = ds := by
  rw [filter_eq_self]
  intro c hc
  simpa using (toDigit_ne (isSome_toDigit_of_ofDigitChars h c hc)).1

/-- A hexadecimal number. -/
theorem readNumber_hex (pos : Pos) (negative : Bool) {ds rest : Text} (hne : ds ≠ [])
    (h : ofDigitChars 16 0 ds = some n) (hn : n < 2 ^ 64) (hrest : Boundary rest) :
    readNumber pos negative '0' ('x' :: ds ++ rest) =
      .ok (.int (if negative then -UInt64.ofNat n else UInt64.ofNat n), rest) := by
  obtain ⟨htake, hdrop⟩ := takeWhile_boundary
    (fun c hc => isNumberContinue_of_toDigit (isSome_toDigit_of_ofDigitChars h c hc))
    (hrest.not_number le_rfl)
  simp only [readNumber, cons_append, List.head?_cons, true_or, and_self, if_true,
    tail_cons, htake, hdrop, filter_digits h, numberKind_eq hne h hn]
  rfl

theorem lexKind_hex {ds rest : Text} (hne : ds ≠ []) (h : ofDigitChars 16 0 ds = some n)
    (hn : n < 2 ^ 64) (hrest : Boundary rest) (pos : Pos) :
    lexKind pos '0' ('x' :: ds ++ rest) = .ok (.int (UInt64.ofNat n), rest) := by
  have hnum := readNumber_hex pos false hne h hn hrest
  simpa [lexKind, singleKind, isAsciiDigit] using hnum

/-- A number in hexadecimal. -/
theorem Spells.hexDigits {ds : Text} (hne : ds ≠ []) (h : ofDigitChars 16 0 ds = some n)
    (hn : n < 2 ^ 64) : Spells ('0' :: 'x' :: ds) (.int (UInt64.ofNat n)) true :=
  fun pos _ hrest => scans_token (by decide) (by simp) (lexKind_hex hne h hn (hrest rfl) pos)

theorem Spells.hex (n : UInt64) : Spells (hexText n.toNat) (.int n) true := by
  have h := Spells.hexDigits (toHex_ne_nil n.toNat) (ofDigitChars_toHex n.toNat)
    n.toNat_lt
  rwa [UInt64.ofNat_toNat] at h

/-- The digits of a byte. -/
theorem ofDigitChars_hexPair (hn : n < 256) : ofDigitChars 16 0 (hexPair n) = some n := by
  have hhigh : toDigit 16 (digitChar (n / 16)) = some (n / 16) :=
    toDigit_digitChar (by omega) le_rfl
  have hlow : toDigit 16 (digitChar (n % 16)) = some (n % 16) := toDigit_digitChar (by omega) le_rfl
  have hsum : n / 16 * 16 + n % 16 = n := by omega
  simp only [hexPair, ofDigitChars, hhigh, hlow, Option.bind_eq_bind, Option.bind_some,
    Nat.zero_mul, Nat.zero_add, hsum]

/-! ## Strings and comments -/

/-- The digits of an escape. -/
theorem fromStrRadix_hexPair (limit : ℕ) (hn : n < 256) (hlimit : 256 ≤ limit) :
    fromStrRadix limit 16 (hexPair n) = some n :=
  fromStrRadix_of_ofDigitChars (by simp [hexPair]) (ofDigitChars_hexPair hn) (by omega)

/-- A plain character of a literal. -/
theorem readString_plain {s : Text} (h1 : c ≠ '"') (h2 : c ≠ '\\') :
    readString start pos (c :: s) = (readString start (pos.bump c) s).map (pushChar c) := by
  rw [readString.eq_def]
  simp [h1, h2]

/-- An escape with one letter. -/
theorem readString_escape {e d : Char} {s : Text} (h : escapeOf e = some d) :
    ∃ pos', readString start pos ('\\' :: e :: s) =
      (readString start pos' s).map (pushChar d) := by
  refine ⟨(pos.bump '\\').bump e, ?_⟩
  rw [readString.eq_def]
  simp [h]

/-- An escape with two digits. -/
theorem readString_hex {s : Text} (hc : c.toNat < 256) :
    ∃ pos', readString start pos ('\\' :: 'x' :: hexPair c.toNat ++ s) =
      (readString start pos' s).map (pushChar c) := by
  have hhex : hexEscape (pos.bump '\\') (digitChar (c.toNat / 16)) (digitChar (c.toNat % 16)) =
      .ok c := by
    have hread := fromStrRadix_hexPair (2 ^ 32) hc (by norm_num)
    rw [hexPair] at hread
    have hvalid : c.toNat.isValidChar := c.valid
    rw [hexEscape, hread]
    simp [hvalid, Char.ofNat_toNat]
  refine ⟨((((pos.bump '\\').bump 'x').bump (digitChar (c.toNat / 16))).bump
    (digitChar (c.toNat % 16))), ?_⟩
  rw [readString.eq_def]
  simp [escapeOf, hexPair, hhex, bind, Except.bind]

/-- An escaped character is read back. -/
theorem readString_escapeChar (start : Pos) (c : Char) (s : Text) (pos : Pos) :
    ∃ pos', readString start pos (escapeChar c ++ s) =
      (readString start pos' s).map (pushChar c) := by
  unfold escapeChar
  split_ifs with h1 h2 h3 h4 h5 h6 h7
  · exact readString_escape (by rw [h1]; rfl)
  · exact readString_escape (by rw [h2]; rfl)
  · exact readString_escape (by rw [h3]; rfl)
  · exact readString_escape (by rw [h4]; rfl)
  · exact readString_escape (by rw [h5]; rfl)
  · have hc : c = '\x00' := by
      rw [← Char.ofNat_toNat c, h6]
    exact readString_escape (by rw [hc]; rfl)
  · exact readString_hex (by omega)
  · exact ⟨_, readString_plain h2 h1⟩

theorem readString_quoted (start : Pos) (rest : Text) : ∀ (s : Text) (pos : Pos),
    readString start pos (s.flatMap escapeChar ++ '"' :: rest) = .ok (s, rest)
  | [], pos => by
    rw [readString.eq_def]
    simp
  | c :: s, pos => by
    rw [flatMap_cons, append_assoc]
    obtain ⟨pos', hpos⟩ := readString_escapeChar start c (s.flatMap escapeChar ++ '"' :: rest) pos
    rw [hpos, readString_quoted start rest s pos']
    rfl

theorem lexKind_quoted (s rest : Text) (pos : Pos) :
    lexKind pos '"' (s.flatMap escapeChar ++ ['"'] ++ rest) = .ok (.string s, rest) := by
  have hread := readString_quoted pos rest s (pos.bump '"')
  simp [lexKind, singleKind, hread, bind, Except.bind, pure, Except.pure]

theorem Spells.string (s : Text) : Spells (quoteString s) (.string s) false := by
  intro pos rest _
  have hc : isWhitespace '"' = false := by decide
  exact scans_token hc (by simp) (lexKind_quoted s rest pos)

end Univdreams.Ud
