import Univdreams.Text

/-!
# Numerals

Reading back the numbers that the formatting writes. `ofDigitChars radix acc s` reads the digits `s`
behind a number `acc` that is already read; the lemmas say how it composes, and that it inverts the
digits of `Nat.digits`, for every radix up to 16.
-/

namespace Univdreams.Text

open Option List

variable {radix : ℕ}

/-- Reading two parts one after the other. -/
theorem ofDigitChars_append (radix acc : ℕ) (s t : Text) :
    ofDigitChars radix acc (s ++ t) =
      (ofDigitChars radix acc s).bind fun a => ofDigitChars radix a t := by
  induction s generalizing acc with
  | nil => rfl
  | cons c cs ih =>
    simp only [cons_append, ofDigitChars]
    cases toDigit radix c with
    | none => rfl
    | some d => exact ih _

/-- What is read already only shifts the result. -/
theorem ofDigitChars_acc {s : Text} {v : ℕ} (h : ofDigitChars radix 0 s = some v) (acc : ℕ) :
    ofDigitChars radix acc s = some (acc * radix ^ s.length + v) := by
  induction s using reverseRecOn generalizing v with
  | nil =>
    cases h
    simp [ofDigitChars]
  | append_singleton s c ih =>
    rw [ofDigitChars_append] at h ⊢
    obtain ⟨a, ha, h⟩ := bind_eq_some_iff.1 h
    rw [ih ha]
    simp only [ofDigitChars, bind_eq_bind, bind_eq_some_iff, Option.some.injEq] at h
    obtain ⟨d, hd, rfl⟩ := h
    simp only [bind_some, ofDigitChars, hd, bind_eq_bind, length_append,
      length_singleton, Nat.pow_succ, Option.some.injEq]
    ring

/-- Every character of a numeral is a digit. -/
theorem isSome_toDigit_of_ofDigitChars {acc : ℕ} {s : Text} {v : ℕ}
    (h : ofDigitChars radix acc s = some v) : ∀ c ∈ s, (toDigit radix c).isSome := by
  induction s generalizing acc with
  | nil => simp
  | cons c cs ih =>
    simp only [ofDigitChars, bind_eq_bind, bind_eq_some_iff] at h
    obtain ⟨d, hd, h⟩ := h
    intro x hx
    rcases mem_cons.1 hx with rfl | hx
    · simp [hd]
    · exact ih h x hx

/-- A digit has its value. -/
theorem toDigit_digitChar {d : ℕ} (hd : d < radix) (hr : radix ≤ 16) :
    toDigit radix (digitChar d) = some d := by
  have all : ∀ r : Fin 17, ∀ d : Fin 16, d.val < r.val →
      toDigit r (digitChar d) = some d.val := by decide +kernel
  exact all ⟨radix, by omega⟩ ⟨d, by omega⟩ hd

/-- Digits, the least significant first, are read back from their numeral. -/
theorem ofDigitChars_digits (hr : radix ≤ 16) :
    ∀ L : List ℕ, (∀ d ∈ L, d < radix) →
      ofDigitChars radix 0 (L.map digitChar).reverse = some (Nat.ofDigits radix L)
  | [], _ => rfl
  | d :: L, h => by
    have hL := ofDigitChars_digits hr L fun x hx => h x (mem_cons_of_mem d hx)
    have hd := toDigit_digitChar (h d (by simp)) hr
    rw [map_cons, reverse_cons, ofDigitChars_append, hL]
    simp only [bind_some, ofDigitChars, hd, bind_eq_bind, Nat.ofDigits_cons, Option.some.injEq]
    ring

variable (n : ℕ)

/-- A hexadecimal number is read back. -/
theorem ofDigitChars_toHex : ofDigitChars 16 0 (toHex n) = some n := by
  unfold toHex
  split_ifs with h
  · subst h
    rfl
  · rw [ofDigitChars_digits le_rfl _ fun d hd => Nat.digits_lt_base (by decide) hd,
      Nat.ofDigits_digits]

/-- A decimal number is read back. -/
theorem ofDigitChars_toDec : ofDigitChars 10 0 (toDec n) = some n := by
  unfold toDec
  split_ifs with h
  · subst h
    rfl
  · rw [ofDigitChars_digits (by decide) _ fun d hd => Nat.digits_lt_base (by decide) hd,
      Nat.ofDigits_digits]

theorem toHex_ne_nil : toHex n ≠ [] := by
  unfold toHex
  split_ifs with h
  · simp
  · simpa [Nat.digits_eq_nil_iff_eq_zero] using h

theorem toDec_ne_nil : toDec n ≠ [] := by
  unfold toDec
  split_ifs with h
  · simp
  · simpa [Nat.digits_eq_nil_iff_eq_zero] using h

/-- Leading zeros do not change a number. -/
theorem ofDigitChars_zeros (hr : 0 < radix) (k : ℕ) (s : Text) :
    ofDigitChars radix 0 (replicate k '0' ++ s) = ofDigitChars radix 0 s := by
  induction k with
  | zero => rfl
  | succ k ih =>
    have hzero : toDigit radix '0' = some 0 := by
      simp [toDigit, hr]
    simp only [replicate_succ, cons_append, ofDigitChars, hzero, bind_eq_bind,
      bind_some, Nat.zero_mul, Nat.add_zero]
    exact ih

/-! ## The characters of a numeral -/

theorem toNat_le_of_le {c d : Char} (h : c ≤ d) : c.toNat ≤ d.toNat := h

/-- A letter or a digit of ASCII. -/
def IsWordChar (c : Char) : Prop :=
  48 ≤ c.toNat ∧ c.toNat ≤ 57 ∨ 65 ≤ c.toNat ∧ c.toNat ≤ 90 ∨ 97 ≤ c.toNat ∧ c.toNat ≤ 122

theorem isWordChar_of_toDigit {c : Char} (h : (toDigit radix c).isSome) : IsWordChar c := by
  by_cases h1 : '0' ≤ c ∧ c ≤ '9'
  · exact .inl ⟨toNat_le_of_le h1.1, toNat_le_of_le h1.2⟩
  by_cases h2 : 'a' ≤ c ∧ c ≤ 'z'
  · exact .inr (.inr ⟨toNat_le_of_le h2.1, toNat_le_of_le h2.2⟩)
  by_cases h3 : 'A' ≤ c ∧ c ≤ 'Z'
  · exact .inr (.inl ⟨toNat_le_of_le h3.1, toNat_le_of_le h3.2⟩)
  simp [toDigit, if_neg h1, if_neg h2, if_neg h3] at h

/-- Digits are ASCII characters. -/
theorem toNat_lt_of_toDigit {c : Char} (h : (toDigit radix c).isSome) : c.toNat < 128 := by
  have hword := isWordChar_of_toDigit h
  unfold IsWordChar at hword
  omega

theorem isWordChar_toHex : ∀ c ∈ toHex n, IsWordChar c := fun c hc =>
  isWordChar_of_toDigit (isSome_toDigit_of_ofDigitChars (ofDigitChars_toHex n) c hc)

theorem isWordChar_toDec : ∀ c ∈ toDec n, IsWordChar c := fun c hc =>
  isWordChar_of_toDigit (isSome_toDigit_of_ofDigitChars (ofDigitChars_toDec n) c hc)

/-- The digits of a numeral hold no separator and no sign. -/
theorem toDigit_ne {c : Char} (h : (toDigit radix c).isSome) : c ≠ '_' ∧ c ≠ '+' := by
  constructor <;> rintro rfl <;> simp [toDigit] at h

theorem fromStrRadix_of_ofDigitChars {limit n : ℕ} {ds : Text} (hne : ds ≠ [])
    (h : ofDigitChars radix 0 ds = some n) (hn : n < limit) :
    fromStrRadix limit radix ds = some n := by
  have hdigits := Text.isSome_toDigit_of_ofDigitChars h
  obtain ⟨d, ds, rfl⟩ := exists_cons_of_ne_nil hne
  have hplus : d ≠ '+' := (toDigit_ne (hdigits d (by simp))).2
  unfold fromStrRadix
  split
  · rename_i cs heq
    cases heq
    exact absurd rfl hplus
  · simp [h, hn]

end Univdreams.Text
