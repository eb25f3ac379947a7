import Univdreams.Bytes

/-!
# Big-endian bytes

Numbers as big-endian bytes, and the bytes of a number without its leading zeros.
-/

namespace Univdreams

open List

/-- A number as `n` big-endian bytes, without the bytes that do not fit. -/
def toBe (n v : ℕ) : Bytes := (toLe n v).reverse

variable (bs : Bytes)

/-- The number that big-endian bytes represent. -/
def ofBe : ℕ := ofLe bs.reverse

/-- The bytes without leading zeros. -/
def stripZeros (bytes : Bytes) : Bytes := bytes.dropWhile (· == 0)

@[simp] theorem length_toBe (n v : ℕ) : (toBe n v).length = n := by
  simp [toBe]

/-- Reading back the big-endian bytes of a number loses what does not fit. -/
theorem ofBe_toBe (n v : ℕ) : ofBe (toBe n v) = v % 256 ^ n := by
  simp [ofBe, toBe, ofLe_toLe]

/-- Writing back the number of big-endian bytes at their length gives the bytes. -/
theorem toBe_ofBe : toBe bs.length (ofBe bs) = bs := by
  have h := toLe_ofLe bs.reverse
  rw [length_reverse] at h
  rw [toBe, ofBe, h, reverse_reverse]

theorem ofBe_lt : ofBe bs < 256 ^ bs.length := by
  simpa [ofBe] using ofLe_lt bs.reverse

@[simp] theorem ofBe_nil : ofBe [] = 0 := rfl

/-- The value of bytes that end in `b`. -/
theorem ofBe_concat (b : UInt8) : ofBe (bs ++ [b]) = 256 * ofBe bs + b.toNat := by
  simp [ofBe, ofLe, Nat.add_comm]

/-- The value of bytes in two parts. -/
theorem ofBe_append (as bs : Bytes) : ofBe (as ++ bs) = ofBe as * 256 ^ bs.length + ofBe bs := by
  induction bs using reverseRecOn with
  | nil => simp
  | append_singleton bs b ih =>
    rw [← append_assoc, ofBe_concat, ofBe_concat, ih, length_append]
    simp only [length_singleton, Nat.pow_succ]
    ring

/-- A leading zero byte adds nothing. -/
theorem ofBe_zero_cons : ofBe (0 :: bs) = ofBe bs := by
  induction bs using reverseRecOn with
  | nil => rfl
  | append_singleton bs b ih => rw [← cons_append, ofBe_concat, ofBe_concat, ih]

theorem ofBe_cons (b : UInt8) (bs : Bytes) :
    ofBe (b :: bs) = b.toNat * 256 ^ bs.length + ofBe bs := by
  have h := ofBe_append [b] bs
  simpa [ofBe, ofLe] using h

/-- The bytes without leading zeros represent the same number. -/
theorem ofBe_stripZeros : ofBe (stripZeros bs) = ofBe bs := by
  induction bs with
  | nil => rfl
  | cons b bs ih =>
    by_cases hb : b = 0
    · subst hb
      rw [ofBe_zero_cons, ← ih]
      rfl
    have hkeep : stripZeros (b :: bs) = b :: bs := by
      simp [stripZeros, hb]
    rw [hkeep]

/-- Bytes without leading zeros are no longer than their number needs. -/
theorem length_stripZeros_le {bs : Bytes} {k : ℕ} (h : ofBe bs < 256 ^ k) :
    (stripZeros bs).length ≤ k := by
  induction bs with
  | nil => simp [stripZeros]
  | cons b bs ih =>
    by_cases hb : b = 0
    · subst hb
      rw [ofBe_zero_cons] at h
      exact ih h
    have hkeep : stripZeros (b :: bs) = b :: bs := by simp [stripZeros, hb]
    rw [hkeep, length_cons]
    by_contra hlen
    have hpow : 256 ^ k ≤ 256 ^ bs.length := Nat.pow_le_pow_right (by decide) (by omega)
    have hpos : 0 < b.toNat := by
      rw [Nat.pos_iff_ne_zero, ne_eq, ← UInt8.toNat_zero, UInt8.toNat_inj]
      exact hb
    rw [ofBe_cons] at h
    have hmul : 256 ^ bs.length ≤ b.toNat * 256 ^ bs.length := Nat.le_mul_of_pos_left _ hpos
    omega

end Univdreams
