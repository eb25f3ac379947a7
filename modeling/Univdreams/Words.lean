import Mathlib

/-!
# 64-bit words as natural numbers

The machine integers of the source are natural numbers here, and the operations whose result
depends on the width of the word say so: the checked ones return `none` on an overflow, and the
saturating ones stop at the ends of the range.
-/

namespace Univdreams

/-- The number of values of a 64-bit word. -/
def wordSize : ℕ := 2 ^ 64

/-- `a.checked_add(b)`. -/
def checkedAdd (a b : ℕ) : Option ℕ := if a + b < wordSize then some (a + b) else none

/-- `a.checked_mul(b)`. -/
def checkedMul (a b : ℕ) : Option ℕ := if a * b < wordSize then some (a * b) else none

/-- The result `n` of a plain operation on a type with `size` values: an overflow panics or wraps,
as the build decides. -/
def checkOverflow (checks : Bool) (size n : ℕ) : Option ℕ :=
  if n < size then some n else if checks then none else some (n % size)

/-- `a + b` on 64-bit words. -/
def addWord (checks : Bool) (a b : ℕ) : Option ℕ :=
  checkOverflow checks wordSize (a + b)

/-- `-x` on signed 64-bit words, which overflows on the least one. -/
def negI64 (checks : Bool) (x : ℤ) : Option ℤ :=
  if x = -2 ^ 63 then if checks then none else some x else some (-x)

/-- `a.checked_add(b)` on signed 64-bit words. -/
def checkedAddI64 (a b : ℤ) : Option ℤ :=
  if -2 ^ 63 ≤ a + b ∧ a + b < 2 ^ 63 then some (a + b) else none

/-- `a.saturating_add(b)`. -/
def saturatingAdd (a b : ℕ) : ℕ := min (a + b) (wordSize - 1)

/-- `a.saturating_add_signed(d)`. -/
def saturatingAddSigned (a : ℕ) (d : ℤ) : ℕ := min (a + d).toNat (wordSize - 1)

theorem checkedAdd_eq_some {a b c : ℕ} :
    checkedAdd a b = some c ↔ a + b < wordSize ∧ c = a + b := by
  unfold checkedAdd
  split_ifs with h <;> simp [h, eq_comm]

theorem checkedMul_eq_some {a b c : ℕ} :
    checkedMul a b = some c ↔ a * b < wordSize ∧ c = a * b := by
  unfold checkedMul
  split_ifs with h <;> simp [h, eq_comm]

/-- A saturating sum is the sum where that is a word. -/
theorem saturatingAdd_of_lt {a b : ℕ} (h : a + b < wordSize) : saturatingAdd a b = a + b := by
  unfold saturatingAdd
  omega

/-- Adding nothing does not change a word. -/
@[simp] theorem saturatingAddSigned_zero {a : ℕ} (h : a < wordSize) :
    saturatingAddSigned a 0 = a := by
  unfold saturatingAddSigned
  simp
  omega

/-- A saturating signed sum is the sum, cut off at zero, where that is a word. -/
theorem saturatingAddSigned_of_lt {a : ℕ} {d : ℤ} (h : a + d < wordSize) :
    saturatingAddSigned a d = (a + d).toNat := by
  unfold saturatingAddSigned
  omega

/-- A sum that is a word does not overflow. -/
theorem addWord_of_lt {checks : Bool} {a b : ℕ} (h : a + b < wordSize) :
    addWord checks a b = some (a + b) := if_pos h

/-- A sum of words is a word, and the sum or what is left of it behind one overflow. -/
theorem addWord_eq_some {checks : Bool} {a b c : ℕ} (ha : a < wordSize) (hb : b < wordSize)
    (h : addWord checks a b = some c) : c < wordSize ∧
      (a + b = c ∨ checks = false ∧ a + b = c + wordSize) := by
  unfold addWord checkOverflow at h
  split_ifs at h with hlt hchecks
  · obtain rfl := Option.some.inj h
    exact ⟨hlt, .inl rfl⟩
  obtain rfl := Option.some.inj h
  have hmod : (a + b) % wordSize = a + b - wordSize := by
    rw [Nat.mod_eq_sub_mod (by omega), Nat.mod_eq_of_lt (by omega)]
  exact ⟨by omega, .inr ⟨by simpa using hchecks, by omega⟩⟩

/-- A sum of words exists unless it overflows in a build that checks for that. -/
theorem isSome_addWord {checks : Bool} {a b : ℕ} :
    (addWord checks a b).isSome ↔ (checks = true → a + b < wordSize) := by
  unfold addWord checkOverflow
  cases checks <;> split_ifs with h <;> simp_all

end Univdreams
