import Univdreams.Bytes

/-!
# Programs that may panic

A program with a state ends normally, with an error or with a panic; in each case it leaves a state
behind. `Wp m s Q` says that `m` does not panic from `s` and that `Q` holds if it ends normally. The
rules for it are equivalences, so that a proof about a program follows its text.

The second half is the arithmetic of machine words as a compiled program does it. An operation whose
result does not fit panics if overflow is checked and wraps if it is not. A division by zero panics
in both cases, and so does the one signed division whose quotient does not fit.
-/

namespace Univdreams

variable {a b : ℕ}

/-- A program over the state `σ` that may fail with an error `ε` or panic. -/
abbrev Prog (ε σ α : Type) := EStateM (Fault ε) σ α

namespace Prog

variable {ε σ α β : Type}

/-- The program that panics. -/
def panic : Prog ε σ α := throw .panic

/-- The program that fails. -/
def trap (e : ε) : Prog ε σ α := throw (.err e)

/-- A computation without a state. -/
def ofExcept : Except ε α → Prog ε σ α
  | .ok a => pure a
  | .error e => trap e

variable (m : Prog ε σ α)

/-- From `s` the program panics. -/
def Panics (s : σ) : Prop := ∃ s', m s = .error .panic s'

/-- From `s` the program does not panic, and `Q` holds of what it returns. -/
def Wp (s : σ) (Q : α → σ → Prop) : Prop :=
  match m s with
  | .ok a s' => Q a s'
  | .error (.err _) _ => True
  | .error .panic _ => False

/-- A sequence of computations without a state returns a value exactly when both do. -/
theorem except_bind_eq_ok {x : Except ε α} {f : α → Except ε β} {b : β} :
    x >>= f = .ok b ↔ ∃ a, x = .ok a ∧ f a = .ok b := by
  cases x with
  | error e => simp [bind, Except.bind]
  | ok a => simp [bind, Except.bind]

/-! ## Rules -/

section Rules

variable {m : Prog ε σ α} {f : α → Prog ε σ β} {s : σ} {Q R : α → σ → Prop}

@[simp] theorem wp_pure (a : α) : Wp (pure a : Prog ε σ α) s Q ↔ Q a s := Iff.rfl

@[simp] theorem wp_bind {Q : β → σ → Prop} :
    Wp (m >>= f) s Q ↔ Wp m s fun a s' => Wp (f a) s' Q := by
  simp only [Wp, bind, EStateM.bind]
  rcases m s with ⟨a, s'⟩ | ⟨e, s'⟩
  · rfl
  · cases e <;> rfl

@[simp] theorem wp_map (g : α → β) (Q : β → σ → Prop) :
    Wp (g <$> m) s Q ↔ Wp m s fun a s' => Q (g a) s' := by
  rw [map_eq_pure_bind, wp_bind]
  rfl

@[simp] theorem wp_get (Q : σ → σ → Prop) : Wp (get : Prog ε σ σ) s Q ↔ Q s s := Iff.rfl

@[simp] theorem wp_modify (g : σ → σ) (Q : PUnit → σ → Prop) :
    Wp (modify g : Prog ε σ PUnit) s Q ↔ Q ⟨⟩ (g s) := Iff.rfl

@[simp] theorem wp_trap (e : ε) : Wp (trap e : Prog ε σ α) s Q ↔ True := Iff.rfl

@[simp] theorem wp_ite {c : Prop} [Decidable c] (m' : Prog ε σ α) :
    Wp (if c then m else m') s Q ↔ (c → Wp m s Q) ∧ (¬c → Wp m' s Q) := by
  split <;> simp_all

theorem wp_ofExcept {x : Except ε α} :
    Wp (ofExcept x : Prog ε σ α) s Q ↔ ∀ a, x = .ok a → Q a s := by
  cases x with
  | ok a => exact ⟨fun h b hb => Except.ok.inj hb ▸ h, fun h => h a rfl⟩
  | error e => exact iff_of_true trivial fun a ha => by cases ha

theorem Wp.mono (h : Wp m s Q) (hQ : ∀ a s', Q a s' → R a s') : Wp m s R := by
  unfold Wp at h ⊢
  rcases hm : m s with ⟨a, s'⟩ | ⟨e | -, s'⟩
  · rw [hm] at h
    exact hQ a s' h
  · trivial
  · rw [hm] at h
    exact h

/-- What holds of a program that ends normally. -/
theorem Wp.of_ok (h : Wp m s Q) {a : α} {s' : σ} (hm : m s = .ok a s') : Q a s' := by
  unfold Wp at h
  rwa [hm] at h

theorem not_panics_iff : ¬Panics m s ↔ Wp m s fun _ _ => True := by
  unfold Panics Wp
  rcases m s with ⟨a, s'⟩ | ⟨e | -, s'⟩ <;> simp

theorem Wp.not_panics (h : Wp m s Q) : ¬Panics m s :=
  not_panics_iff.2 (h.mono fun _ _ _ => trivial)

/-- A program whose first part does not panic panics where the rest does. -/
theorem panics_bind (h : Wp m s Q) :
    Panics (m >>= f) s ↔ ∃ a s', m s = .ok a s' ∧ Panics (f a) s' := by
  have hnot := h.not_panics
  unfold Panics at hnot ⊢
  simp only [bind, EStateM.bind]
  rcases hm : m s with ⟨a, s'⟩ | ⟨e | -, s'⟩
  · simp
  · simp
  · exact absurd ⟨s', hm⟩ hnot

theorem panics_pure (a : α) : ¬Panics (pure a : Prog ε σ α) s := by
  rintro ⟨s', h⟩
  cases h

theorem panics_panic : Panics (panic : Prog ε σ α) s := ⟨s, rfl⟩

theorem panics_trap (e : ε) : ¬Panics (trap e : Prog ε σ α) s := by
  rintro ⟨s', h⟩
  cases h

end Rules

/-! ## Programs that never panic -/

/-- A program that panics from no state. -/
def Safe : Prop := ∀ s, Wp m s fun _ _ => True

section Safe

variable {m : Prog ε σ α} {f : α → Prog ε σ β} {s : σ}

theorem Safe.not_panics (h : Safe m) (s : σ) : ¬Panics m s := (h s).not_panics

theorem Safe.bind (h : Safe m) (hf : ∀ a, Safe (f a)) : Safe (m >>= f) := fun s =>
  wp_bind.2 ((h s).mono fun a s' _ => hf a s')

/-- A sequence whose second part relies on what the first one returns. -/
theorem Safe.bind_of {P : α → Prop} (h : ∀ s, Wp m s fun a _ => P a) (hf : ∀ a, P a → Safe (f a)) :
    Safe (m >>= f) := fun s => wp_bind.2 ((h s).mono fun a s' ha => hf a ha s')

theorem safe_pure (a : α) : Safe (pure a : Prog ε σ α) := fun _ => trivial

theorem safe_trap (e : ε) : Safe (trap e : Prog ε σ α) := fun _ => trivial

theorem safe_ite {c : Prop} [Decidable c] {m' : Prog ε σ α} (h : c → Safe m) (h' : ¬c → Safe m') :
    Safe (if c then m else m') := by
  split
  · exact h ‹_›
  · exact h' ‹_›

/-- A program whose second part never panics panics where the first one does. -/
theorem panics_bind_left (h : ∀ a, Safe (f a)) : Panics (m >>= f) s ↔ Panics m s := by
  rw [← not_iff_not, not_panics_iff, not_panics_iff, wp_bind]
  exact ⟨fun hm => hm.mono fun _ _ _ => trivial, fun hm => hm.mono fun a s' _ => h a s'⟩

theorem panics_bind_pure (b : β) : Panics (m >>= fun _ => pure b) s ↔ Panics m s :=
  panics_bind_left fun _ => safe_pure b

end Safe

/-! ## Arithmetic of machine words -/

section Words

variable (checks : Bool) {w : ℕ}

/-- What an operation gives whose result `x` does not fit, where `wrapped` is what is left of it. -/
def overflow (wrapped : α) : Prog ε σ α := if checks then panic else pure wrapped

/-- `a - b` on `w` bits. -/
def subNat (w a b : ℕ) : Prog ε σ ℕ :=
  if b ≤ a then pure (a - b) else overflow checks ((a + 2 ^ w - b) % 2 ^ w)

/-- `a * b` on `w` bits without a sign. -/
def mulNat (w a b : ℕ) : Prog ε σ ℕ :=
  if a * b < 2 ^ w then pure (a * b) else overflow checks (a * b % 2 ^ w)

/-- `a * b` on `w` bits with a sign. -/
def mulInt (w : ℕ) (a b : ℤ) : Prog ε σ ℤ :=
  if -2 ^ (w - 1) ≤ a * b ∧ a * b < 2 ^ (w - 1) then pure (a * b)
  else overflow checks (Int.bmod (a * b) (2 ^ w))

/-- `x << n`. -/
def shl (x : BitVec w) (n : ℕ) : Prog ε σ (BitVec w) :=
  if n < w then pure (x <<< n) else overflow checks (x <<< (n % w))

/-- `x >> n`, for a word without a sign. -/
def shr (x : BitVec w) (n : ℕ) : Prog ε σ (BitVec w) :=
  if n < w then pure (x >>> n) else overflow checks (x >>> (n % w))

/-- `x >> n`, for a word with a sign. -/
def sshr (x : BitVec w) (n : ℕ) : Prog ε σ (BitVec w) :=
  if n < w then pure (x.sshiftRight n) else overflow checks (x.sshiftRight (n % w))

/-- Whether `a / b` panics on `w` bits with a sign. -/
def DivOverflows (w : ℕ) (a b : ℤ) : Prop := b = 0 ∨ a = -2 ^ (w - 1) ∧ b = -1

instance (w : ℕ) (a b : ℤ) : Decidable (DivOverflows w a b) :=
  inferInstanceAs (Decidable (_ ∨ _))

/-- `a / b` on `w` bits with a sign. -/
def divInt (w : ℕ) (a b : ℤ) : Prog ε σ ℤ :=
  if DivOverflows w a b then panic else pure (a.tdiv b)

/-- `a % b` on `w` bits with a sign. -/
def remInt (w : ℕ) (a b : ℤ) : Prog ε σ ℤ :=
  if DivOverflows w a b then panic else pure (a.tmod b)

/-- `a / b` without a sign. -/
def divNat (a b : ℕ) : Prog ε σ ℕ := if b = 0 then panic else pure (a / b)

/-- `a % b` without a sign. -/
def remNat (a b : ℕ) : Prog ε σ ℕ := if b = 0 then panic else pure (a % b)

variable {checks} {s : σ} {Q : ℕ → σ → Prop}

theorem wp_subNat (h : b ≤ a) : Wp (subNat checks w a b : Prog ε σ ℕ) s Q ↔ Q (a - b) s := by
  rw [subNat, if_pos h, wp_pure]

theorem wp_mulNat (h : a * b < 2 ^ w) :
    Wp (mulNat checks w a b : Prog ε σ ℕ) s Q ↔ Q (a * b) s := by
  rw [mulNat, if_pos h, wp_pure]

theorem wp_mulInt {a b : ℤ} (h : -2 ^ (w - 1) ≤ a * b ∧ a * b < 2 ^ (w - 1)) {Q : ℤ → σ → Prop} :
    Wp (mulInt checks w a b : Prog ε σ ℤ) s Q ↔ Q (a * b) s := by
  rw [mulInt, if_pos h, wp_pure]

theorem wp_shl {x : BitVec w} {n : ℕ} (h : n < w) {Q : BitVec w → σ → Prop} :
    Wp (shl checks x n : Prog ε σ (BitVec w)) s Q ↔ Q (x <<< n) s := by
  rw [shl, if_pos h, wp_pure]

theorem wp_shr {x : BitVec w} {n : ℕ} (h : n < w) {Q : BitVec w → σ → Prop} :
    Wp (shr checks x n : Prog ε σ (BitVec w)) s Q ↔ Q (x >>> n) s := by
  rw [shr, if_pos h, wp_pure]

theorem wp_sshr {x : BitVec w} {n : ℕ} (h : n < w) {Q : BitVec w → σ → Prop} :
    Wp (sshr checks x n : Prog ε σ (BitVec w)) s Q ↔ Q (x.sshiftRight n) s := by
  rw [sshr, if_pos h, wp_pure]

theorem wp_divInt {a b : ℤ} (h : ¬DivOverflows w a b) {Q : ℤ → σ → Prop} :
    Wp (divInt w a b : Prog ε σ ℤ) s Q ↔ Q (a.tdiv b) s := by
  rw [divInt, if_neg h, wp_pure]

theorem wp_remInt {a b : ℤ} (h : ¬DivOverflows w a b) {Q : ℤ → σ → Prop} :
    Wp (remInt w a b : Prog ε σ ℤ) s Q ↔ Q (a.tmod b) s := by
  rw [remInt, if_neg h, wp_pure]

theorem wp_divNat (h : b ≠ 0) : Wp (divNat a b : Prog ε σ ℕ) s Q ↔ Q (a / b) s := by
  rw [divNat, if_neg h, wp_pure]

theorem wp_remNat (h : b ≠ 0) : Wp (remNat a b : Prog ε σ ℕ) s Q ↔ Q (a % b) s := by
  rw [remNat, if_neg h, wp_pure]

end Words

end Prog

end Univdreams
