import Univdreams.Decompile.DropBytes

/-!
# Jumps that are relative

The pass that drops bytes and the lowering behind it may encode a jump for different addresses. This
does no harm for a jump over a given distance: the codecs of BPF and of x86 encode distances, and
they encode the same one alike wherever the jump stands, as long as no address overflows.
-/

namespace Univdreams.Decompile

open Arch Run

/-- The jumps of a codec depend on the distance to their target only, while no address overflows.
One that encodes conditions encodes every jump in eight bytes. -/
structure RelativeJumps (arch : ArchCodec) : Prop where
  cond : ∀ {cond_text x y d bytes}, x + d < wordSize → y + d < wordSize →
    arch.encodeCondJump cond_text x (x + d) .default = .ok bytes →
    arch.encodeCondJump cond_text y (y + d) .default = .ok bytes
  cond_slots : ∀ {cond_text x target bytes},
    arch.encodeCondJump cond_text x target .default = .ok bytes →
    bytes.length = 8 ∧ slotSize arch = 8 ∧
      ∀ {y target' jump}, arch.encodeJump y target' .default = .ok jump → jump.length = 8
  jump : ∀ {x y d bytes}, slotSize arch ≤ d → x + d < wordSize → y + d < wordSize →
    arch.encodeJump x (x + d) .default = .ok bytes → arch.encodeJump y (y + d) .default = .ok bytes
  back : ∀ {x y d bytes}, x + d + bytes.length < wordSize → y + d + bytes.length < wordSize →
    arch.encodeJump (x + d) x .default = .ok bytes → arch.encodeJump (y + d) y .default = .ok bytes
  jump_size : ∀ {x}, x + slotSize arch < wordSize →
    arch.encodedJumpSize x x .default = slotSize arch

/-- The distance of a BPF jump in slots does not depend on where the jump is. -/
theorem slotDelta_add (x y : ℕ) (d : ℤ) {a b : ℕ} (ha : (a : ℤ) = x + d) (hb : (b : ℤ) = y + d) :
    Bpf.slotDelta x a = Bpf.slotDelta y b := by
  unfold Bpf.slotDelta wordSize
  congr 1
  omega

/-- The jumps of BPF are relative. -/
theorem relativeJumps_bpf (checks : Bool) (variant : Bpf.BpfVariant) :
    RelativeJumps (Bpf.bpfCodec checks variant) := by
  have hslot : ∀ (x y : ℕ) (d : ℤ) {a b : ℕ}, (a : ℤ) = x + d → (b : ℤ) = y + d →
      Bpf.slotOffset x a = Bpf.slotOffset y b := by
    intro x y d a b ha hb
    unfold Bpf.slotOffset
    rw [slotDelta_add x y d ha hb]
  refine ⟨?_, ?_, ?_, ?_, fun _ => rfl⟩
  · intro cond_text x y d bytes _ _ h
    change Bpf.encodeCondJump checks cond_text x (x + d) = .ok bytes at h
    change Bpf.encodeCondJump checks cond_text y (y + d) = .ok bytes
    unfold Bpf.encodeCondJump at h ⊢
    rwa [hslot y x d (Nat.cast_add y d) (Nat.cast_add x d)]
  · intro cond_text x target bytes h
    obtain ⟨off, parsed, -, -, h⟩ := bind₂_eq_ok.1 h
    refine ⟨Bpf.length_assembleBpf _ h, rfl, fun {y target' jump} h' => ?_⟩
    obtain ⟨off', -, h'⟩ := bind_eq_ok.1 h'
    exact Bpf.length_assembleBpf _ h'
  · intro x y d bytes _ _ _ h
    change Bpf.encodeJump checks x (x + d) = .ok bytes at h
    change Bpf.encodeJump checks y (y + d) = .ok bytes
    unfold Bpf.encodeJump at h ⊢
    rwa [hslot y x d (Nat.cast_add y d) (Nat.cast_add x d)]
  · intro x y d bytes _ _ h
    change Bpf.encodeJump checks (x + d) x = .ok bytes at h
    change Bpf.encodeJump checks (y + d) y = .ok bytes
    unfold Bpf.encodeJump at h ⊢
    have hback : ∀ z : ℕ, (z : ℤ) = (z + d : ℕ) + -(d : ℤ) := fun z => by push_cast; ring
    rwa [hslot (y + d) (x + d) (-d) (hback y) (hback x)]

/-- A displacement is the distance where the end of the branch is an address. -/
theorem displacement_eq {x n a : ℕ} (h : x + n < wordSize) :
    X86.displacement x n a = (a : ℤ) - (x + n : ℕ) := by
  rw [X86.displacement, Nat.mod_eq_of_lt h]

/-- A jump of x86 is short where its displacement fits a byte, and long else. -/
theorem encodeJmp_eq_ok {x a : ℕ} {bytes : Bytes} : X86.encodeJmp x a false = .ok bytes ↔
    (X86.fitsI8 (X86.displacement x 2 a) = true ∧
      bytes = 0xeb :: X86.relBytes 1 (X86.displacement x 2 a)) ∨
    (X86.fitsI8 (X86.displacement x 2 a) = false ∧ X86.fitsI32 (X86.displacement x 5 a) = true ∧
      bytes = 0xe9 :: X86.relBytes 4 (X86.displacement x 5 a)) := by
  have hlong : X86.rel32Branch [0xe9] x a = if X86.fitsI32 (X86.displacement x 5 a) then
      .ok (0xe9 :: X86.relBytes 4 (X86.displacement x 5 a))
    else fail (.outOfRange (.jump x a)) := rfl
  unfold X86.encodeJmp X86.branch
  rw [hlong]
  cases X86.fitsI8 (X86.displacement x 2 a) with
  | true =>
    simp only [Bool.not_false, Bool.true_and, if_true, Except.ok.injEq, reduceCtorEq, false_and,
      or_false, true_and]
    exact eq_comm
  | false =>
    cases X86.fitsI32 (X86.displacement x 5 a) with
    | true =>
      simp only [Bool.and_false, Bool.false_eq_true, if_false, if_true, Except.ok.injEq, false_and,
        false_or, true_and]
      exact eq_comm
    | false => simp [fail]

/-- A jump of x86 over the same distance from another place is the same. -/
theorem encodeJmp_eq_of_displacement {x y a b : ℕ} {bytes : Bytes}
    (h : X86.encodeJmp x a false = .ok bytes)
    (hshort : X86.displacement x 2 a = X86.displacement y 2 b)
    (hlong : X86.fitsI8 (X86.displacement x 2 a) = false → bytes.length = 5 →
      X86.displacement x 5 a = X86.displacement y 5 b) : X86.encodeJmp y b false = .ok bytes := by
  rw [encodeJmp_eq_ok, ← hshort]
  rcases encodeJmp_eq_ok.1 h with hfits | ⟨hfar, hfits, rfl⟩
  · exact .inl hfits
  · have heq := hlong hfar (by simp [X86.relBytes])
    rw [← heq]
    exact .inr ⟨hfar, hfits, rfl⟩

/-- The jumps of x86 are relative. -/
theorem relativeJumps_x86 (p : X86.Platform) (bitness : X86.Bitness) :
    RelativeJumps (X86.x86Codec p bitness) := by
  refine ⟨?_, ?_, ?_, ?_, ?_⟩
  · intro cond_text x y d bytes _ _ h
    cases h
  · intro cond_text x target bytes h
    cases h
  · intro x y d bytes hd hx hy h
    have hd2 : 2 ≤ d := hd
    have hshort : X86.displacement x 2 (x + d) = X86.displacement y 2 (y + d) := by
      rw [displacement_eq (by omega), displacement_eq (by omega)]
      push_cast
      ring
    refine encodeJmp_eq_of_displacement h hshort fun hfar _ => ?_
    -- A long jump leads over more than its own bytes.
    have hd5 : 5 ≤ d := by
      rw [displacement_eq (by omega)] at hfar
      simp only [X86.fitsI8, decide_eq_false_iff_not] at hfar
      push_cast at hfar
      omega
    rw [displacement_eq (by omega), displacement_eq (by omega)]
    push_cast
    ring
  · intro x y d bytes hx hy h
    have hlen : 2 ≤ bytes.length := by
      rcases encodeJmp_eq_ok.1 h with ⟨-, rfl⟩ | ⟨-, -, rfl⟩ <;> simp [X86.relBytes]
    have hshort : X86.displacement (x + d) 2 x = X86.displacement (y + d) 2 y := by
      rw [displacement_eq (by omega), displacement_eq (by omega)]
      push_cast
      ring
    refine encodeJmp_eq_of_displacement h hshort fun _ hlen5 => ?_
    rw [displacement_eq (by omega), displacement_eq (by omega)]
    push_cast
    ring
  · intro x hx
    have hx2 : x + 2 < wordSize := hx
    change X86.branchSize 5 x x false = 2
    have hfits : X86.fitsI8 (X86.displacement x 2 x) = true := by
      rw [displacement_eq hx2]
      simp only [X86.fitsI8, decide_eq_true_eq]
      push_cast
      omega
    rw [X86.branchSize, hfits]
    rfl

end Univdreams.Decompile
