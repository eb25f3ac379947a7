import Univdreams.Keccak

/-!
# Keccak-256

`src/arch/evm/keccak.rs`: the permutation in place on 25 lanes, with the rotations and the moves of
lanes in tables, and the sponge with a rate of 136 bytes. A lane is at index `x + 5 * y`. Each loop
of a round computes one of the step mappings, or two of them at once.
-/

namespace Univdreams.Evm

open Keccak

/-- `RC`. -/
def roundConstants : List UInt64 :=
  [0x0000000000000001, 0x0000000000008082, 0x800000000000808a, 0x8000000080008000,
   0x000000000000808b, 0x0000000080000001, 0x8000000080008081, 0x8000000000008009,
   0x000000000000008a, 0x0000000000000088, 0x0000000080008009, 0x000000008000000a,
   0x000000008000808b, 0x800000000000008b, 0x8000000000008089, 0x8000000000008003,
   0x8000000000008002, 0x8000000000000080, 0x000000000000800a, 0x800000008000000a,
   0x8000000080008081, 0x8000000000008080, 0x0000000080000001, 0x8000000080008008]

/-- `PILN` and `ROTC`: where the lane in hand goes, and how far it is rotated. -/
def moves : List (ℕ × ℕ) :=
  [10, 7, 11, 17, 18, 3, 5, 16, 8, 21, 24, 4, 15, 23, 19, 13, 12, 2, 20, 14, 22, 9, 6, 1].zip
    [1, 3, 6, 10, 15, 21, 28, 36, 45, 55, 2, 14, 27, 41, 56, 8, 25, 43, 62, 18, 39, 61, 20, 44]

/-- `RATE`. -/
def keccakRate : ℕ := 136

/-- The 25 lanes. -/
abbrev Lanes25 := Vector UInt64 25

variable (st : Lanes25)

/-- The lane at an index. -/
def lane (k : ℕ) : UInt64 := st[k]?.getD 0

/-- The lanes as a loop leaves them. -/
def settle (f : ℕ → UInt64) : Lanes25 := .ofFn fun i => f i

/-- The first two loops of a round. -/
def mixColumns : Lanes25 :=
  let bc := fun i =>
    lane st i ^^^ lane st (i + 5) ^^^ lane st (i + 10) ^^^ lane st (i + 15) ^^^ lane st (i + 20)
  settle ((List.range 5).foldl (fun st i => [0, 5, 10, 15, 20].foldl (fun st j => fun k =>
    if k = j + i then st k ^^^ (bc ((i + 4) % 5) ^^^ rotl (bc ((i + 1) % 5)) 1) else st k) st)
    (lane st))

/-- The third loop: the lanes move along a cycle, with the next one in hand. -/
def moveLanes : Lanes25 :=
  settle (moves.foldl (fun (s : (ℕ → UInt64) × UInt64) m =>
    (fun k => if k = m.1 then rotl s.2 m.2 else s.1 k, s.1 m.1)) (lane st, lane st 1)).1

/-- The last loop. -/
def mixRows : Lanes25 :=
  settle ([0, 5, 10, 15, 20].foldl (fun row j => (List.range 5).foldl (fun st i => fun k =>
    if k = j + i then st k ^^^ (~~~row (j + (i + 1) % 5) &&& row (j + (i + 2) % 5)) else st k) row)
    (lane st))

/-- A round of `keccak_f`. -/
def keccakRound (rc : UInt64) : Lanes25 :=
  let st := mixRows (moveLanes (mixColumns st))
  settle fun k => if k = 0 then lane st k ^^^ rc else lane st k

/-- `keccak_f`. -/
def keccakF : Lanes25 := roundConstants.foldl keccakRound st

/-- `absorb_block`: a block has 17 lanes. -/
def absorbBlock (block : Bytes) : Lanes25 :=
  keccakF (settle fun k =>
    if k < 17 then lane st k ^^^ .ofNat (ofLe (window block (8 * k) 8)) else lane st k)

/-- The last block of `keccak256`. -/
def lastBlock (rem : Bytes) : Bytes :=
  ((rem ++ List.replicate (keccakRate - rem.length) 0).modify rem.length (· ^^^ 0x01)).modify
    (keccakRate - 1) (· ^^^ 0x80)

/-- `keccak256`. -/
def keccak256 (data : Bytes) : Bytes :=
  let n := data.length / keccakRate
  let blocks := (List.range n).map fun i => window data (keccakRate * i) keccakRate
  let st := absorbBlock (blocks.foldl absorbBlock (.replicate 25 0))
    (lastBlock (data.drop (keccakRate * n)))
  (List.range 4).flatMap fun k => toLe 8 (lane st k).toNat

/-! ## The permutation -/

/-- The lanes as an array. -/
def grid : Lanes := fun x y => lane st (x.val + 5 * y.val)

theorem grid_settle (f : ℕ → UInt64) : grid (settle f) = fun x y => f (x.val + 5 * y.val) := by
  funext x y
  have hlt : x.val + 5 * y.val < 25 := by omega
  simp [grid, lane, settle, hlt]

/-- The first two loops are `theta`. -/
theorem grid_mixColumns : grid (mixColumns st) = theta (grid st) := by
  rw [mixColumns, grid_settle]
  unfold grid
  generalize lane st = f
  funext x y
  fin_cases x <;> fin_cases y <;> rfl

/-- The third loop rotates each lane by its offset and puts it where `pi` does. The origin is on no
cycle. -/
theorem grid_moveLanes : grid (moveLanes st) = Keccak.pi (rho (grid st)) := by
  rw [moveLanes, grid_settle]
  unfold grid
  generalize lane st = f
  funext x y
  by_cases h : x = 0 ∧ y = 0
  · obtain ⟨rfl, rfl⟩ := h
    exact (rotl_zero (f 0)).symm
  · fin_cases x <;> fin_cases y <;> first | rfl | exact absurd ⟨rfl, rfl⟩ h

/-- The last loop is `chi`. -/
theorem grid_mixRows : grid (mixRows st) = chi (grid st) := by
  rw [mixRows, grid_settle]
  unfold grid
  generalize lane st = f
  funext x y
  fin_cases x <;> fin_cases y <;> rfl

/-- The table has the constants that the shift register gives. -/
theorem roundConstants_eq : roundConstants = (List.range 24).map roundConstant := by
  decide +kernel

theorem grid_keccakRound (i : ℕ) :
    grid (keccakRound st (Keccak.roundConstant i)) = Keccak.round (grid st) i := by
  rw [Keccak.round, ← grid_mixColumns, ← grid_moveLanes, ← grid_mixRows, keccakRound, grid_settle]
  unfold grid
  generalize lane (mixRows (moveLanes (mixColumns st))) = f
  funext x y
  fin_cases x <;> fin_cases y <;> rfl

theorem grid_keccakF : grid (keccakF st) = permute (grid st) := by
  rw [keccakF, roundConstants_eq, List.foldl_map]
  exact (List.foldl_hom grid fun st i => (grid_keccakRound st i).symm).symm

/-! ## The sponge -/

/-- Only the lanes within the rate are changed by a block. -/
theorem grid_absorbBlock {block : Bytes} (hb : block.length = keccakRate) :
    grid (absorbBlock st block) = absorb keccakRate (grid st) block := by
  rw [absorbBlock, grid_keccakF, grid_settle, absorb]
  congr 1
  funext x y
  simp only [keccakRate] at hb
  simp only [grid, lanesOf, window, keccakRate]
  split_ifs with h
  · rw [List.drop_append_of_le_length (by omega), List.take_append_of_le_length]
    rw [List.length_drop]
    omega
  have hzero : ∀ n, ofLe (List.replicate n 0) = 0 := by
    intro n
    induction n with
    | zero => rfl
    | succ n ih => simp [List.replicate_succ, ofLe, ih]
  rw [List.drop_append, List.drop_eq_nil_of_le (by omega), List.nil_append,
    List.drop_replicate, List.take_replicate, hzero]
  simp

theorem modify_append_cons (l t : Bytes) (b : UInt8) (f : UInt8 → UInt8) :
    (l ++ b :: t).modify l.length f = l ++ f b :: t := by
  induction l with
  | nil => simp
  | cons a l ih => simp [ih]

/-- The two bytes that `keccak256` changes in the last block are the ends of the padding. -/
theorem lastBlock_eq {rem : Bytes} (h : rem.length < keccakRate) :
    lastBlock rem = rem ++ padding (keccakRate - rem.length) := by
  obtain ⟨n, hn⟩ := Nat.exists_eq_add_of_lt h
  have hsize : keccakRate - rem.length = n + 1 := by omega
  rw [lastBlock, hsize, List.replicate_succ, modify_append_cons]
  cases n with
  | zero =>
    rw [show keccakRate - 1 = rem.length by omega]
    exact modify_append_cons rem [] _ _
  | succ n =>
    have hlen : (rem ++ (0 ^^^ 0x01) :: List.replicate n 0).length = keccakRate - 1 := by
      simp
      omega
    rw [← hlen, List.replicate_succ', ← List.cons_append, ← List.append_assoc, modify_append_cons]
    simp [padding]

/-- The state after the whole message. -/
theorem grid_absorbBlocks (blocks : List Bytes) (hb : ∀ b ∈ blocks, b.length = keccakRate)
    (st : Lanes25) : grid (blocks.foldl absorbBlock st) =
      blocks.foldl (absorb keccakRate) (grid st) := by
  induction blocks generalizing st with
  | nil => rfl
  | cons b blocks ih =>
    rw [List.foldl_cons, List.foldl_cons, ih (fun c hc => hb c (by simp [hc])),
      grid_absorbBlock st (hb b (by simp))]

/-- The blocks of the padded message are the whole blocks of the message and the last one. -/
theorem blocks_pad (data : Bytes) : (List.range ((pad keccakRate data).length / keccakRate)).map
        (fun i => window (pad keccakRate data) (keccakRate * i) keccakRate) =
      (List.range (data.length / keccakRate)).map
          (fun i => window data (keccakRate * i) keccakRate) ++
        [lastBlock (data.drop (keccakRate * (data.length / keccakRate)))] := by
  have hpos : 0 < keccakRate := by decide
  have hlt := Nat.mod_lt data.length hpos
  have hdiv := Nat.div_add_mod data.length keccakRate
  have hrem : (data.drop (keccakRate * (data.length / keccakRate))).length =
      data.length % keccakRate := by
    rw [List.length_drop]
    omega
  have hcount : (pad keccakRate data).length / keccakRate =
      data.length / keccakRate + 1 := by
    rw [pad, List.length_append, length_padding,
      show data.length + (keccakRate - data.length % keccakRate) =
        keccakRate * (data.length / keccakRate + 1) by rw [Nat.mul_add]; omega]
    exact Nat.mul_div_cancel_left _ hpos
  rw [hcount, List.range_succ, List.map_append]
  congr 1
  · refine List.map_congr_left fun i hi => ?_
    have hle : keccakRate * (i + 1) ≤ keccakRate * (data.length / keccakRate) :=
      Nat.mul_le_mul_left _ (List.mem_range.1 hi)
    rw [Nat.mul_add] at hle
    rw [window, window, pad, List.drop_append_of_le_length (by omega),
      List.take_append_of_le_length (by rw [List.length_drop]; omega)]
  rw [List.map_singleton, window, pad, List.drop_append_of_le_length (by omega),
    lastBlock_eq (by omega), hrem, List.take_of_length_le]
  rw [List.length_append, hrem, length_padding]
  omega

/-- The digest is the first four lanes of the state. -/
theorem take_bytesOf :
    (bytesOf (grid st)).take 32 = (List.range 4).flatMap fun k => toLe 8 (lane st k).toNat := by
  have hrow : List.finRange 5 = [0, 1, 2, 3, 4] := rfl
  have hlanes : List.range 4 = [0, 1, 2, 3] := rfl
  -- Four lanes of the first row fill the 32 bytes.
  simp [bytesOf, hrow, hlanes, List.take_append, List.take_of_length_le, grid]

/-- Keccak-256 is the sponge with a rate of 1088 bits, for a message of any length. -/
theorem keccak256_eq_sponge (data : Bytes) : keccak256 data = Keccak.sponge 136 data 32 := by
  have hblocks : ∀ b ∈ (List.range (data.length / keccakRate)).map
      (fun i => window data (keccakRate * i) keccakRate), b.length = keccakRate := by
    simp only [List.mem_map, List.mem_range]
    rintro b ⟨i, hi, rfl⟩
    have hle : keccakRate * (i + 1) ≤ data.length :=
      (Nat.mul_le_mul_left _ hi).trans (Nat.mul_div_le _ _)
    exact length_window (by rw [Nat.mul_add] at hle; omega)
  have hlast : (lastBlock (data.drop (keccakRate * (data.length / keccakRate)))).length =
      keccakRate := by
    have hlt := Nat.mod_lt data.length (show 0 < keccakRate by decide)
    have hdiv := Nat.div_add_mod data.length keccakRate
    simp only [lastBlock, List.length_modify, List.length_append, List.length_replicate,
      List.length_drop]
    omega
  change keccak256 data = Keccak.sponge keccakRate data 32
  rw [Keccak.sponge, blocks_pad, List.foldl_append, List.foldl_cons, List.foldl_nil]
  have hzero : (fun _ _ => 0 : Lanes) = grid (.replicate 25 0) := by
    funext x y
    have hlt : x.val + 5 * y.val < 25 := by omega
    simp [grid, lane, hlt]
  rw [hzero, ← grid_absorbBlocks _ hblocks, ← grid_absorbBlock _ hlast, take_bytesOf, keccak256]

end Univdreams.Evm
