import Univdreams.Bytes

/-!
# Keccak

The permutation Keccak-f[1600] by its five step mappings on a 5×5 array of 64-bit lanes, and the
sponge over it with the padding of the original submission. The offsets of `rho` are the triangular
numbers along the walk that `pi` describes, and the constants of `iota` come from a shift register.
-/

namespace Univdreams.Keccak

open BitVec

/-- A state: the lane at each `x` and `y`, which are counted modulo 5. -/
abbrev Lanes := Fin 5 → Fin 5 → UInt64

/-- A lane, rotated towards the higher bits. -/
def rotl (w : UInt64) (n : ℕ) : UInt64 := ⟨w.toBitVec.rotateLeft n⟩

theorem rotl_zero (w : UInt64) : rotl w 0 = w := by
  rw [rotl, rotateLeft_eq_rotateLeftAux_of_lt (by decide), BitVec.rotateLeftAux,
    shiftLeft_zero, ushiftRight_eq_zero (by decide), or_zero]

/-! ## The step mappings -/

variable (rate : ℕ) (A : Lanes)

/-- The parity of a column. -/
def column (x : Fin 5) : UInt64 := A x 0 ^^^ A x 1 ^^^ A x 2 ^^^ A x 3 ^^^ A x 4

def theta : Lanes := fun x y =>
  A x y ^^^ (column A (x - 1) ^^^ rotl (column A (x + 1)) 1)

/-- The position after `t` steps of the walk from (1, 0). -/
def walk (t : ℕ) : Fin 5 × Fin 5 :=
  (fun p : Fin 5 × Fin 5 => (p.2, 2 * p.1 + 3 * p.2))^[t] (1, 0)

/-- How far `rho` rotates a lane. -/
def rhoOffset (x y : Fin 5) : ℕ :=
  ((List.range 24).find? fun t => walk t = (x, y)).elim 0 fun t => (t + 1) * (t + 2) / 2 % 64

def rho : Lanes := fun x y => rotl (A x y) (rhoOffset x y)

def pi : Lanes := fun x y => A (x + 3 * y) x

def chi : Lanes := fun x y =>
  A x y ^^^ (~~~A (x + 1) y &&& A (x + 2) y)

/-- The shift register with the polynomial `x^8 + x^6 + x^5 + x^4 + 1`, after `t` steps. -/
def register (t : ℕ) : ℕ :=
  (fun r => if r.testBit 7 then (2 * r % 256) ^^^ 0x71 else 2 * r)^[t] 1

/-- The constant of a round: bit `2^j - 1` is output `j + 7 * round` of the register. -/
def roundConstant (round : ℕ) : UInt64 :=
  .ofNat (((List.range 7).map fun j => (register (j + 7 * round) % 2) * 2 ^ (2 ^ j - 1)).sum)

def iota (round : ℕ) (A : Lanes) : Lanes := fun x y =>
  if x = 0 ∧ y = 0 then A x y ^^^ roundConstant round else A x y

/-- One round. -/
def round (i : ℕ) : Lanes := iota i (chi (pi (rho (theta A))))

/-- Keccak-f[1600]. -/
def permute : Lanes := (List.range 24).foldl round A

/-! ## The sponge -/

/-- The lanes of 200 bytes, little-endian. -/
def lanesOf (bytes : Bytes) : Lanes := fun x y =>
  .ofNat (ofLe (window bytes (8 * (x.val + 5 * y.val)) 8))

/-- The bytes of the lanes, row by row. -/
def bytesOf : Bytes :=
  (List.finRange 5).flatMap fun y => (List.finRange 5).flatMap fun x => toLe 8 (A x y).toNat

/-- What fills a block: a bit 1 at both ends, which may be in one byte. -/
def padding : ℕ → Bytes
  | 0 => []
  | 1 => [0x81]
  | n + 2 => 0x01 :: List.replicate n 0 ++ [0x80]

theorem length_padding (n : ℕ) : (padding n).length = n := by
  match n with
  | 0 | 1 => rfl
  | n + 2 => simp [padding]

/-- The message and its padding, which is never empty. -/
def pad (message : Bytes) : Bytes :=
  message ++ padding (rate - message.length % rate)

/-- A block is added to the state, which has a capacity of the bytes behind the rate. -/
def absorb (block : Bytes) : Lanes :=
  permute fun x y => A x y ^^^ lanesOf (block ++ List.replicate (200 - rate) 0) x y

/-- The sponge: the first bytes of the state when all blocks of the padded message are absorbed. -/
def sponge (message : Bytes) (size : ℕ) : Bytes :=
  let padded := pad rate message
  let blocks := (List.range (padded.length / rate)).map fun i => window padded (rate * i) rate
  (bytesOf (blocks.foldl (absorb rate) fun _ _ => 0)).take size

end Univdreams.Keccak
