import Univdreams.BigEndian

/-!
# A stack machine with 256-bit words

The part of the Ethereum virtual machine that straight-line code uses: arithmetic on 256-bit words,
reads of the surroundings of a call, byte-addressed memory, Keccak, and the instructions that push,
duplicate and exchange stack items. An opcode outside it stops the machine with `Halt.unsupported`.

The results of this module say how code composes. `Executes w c s t` means that the code `c`, placed
anywhere in a contract, takes the frame `s` to the frame `t`, unless the stack outgrows its limit on
the way. `Executes.trans` puts two pieces of code after each other, each instruction has its own
rule, and `Executes.run_of_room` removes the exception for a stack with enough room.
-/

namespace Univdreams.Evm

open List Option

variable {n : ℕ}

/-- A stack item. -/
abbrev Word := BitVec 256

/-- The result of a comparison as a word. -/
def truth (b : Bool) : Word := if b then 1 else 0

/-- The low byte of the `i`-th byte from the left. -/
def byteAt (i a : Word) : Word :=
  if i.toNat < 32 then (a >>> (8 * (31 - i.toNat))) &&& 0xff else 0

/-- `a` with the sign bit of its byte `k`, counted from the right, copied to the left. -/
def signExtend (k a : Word) : Word :=
  if k.toNat < 31 then (a.setWidth (8 * (k.toNat + 1))).signExtend 256 else a

/-- The instructions with one operand. -/
def unary : UInt8 → Option (Word → Word)
  | 0x15 => some fun a => truth (a == 0)
  | 0x19 => some fun a => ~~~a
  | 0x1e => some fun a => a.clz
  | _ => none

/-- The instructions with two operands, the first of them on top of the stack. -/
def binary : UInt8 → Option (Word → Word → Word)
  | 0x01 => some fun a b => a + b
  | 0x02 => some fun a b => a * b
  | 0x03 => some fun a b => a - b
  | 0x04 => some fun a b => a / b
  | 0x05 => some fun a b => a.sdiv b
  | 0x06 => some fun a b => if b = 0 then 0 else a % b
  | 0x07 => some fun a b => if b = 0 then 0 else a.srem b
  | 0x0a => some fun a b => BitVec.ofNat 256 (a.toNat ^ b.toNat)
  | 0x0b => some signExtend
  | 0x10 => some fun a b => truth (a.ult b)
  | 0x11 => some fun a b => truth (b.ult a)
  | 0x12 => some fun a b => truth (a.slt b)
  | 0x13 => some fun a b => truth (b.slt a)
  | 0x14 => some fun a b => truth (a == b)
  | 0x16 => some fun a b => a &&& b
  | 0x17 => some fun a b => a ||| b
  | 0x18 => some fun a b => a ^^^ b
  | 0x1a => some byteAt
  | 0x1b => some fun a b => b <<< a.toNat
  | 0x1c => some fun a b => b >>> a.toNat
  | 0x1d => some fun a b => b.sshiftRight a.toNat
  | _ => none

/-- The instructions with three operands. -/
def ternary : UInt8 → Option (Word → Word → Word → Word)
  | 0x08 => some fun a b n => BitVec.ofNat 256 (if n = 0 then 0 else (a.toNat + b.toNat) % n.toNat)
  | 0x09 => some fun a b n => BitVec.ofNat 256 (if n = 0 then 0 else (a.toNat * b.toNat) % n.toNat)
  | _ => none

/-- The opcodes that read the surroundings of a call, with the number of their operands:
environment, block, call data, and storage and accounts, which straight-line code does not
change. -/
def reads : UInt8 → Option ℕ
  | 0x30 | 0x32 | 0x33 | 0x34 | 0x36 | 0x38 | 0x3a | 0x3d => some 0
  | 0x41 | 0x42 | 0x43 | 0x44 | 0x45 | 0x46 | 0x47 | 0x48 | 0x4a => some 0
  | 0x31 | 0x35 | 0x3b | 0x3f | 0x40 | 0x49 | 0x54 | 0x5c => some 1
  | _ => none

/-- What a call runs in: the answers to its reads, and the hash function. -/
structure World where
  /-- The result of a read with the given operands. -/
  read : UInt8 → List Word → Word
  /-- Keccak-256, as a word. -/
  keccak : Bytes → Word

variable {w : World}

/-- The number of operands of an opcode that computes a word from its operands. -/
def arity (op : UInt8) : Option ℕ :=
  if (unary op).isSome then some 1
  else if (binary op).isSome then some 2
  else if (ternary op).isSome then some 3
  else reads op

/-- The word an opcode computes from its operands, the top of the stack first. -/
def compute (w : World) (op : UInt8) : List Word → Option Word
  | [] => if reads op = some 0 then some (w.read op []) else none
  | [a] => match unary op with
    | some f => some (f a)
    | none => if reads op = some 1 then some (w.read op [a]) else none
  | [a, b] => (binary op).map fun f => f a b
  | [a, b, c] => (ternary op).map fun f => f a b c
  | _ => none

/-- Byte-addressed memory. -/
abbrev Memory := ℕ → UInt8

/-- The 32 bytes of a word. -/
def Word.bytes (a : Word) : Bytes := toBe 32 a.toNat

/-- The word that big-endian bytes represent, modulo `2^256`. -/
def Word.ofBytes (bs : Bytes) : Word := BitVec.ofNat 256 (ofBe bs)

/-- The memory after the bytes `bs` were stored at the offset `off`. -/
def Memory.store (m : Memory) (off : ℕ) (bs : Bytes) : Memory := fun i =>
  if off ≤ i then (bs[i - off]?).getD (m i) else m i

/-- The `n` bytes of memory at the offset `off`. -/
def Memory.load (m : Memory) (off n : ℕ) : Bytes := (List.range n).map fun i => m (off + i)

/-- The largest number of stack items. -/
def stackLimit : ℕ := 1024

/-- The stack, top first, and the memory. -/
structure Frame where
  /-- The stack items, top first. -/
  stack : List Word
  /-- The memory. -/
  memory : Memory

/-- A frame at a code offset. -/
structure State where
  /-- The offset of the next instruction. -/
  pc : ℕ
  /-- The stack and the memory. -/
  frame : Frame

/-- Why the machine stops. -/
inductive Halt where
  /-- An instruction needs more stack items than there are. -/
  | stackUnderflow
  /-- The stack would get more than `stackLimit` items. -/
  | stackOverflow
  /-- The code has ended. -/
  | stopped
  /-- An opcode this machine does not have. -/
  | unsupported
deriving DecidableEq, Repr

/-- The instructions of the machine. -/
inductive Instr where
  /-- Compute a word from `n` operands. -/
  | value (op : UInt8) (n : ℕ)
  /-- Hash a range of memory. -/
  | keccak256
  /-- Drop the top item. -/
  | pop
  /-- Store a word in memory. -/
  | mstore
  /-- Push the `n` bytes behind the opcode. -/
  | push (n : ℕ)
  /-- Push a copy of the item `n` deep. -/
  | dup (n : ℕ)
  /-- Exchange the top item with the one `n` deep. -/
  | swap (n : ℕ)
  /-- Any other opcode. -/
  | other
deriving DecidableEq, Repr

/-- The instruction of an opcode. -/
def decode (op : UInt8) : Instr :=
  match arity op with
  | some n => .value op n
  | none =>
    if op = 0x20 then .keccak256
    else if op = 0x50 then .pop
    else if op = 0x52 then .mstore
    else if 0x5f ≤ op ∧ op ≤ 0x7f then .push (op.toNat - 0x5f)
    else if 0x80 ≤ op ∧ op ≤ 0x8f then .dup (op.toNat - 0x80)
    else if 0x90 ≤ op ∧ op ≤ 0x9f then .swap (op.toNat - 0x8f)
    else .other

/-- The list with its first element and the one at `n` exchanged. -/
def exchange {α : Type} (n : ℕ) (l : List α) : List α :=
  match l[0]?, l[n]? with
  | some a, some b => (l.set 0 b).set n a
  | _, _ => l

/-- Push a word on the items `rest`, where the stack has room for it. -/
def pushWord (v : Word) (rest : List Word) : Except Halt (List Word) :=
  if rest.length < stackLimit then .ok (v :: rest) else .error .stackOverflow

/-- The frame after an instruction, with the immediate bytes `imm` behind its opcode. -/
def exec (w : World) (imm : Bytes) (s : Frame) : Instr → Except Halt Frame
  | .value op n =>
    if s.stack.length < n then .error .stackUnderflow
    else match compute w op (s.stack.take n) with
      | none => .error .unsupported
      | some v => (pushWord v (s.stack.drop n)).map fun st => { s with stack := st }
  | .keccak256 => match s.stack with
    | off :: n :: rest => (pushWord (w.keccak (s.memory.load off.toNat n.toNat)) rest).map
        fun st => { s with stack := st }
    | _ => .error .stackUnderflow
  | .pop => match s.stack with
    | _ :: rest => .ok { s with stack := rest }
    | [] => .error .stackUnderflow
  | .mstore => match s.stack with
    | off :: v :: rest => .ok ⟨rest, s.memory.store off.toNat v.bytes⟩
    | _ => .error .stackUnderflow
  | .push _ => (pushWord (Word.ofBytes imm) s.stack).map fun st => { s with stack := st }
  | .dup n => match s.stack[n]? with
    | some v => (pushWord v s.stack).map fun st => { s with stack := st }
    | none => .error .stackUnderflow
  | .swap n =>
    if n < s.stack.length then .ok { s with stack := exchange n s.stack }
    else .error .stackUnderflow
  | .other => .error .unsupported

/-- The number of immediate bytes of an instruction. -/
def Instr.immLen : Instr → ℕ
  | .push n => n
  | _ => 0

/-- The immediate bytes behind the opcode at `pc`. Bytes behind the end of the code are zero. -/
def immediate (code : Bytes) (pc n : ℕ) : Bytes :=
  let imm := window code (pc + 1) n
  imm ++ List.replicate (n - imm.length) 0

/-- One instruction. -/
def step (w : World) (code : Bytes) (s : State) : Except Halt State :=
  match code[s.pc]? with
  | none => .error .stopped
  | some op =>
    let n := (decode op).immLen
    (exec w (immediate code s.pc n) s.frame (decode op)).map fun f => ⟨s.pc + 1 + n, f⟩

/-- The state after `n` instructions. -/
def run (w : World) (code : Bytes) : ℕ → State → Except Halt State
  | 0, s => .ok s
  | n + 1, s => (step w code s).bind (run w code n)

/-! ## Words and bytes -/

@[simp] theorem Word.length_bytes (a : Word) : a.bytes.length = 32 := length_toBe 32 _

/-! ## Memory -/

/-- A store changes only the bytes it covers. -/
theorem Memory.store_of_le (m : Memory) {off : ℕ} {bs : Bytes} {i : ℕ} (h : off + bs.length ≤ i) :
    m.store off bs i = m i := by
  unfold Memory.store
  rw [if_pos (by omega), List.getElem?_eq_none (by omega), getD_none]

/-- Reading back two adjacent stores gives their bytes in order. -/
theorem Memory.load_store_store (m : Memory) (a b : Bytes) :
    ((m.store 0 a).store a.length b).load 0 (a.length + b.length) = a ++ b := by
  apply ext_getElem
  · simp [Memory.load]
  intro i hi _
  simp only [Memory.load, length_map, length_range] at hi
  simp only [Memory.load, getElem_map, getElem_range, Nat.zero_add, Memory.store,
    Nat.zero_le, if_true, Nat.sub_zero]
  by_cases h : a.length ≤ i
  · rw [if_pos h, getElem_append_right h, List.getElem?_eq_getElem (by omega)]
    rfl
  · rw [if_neg h, getElem_append_left (by omega), List.getElem?_eq_getElem (by omega)]
    rfl

/-! ## Exchanged elements -/

section Exchange

variable {α β : Type}

@[simp] theorem length_exchange (n : ℕ) (l : List α) : (exchange n l).length = l.length := by
  unfold exchange
  split <;> simp

/-- Exchanging elements commutes with a function on them. -/
theorem map_exchange (f : α → β) (n : ℕ) (l : List α) :
    (exchange n l).map f = exchange n (l.map f) := by
  unfold exchange
  simp only [List.getElem?_map]
  cases l[0]? <;> cases l[n]? <;> simp [map_set]

/-- An exchange within a list leaves what stands behind the list alone. -/
theorem exchange_append {l : List α} (h : n < l.length) (d : List α) :
    exchange n (l ++ d) = exchange n l ++ d := by
  have h0 : 0 < l.length := by omega
  unfold exchange
  rw [List.getElem?_append_left h0, List.getElem?_append_left h, List.getElem?_eq_getElem h0,
    List.getElem?_eq_getElem h]
  simp only
  rw [set_append_left _ _ h0, set_append_left _ _ (by simpa using h)]

/-- The elements after an exchange. -/
theorem getElem?_exchange {l : List α} (h : n < l.length) (i : ℕ) :
    (exchange n l)[i]? = l[Equiv.swap 0 n i]? := by
  have h0 : 0 < l.length := by omega
  unfold exchange
  rw [List.getElem?_eq_getElem h0, List.getElem?_eq_getElem h]
  grind

end Exchange

/-! ## The operands of a computation -/

/-- An opcode computes a word from as many operands as its arity says. -/
theorem compute_isSome (w : World) (op : UInt8) (args : List Word)
    (h : arity op = some args.length) :
    ∃ v, compute w op args = some v := by
  have harity : ∀ op : UInt8, (arity op = some 0 → reads op = some 0) ∧
      (arity op = some 1 → (unary op).isSome ∨ reads op = some 1) ∧
      (arity op = some 2 → (binary op).isSome) ∧
      (arity op = some 3 → (ternary op).isSome) ∧
      (∀ n ∈ arity op, n ≤ 3) := by decide +kernel
  obtain ⟨h0, h1, h2, h3, h4⟩ := harity op
  match args, h with
  | [], h => exact ⟨_, if_pos (h0 h)⟩
  | [a], h =>
    unfold compute
    cases hu : unary op with
    | some f => exact ⟨_, rfl⟩
    | none =>
      have hr := (h1 h).resolve_left (by simp [hu])
      exact ⟨_, if_pos hr⟩
  | [a, b], h =>
    obtain ⟨f, hf⟩ := isSome_iff_exists.1 (h2 h)
    exact ⟨f a b, by simp [compute, hf]⟩
  | [a, b, c], h =>
    obtain ⟨f, hf⟩ := isSome_iff_exists.1 (h3 h)
    exact ⟨f a b c, by simp [compute, hf]⟩
  | a :: b :: c :: d :: rest, h =>
    have hle := h4 _ h
    simp only [length_cons] at hle
    omega

/-- The instruction of an opcode that computes a word. -/
theorem decode_of_arity {op : UInt8} (h : arity op = some n) : decode op = .value op n := by
  simp [decode, h]

/-! ## Runs -/

@[simp] theorem run_zero (w : World) (code : Bytes) (s : State) : run w code 0 s = .ok s := rfl

/-- A run of `m + n` instructions is a run of `m` of them and then one of `n`. -/
theorem run_add (w : World) (code : Bytes) (m n : ℕ) (s : State) :
    run w code (m + n) s = (run w code m s).bind (run w code n) := by
  induction m generalizing s with
  | zero => simp [Except.bind]
  | succ m ih =>
    rw [Nat.add_right_comm]
    simp only [run]
    cases step w code s with
    | error e => rfl
    | ok t => exact ih t

/-- An instruction adds at most one item to the stack, and complains about the limit only at it. -/
theorem exec_height (w : World) (imm : Bytes) (s : Frame) (i : Instr) :
    (∀ t, exec w imm s i = .ok t → t.stack.length ≤ s.stack.length + 1) ∧
      (exec w imm s i = .error .stackOverflow → stackLimit ≤ s.stack.length) := by
  -- Every pushing instruction puts one word on a part of the stack.
  have push : ∀ (v : Word) (rest : List Word), rest.length ≤ s.stack.length →
      (∀ t, (pushWord v rest).map (fun st => { s with stack := st }) = .ok t →
        t.stack.length ≤ s.stack.length + 1) ∧
      ((pushWord v rest).map (fun st => { s with stack := st }) = .error .stackOverflow →
        stackLimit ≤ s.stack.length) := by
    intro v rest hrest
    by_cases hroom : rest.length < stackLimit
    · simp only [pushWord, hroom, if_true, Except.map]
      refine ⟨fun t ht => ?_, fun h => by simp at h⟩
      cases ht
      simp [hrest]
    · simp only [pushWord, hroom, if_false, Except.map]
      exact ⟨fun t ht => by simp at ht, fun _ => by omega⟩
  cases i with
  | value op n =>
    simp only [exec]
    split_ifs with hn
    · simp
    cases compute w op (s.stack.take n) with
    | none => simp
    | some v => exact push v _ (by simp)
  | keccak256 =>
    simp only [exec]
    split
    · rename_i off n rest hs
      exact push _ rest (by simp [hs]; omega)
    · simp
  | pop =>
    simp only [exec]
    split
    · rename_i rest hs
      refine ⟨fun t ht => ?_, by simp⟩
      cases ht
      simp [hs]; omega
    · simp
  | mstore =>
    simp only [exec]
    split
    · rename_i off v rest hs
      refine ⟨fun t ht => ?_, by simp⟩
      cases ht
      simp [hs]; omega
    · simp
  | push n => exact push _ s.stack le_rfl
  | dup n =>
    simp only [exec]
    split
    · exact push _ s.stack le_rfl
    · simp
  | swap n =>
    simp only [exec]
    split_ifs
    · refine ⟨fun t ht => ?_, by simp⟩
      cases ht
      simp
    · simp
  | other => simp [exec]

/-- A step makes the stack at most one item higher. -/
theorem step_height {code : Bytes} {s t : State} (h : step w code s = .ok t) :
    t.frame.stack.length ≤ s.frame.stack.length + 1 := by
  unfold step at h
  split at h
  · cases h
  rename_i op _
  cases hexec : exec w (immediate code s.pc (decode op).immLen) s.frame (decode op) with
  | error e => simp [hexec, Except.map] at h
  | ok f =>
    simp only [hexec, Except.map, Except.ok.injEq] at h
    subst h
    exact (exec_height w _ s.frame (decode op)).1 f hexec

/-- A step complains about the limit only from a stack that has reached it. -/
theorem le_of_step_overflow {code : Bytes} {s : State}
    (h : step w code s = .error .stackOverflow) : stackLimit ≤ s.frame.stack.length := by
  unfold step at h
  split at h
  · cases h
  rename_i op _
  cases hexec : exec w (immediate code s.pc (decode op).immLen) s.frame (decode op) with
  | error e =>
    simp only [hexec, Except.map, Except.error.injEq] at h
    subst h
    exact (exec_height w _ s.frame (decode op)).2 hexec
  | ok f => simp [hexec, Except.map] at h

/-- A run of `n` instructions outgrows the stack only from a stack within `n` items of the limit. -/
theorem lt_of_run_overflow {code : Bytes} (n : ℕ) {s : State}
    (h : run w code n s = .error .stackOverflow) : stackLimit < s.frame.stack.length + n := by
  induction n generalizing s with
  | zero => simp [run] at h
  | succ n ih =>
    simp only [run] at h
    cases hstep : step w code s with
    | error e =>
      rw [hstep] at h
      cases h
      have := le_of_step_overflow hstep
      omega
    | ok t =>
      rw [hstep] at h
      have := ih h
      have := step_height hstep
      omega

/-! ## Code that takes a frame to a frame -/

/-- The code `c`, wherever it stands, takes the frame `s` to `t` and ends behind its last byte,
unless the stack outgrows its limit. -/
def Executes (w : World) (c : Bytes) (s t : Frame) : Prop :=
  ∀ pre post : Bytes, ∃ n ≤ c.length,
    run w (pre ++ c ++ post) n ⟨pre.length, s⟩ = .ok ⟨pre.length + c.length, t⟩ ∨
      run w (pre ++ c ++ post) n ⟨pre.length, s⟩ = .error .stackOverflow

theorem Executes.nil (w : World) (s : Frame) : Executes w [] s s :=
  fun _ _ => ⟨0, le_rfl, .inl rfl⟩

/-- Two pieces of code after each other. -/
theorem Executes.trans {c d : Bytes} {s t u : Frame} (hc : Executes w c s t)
    (hd : Executes w d t u) : Executes w (c ++ d) s u := by
  intro pre post
  obtain ⟨m, hm, hc⟩ := hc pre (d ++ post)
  obtain ⟨n, hn, hd⟩ := hd (pre ++ c) post
  have hcode : pre ++ (c ++ d) ++ post = pre ++ c ++ (d ++ post) := by simp
  have hcode' : pre ++ c ++ d ++ post = pre ++ c ++ (d ++ post) := by simp
  rw [hcode'] at hd
  rw [hcode]
  rcases hc with hc | hc
  · refine ⟨m + n, by simp; omega, ?_⟩
    rw [run_add, hc]
    simp only [length_append, ← Nat.add_assoc] at hd ⊢
    exact hd
  · exact ⟨m, by simp; omega, .inr hc⟩

/-- Code that executes on a stack with room for one item for each byte does so without an
exception. -/
theorem Executes.run_of_room {c : Bytes} {s t : Frame} (h : Executes w c s t)
    (hroom : s.stack.length + c.length ≤ stackLimit) (pre post : Bytes) :
    ∃ n, run w (pre ++ c ++ post) n ⟨pre.length, s⟩ = .ok ⟨pre.length + c.length, t⟩ := by
  obtain ⟨n, hn, h | h⟩ := h pre post
  · exact ⟨n, h⟩
  have := lt_of_run_overflow n h
  simp only at this
  omega

/-- One instruction, from what it does to the frame. The immediate bytes are `imm`. -/
theorem Executes.instr {op : UInt8} {imm : Bytes} {s t : Frame}
    (himm : imm.length = (decode op).immLen)
    (h : exec w imm s (decode op) = .ok t ∨ exec w imm s (decode op) = .error .stackOverflow) :
    Executes w (op :: imm) s t := by
  intro pre post
  refine ⟨1, by simp, ?_⟩
  have hop : (pre ++ op :: imm ++ post)[pre.length]? = some op := by simp
  have hwin : immediate (pre ++ op :: imm ++ post) pre.length (decode op).immLen = imm := by
    have : window (pre ++ op :: imm ++ post) (pre.length + 1) imm.length = imm := by
      have hcut : (pre ++ op :: imm ++ post).drop (pre.length + 1) = imm ++ post := by
        rw [← drop_drop, append_assoc, drop_left]
        rfl
      rw [window, hcut, take_left]
    rw [← himm, immediate, this]
    simp
  have hstep : step w (pre ++ op :: imm ++ post) ⟨pre.length, s⟩ =
      (exec w imm s (decode op)).map fun f => ⟨pre.length + (op :: imm).length, f⟩ := by
    simp only [step, hop, hwin]
    rw [← himm, length_cons, Nat.add_assoc, Nat.add_comm 1]
  simp only [run, hstep]
  rcases h with h | h
  · left
    rw [h]
    rfl
  right
  rw [h]
  rfl

/-- Pushing a word succeeds or finds no room. -/
theorem pushWord_cases (v : Word) (rest : List Word) (s : Frame) :
    (pushWord v rest).map (fun st => { s with stack := st }) = .ok { s with stack := v :: rest } ∨
      (pushWord v rest).map (fun st => { s with stack := st }) = .error .stackOverflow := by
  unfold pushWord
  split_ifs
  · exact .inl rfl
  · exact .inr rfl

/-- An opcode that computes a word replaces its operands by it. -/
theorem Executes.value {op : UInt8} {args rest : List Word} {v : Word} {m : Memory}
    (harity : arity op = some args.length) (hv : compute w op args = some v) :
    Executes w [op] ⟨args ++ rest, m⟩ ⟨v :: rest, m⟩ := by
  apply Executes.instr
  · simp [decode_of_arity harity, Instr.immLen]
  rw [decode_of_arity harity]
  simp only [exec, length_append, take_left, drop_left, hv]
  rw [if_neg (by omega)]
  exact pushWord_cases v rest ⟨args ++ rest, m⟩

/-- The opcode of a push of `n` bytes. -/
theorem decode_push (n : ℕ) (h : n ≤ 32) : decode (0x5f + UInt8.ofNat n) = .push n := by
  have all : ∀ n : Fin 33, decode (0x5f + UInt8.ofNat n) = .push n := by decide
  exact all ⟨n, by omega⟩

theorem decode_dup (n : ℕ) (h : n < 16) : decode (0x80 + UInt8.ofNat n) = .dup n := by
  have all : ∀ n : Fin 16, decode (0x80 + UInt8.ofNat n) = .dup n := by decide
  exact all ⟨n, h⟩

theorem decode_swap (n : ℕ) (h0 : 1 ≤ n) (h : n ≤ 16) :
    decode (0x8f + UInt8.ofNat n) = .swap n := by
  have all : ∀ n : Fin 17, 1 ≤ n.val → decode (0x8f + UInt8.ofNat n) = .swap n := by decide
  exact all ⟨n, by omega⟩ h0

/-- A push of the bytes `bs`. -/
theorem Executes.push (w : World) (bs : Bytes) (h : bs.length ≤ 32) (st : List Word) (m : Memory) :
    Executes w ((0x5f + UInt8.ofNat bs.length) :: bs) ⟨st, m⟩ ⟨Word.ofBytes bs :: st, m⟩ := by
  apply Executes.instr
  · rw [decode_push _ h]
    rfl
  · rw [decode_push _ h]
    exact pushWord_cases _ st ⟨st, m⟩

/-- A copy of the item `n` deep. -/
theorem Executes.dup (w : World) (h : n < 16) {st : List Word} {v : Word} (hv : st[n]? = some v)
    (m : Memory) : Executes w [0x80 + UInt8.ofNat n] ⟨st, m⟩ ⟨v :: st, m⟩ := by
  apply Executes.instr
  · rw [decode_dup _ h]
    rfl
  rw [decode_dup _ h]
  simp only [exec, hv]
  exact pushWord_cases v st ⟨st, m⟩

/-- The top item changes places with the one `n` deep. -/
theorem Executes.swap (w : World) (h0 : 1 ≤ n) (h : n ≤ 16) {st : List Word} (hn : n < st.length)
    (m : Memory) : Executes w [0x8f + UInt8.ofNat n] ⟨st, m⟩ ⟨exchange n st, m⟩ := by
  apply Executes.instr
  · rw [decode_swap _ h0 h]
    rfl
  · rw [decode_swap _ h0 h]
    exact .inl (if_pos hn)

/-- The top item is dropped. -/
theorem Executes.pop (w : World) (a : Word) (st : List Word) (m : Memory) :
    Executes w [0x50] ⟨a :: st, m⟩ ⟨st, m⟩ :=
  Executes.instr (by decide) (.inl rfl)

/-- The word below the top is stored at the offset on top. -/
theorem Executes.mstore (w : World) (off v : Word) (st : List Word) (m : Memory) :
    Executes w [0x52] ⟨off :: v :: st, m⟩ ⟨st, m.store off.toNat v.bytes⟩ :=
  Executes.instr (by decide) (.inl rfl)

/-- The hash of a range of memory. -/
theorem Executes.keccak256 (w : World) (off n : Word) (st : List Word) (m : Memory) :
    Executes w [0x20] ⟨off :: n :: st, m⟩ ⟨w.keccak (m.load off.toNat n.toNat) :: st, m⟩ :=
  Executes.instr (by decide) (pushWord_cases _ st ⟨off :: n :: st, m⟩)

end Univdreams.Evm
