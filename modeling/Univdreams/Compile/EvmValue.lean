import Univdreams.Compile.EvmEmit

/-!
# Compiled EVM expressions compute their values

The meaning of the emitter's symbolic values and of the expressions they are lowered from, and the
proof that the generated code computes it. A `Valuation` says what the parts of a symbolic value
stand for in a run. Under it the modelled stack of an emitter is a list of words
(`Emitter.stack`), and `Emits ρ em em'` says that the code which takes the emitter from `em` to
`em'` does to the machine's stack what the emitter did to its model, and to memory nothing outside
the 64 bytes of scratch space. Each primitive of the emitter has this property, it composes, and
`emits_value` follows by induction over the symbolic value.
-/

namespace Univdreams.Compile

open Evm List Emitter Word Run Memory

/-! ## Meanings -/

/-- What the parts of a symbolic value stand for in a run of the code. -/
structure Valuation where
  /-- The surroundings of the call. -/
  world : World
  /-- The stack items at the start of the statement, the top first. -/
  slot : ℕ → Word
  /-- The offsets of the labels in the laid-out code. -/
  address : Target → ℕ
  /-- The values that cannot be recomputed. -/
  unknown : ℕ → Word
  /-- The results of the opcodes that are not computations. -/
  effect : UInt8 → List Word → Word

/-- The slot of a mapping entry: the hash of the key and the slot, in the order of the layout. -/
def hashPair (w : World) (vyper : Bool) (slot key : Word) : Word :=
  w.keccak (if vyper then slot.bytes ++ key.bytes else key.bytes ++ slot.bytes)

mutual

/-- The word that a symbolic value stands for. -/
def Sym.eval (ρ : Valuation) (vyper : Bool) : Sym → Word
  | .slot k => ρ.slot k
  | .const b => Word.ofBytes b
  | .label t width => BitVec.ofNat 256 (ρ.address t % 256 ^ width)
  | .op code args =>
    (compute ρ.world code (Sym.evals ρ vyper args)).getD (ρ.effect code (Sym.evals ρ vyper args))
  | .mapping s k => hashPair ρ.world vyper (Sym.eval ρ vyper s) (Sym.eval ρ vyper k)
  | .unknown id => ρ.unknown id

/-- The words that symbolic values stand for. -/
def Sym.evals (ρ : Valuation) (vyper : Bool) : List Sym → List Word
  | [] => []
  | a :: as => Sym.eval ρ vyper a :: Sym.evals ρ vyper as

end

mutual

/-- A symbolic value of pure operations: constants and labels that a push can hold, and opcodes that
compute a word from their operands. -/
def Sym.isPure : Sym → Bool
  | .slot _ | .unknown _ => true
  | .const b => (stripZeros b).length ≤ 32
  | .label _ width => width ≤ 32
  | .op code args => arity code = some args.length && Sym.arePure args
  | .mapping s k => Sym.isPure s && Sym.isPure k

/-- Symbolic values built by pure operations. -/
def Sym.arePure : List Sym → Bool
  | [] => true
  | a :: as => Sym.isPure a && Sym.arePure as

end

theorem Sym.evals_eq_map (ρ : Valuation) (vyper : Bool) (args : List Sym) :
    Sym.evals ρ vyper args = args.map (Sym.eval ρ vyper) := by
  induction args with
  | nil => rfl
  | cons a as ih => simp [Sym.evals, ih]

/-- The bytes of a piece of code, for given offsets of the labels. -/
def Piece.encode (address : Target → ℕ) : Piece → Bytes
  | .bytes b => b
  | .label _ | .mark _ => []
  | .push width t _ => (0x5f + UInt8.ofNat width) :: toBe width (address t)
  | .data _ _ b => b

namespace Emitter

/-- The bytes of the generated code, for given offsets of the labels. -/
def code (address : Target → ℕ) (em : Emitter) : Bytes := em.pieces.flatMap (Piece.encode address)

/-- The words on the modelled stack, the top first. -/
def stack (ρ : Valuation) (em : Emitter) : List Word := em.model.map (Sym.eval ρ em.opts.vyper)

/-! ## The primitives of the emitter -/

@[simp] theorem model_byte (em : Emitter) (b : UInt8) : (em.byte b).model = em.model := rfl

@[simp] theorem opts_byte (em : Emitter) (b : UInt8) : (em.byte b).opts = em.opts := rfl

/-- Emitting a byte appends it to the code. -/
@[simp] theorem code_byte (address : Target → ℕ) (em : Emitter) (b : UInt8) :
    (em.byte b).code address = em.code address ++ [b] := by
  unfold code byte appendByte
  cases h : em.pieces.getLast? with
  | none => simp [Piece.encode]
  | some p =>
    cases p with
    | bytes v =>
      -- The byte goes into the last piece.
      obtain ⟨init, hinit⟩ := List.getLast?_eq_some_iff.1 h
      simp [hinit, Piece.encode]
    | label | push | data | mark => simp [Piece.encode]

theorem bytes_spec (bs : Bytes) (em : Emitter) :
    (em.bytes bs).model = em.model ∧ (em.bytes bs).opts = em.opts ∧
      ∀ address, (em.bytes bs).code address = em.code address ++ bs := by
  induction bs generalizing em with
  | nil => simp [bytes]
  | cons b bs ih =>
    obtain ⟨hm, ho, hc⟩ := ih (em.byte b)
    refine ⟨hm, ho, fun address => ?_⟩
    rw [show em.bytes (b :: bs) = (em.byte b).bytes bs from rfl, hc, code_byte]
    simp

end Emitter

@[simp] theorem Word.ofBytes_stripZeros (bs : Bytes) :
    Word.ofBytes (stripZeros bs) = Word.ofBytes bs := by
  rw [Word.ofBytes, Word.ofBytes, ofBe_stripZeros]

/-- The code from `em` to `em'` does to the stack what the emitter did to its model, and changes
memory in the scratch space only. -/
structure Emits (ρ : Valuation) (em em' : Emitter) : Prop where
  /-- The options stay. -/
  opts : em'.opts = em.opts
  /-- The code behind the old code. -/
  code : ∃ c, em'.code ρ.address = em.code ρ.address ++ c ∧ ∀ (deep : List Word) (m : Memory),
    ∃ m' : Memory, (∀ i, 0x40 ≤ i → m' i = m i) ∧
      Executes ρ.world c ⟨em.stack ρ ++ deep, m⟩ ⟨em'.stack ρ ++ deep, m'⟩

namespace Emits

variable {ρ : Valuation} {em em' em'' : Emitter}

theorem refl (ρ : Valuation) (em : Emitter) : Emits ρ em em :=
  ⟨rfl, [], by simp, fun deep m => ⟨m, fun _ _ => rfl, Executes.nil _ _⟩⟩

theorem trans (h : Emits ρ em em') (h' : Emits ρ em' em'') : Emits ρ em em'' := by
  obtain ⟨c, hc, hrun⟩ := h.code
  obtain ⟨d, hd, hrun'⟩ := h'.code
  refine ⟨h'.opts.trans h.opts, c ++ d, by rw [hd, hc, append_assoc], fun deep m => ?_⟩
  obtain ⟨m1, hm1, he1⟩ := hrun deep m
  obtain ⟨m2, hm2, he2⟩ := hrun' deep m1
  exact ⟨m2, fun i hi => (hm2 i hi).trans (hm1 i hi), he1.trans he2⟩

/-- Code that leaves memory alone. -/
theorem of_executes {c : Bytes} (hopts : em'.opts = em.opts)
    (hcode : em'.code ρ.address = em.code ρ.address ++ c) (h : ∀ (deep : List Word) (m : Memory),
      Executes ρ.world c ⟨em.stack ρ ++ deep, m⟩ ⟨em'.stack ρ ++ deep, m⟩) : Emits ρ em em' :=
  ⟨hopts, c, hcode, fun deep m => ⟨m, fun _ _ => rfl, h deep m⟩⟩

end Emits

section Primitives

variable {ρ : Valuation} {em em' : Emitter}

/-- What a constant's push adds: a push of bytes with the constant's value. -/
theorem pushConst_code (em : Emitter) {b : Bytes} (hb : (stripZeros b).length ≤ 32) :
    (em.pushConst b).opts = em.opts ∧ (em.pushConst b).model = .const (stripZeros b) :: em.model ∧
      ∃ bs : Bytes, bs.length ≤ 32 ∧ Word.ofBytes bs = Word.ofBytes b ∧
        ∀ address, (em.pushConst b).code address =
          em.code address ++ (0x5f + UInt8.ofNat bs.length) :: bs := by
  unfold pushConst
  by_cases hempty : (stripZeros b).isEmpty
  · have hnil : stripZeros b = [] := isEmpty_iff.1 hempty
    have hval : Word.ofBytes b = 0 := by
      rw [← Word.ofBytes_stripZeros, hnil]
      rfl
    by_cases hp : em.opts.push0 <;> simp only [hnil, hp]
    · exact ⟨rfl, rfl, [], by simp, hval.symm, fun address => code_byte address em _⟩
    obtain ⟨hm, ho, hc⟩ := bytes_spec [0] (em.byte (0x5f + UInt8.ofNat 1))
    refine ⟨ho, by simp [byte, Emitter.bytes], [0], by simp, by rw [hval]; rfl, fun address => ?_⟩
    have hcode := hc address
    rw [code_byte, append_assoc] at hcode
    exact hcode
  · obtain ⟨hm, ho, hc⟩ := bytes_spec (stripZeros b)
      (em.byte (0x5f + UInt8.ofNat (stripZeros b).length))
    simp only [hempty, Bool.false_and]
    refine ⟨ho, by simpa using hm, stripZeros b, hb, Word.ofBytes_stripZeros b, fun address => ?_⟩
    have hcode := hc address
    rw [code_byte, append_assoc] at hcode
    exact hcode

/-- A constant is pushed with its value. -/
theorem emits_pushConst (em : Emitter) {b : Bytes} (hb : (stripZeros b).length ≤ 32) :
    Emits ρ em (em.pushConst b) ∧
      (em.pushConst b).stack ρ = ofBytes b :: em.stack ρ := by
  obtain ⟨hopts, hmodel, bs, hlen, hval, hcode⟩ := pushConst_code em hb
  have hstack : (em.pushConst b).stack ρ = ofBytes b :: em.stack ρ := by
    simp [stack, hmodel, hopts, Sym.eval]
  refine ⟨Emits.of_executes hopts (hcode ρ.address) fun deep m => ?_, hstack⟩
  rw [hstack, ← hval]
  exact Executes.push ρ.world bs hlen _ m

/-- A label is pushed with its offset. -/
theorem emits_pushLabel (em : Emitter) (t : Target) {width : ℕ} (hw : width ≤ 32) :
    Emits ρ em (em.pushLabel t width) ∧
      (em.pushLabel t width).stack ρ =
        BitVec.ofNat 256 (ρ.address t % 256 ^ width) :: em.stack ρ := by
  have hstack : (em.pushLabel t width).stack ρ =
      BitVec.ofNat 256 (ρ.address t % 256 ^ width) :: em.stack ρ := by
    simp [stack, pushLabel, Sym.eval]
  refine ⟨Emits.of_executes rfl (by simp [Emitter.code, pushLabel, Piece.encode]; rfl)
    fun deep m => ?_, hstack⟩
  have hpush := Executes.push ρ.world (toBe width (ρ.address t)) (by simpa using hw)
    (em.stack ρ ++ deep) m
  rw [length_toBe, ofBytes, ofBe_toBe] at hpush
  rw [hstack]
  exact hpush

/-- A duplicated item is on top, and stays where it was. -/
theorem emits_dup {d : ℕ} (h : em.dup d = .ok em') :
    Emits ρ em em' ∧ ∃ s, em.model[d]? = some s ∧ em'.model = s :: em.model := by
  unfold dup at h
  by_cases hd : d ≥ 16
  · rw [if_pos hd] at h
    cases h
  rw [if_neg hd] at h
  obtain ⟨s, hs, h⟩ := bind_eq_ok.1 h
  rw [orPanic_eq_ok] at hs
  cases h
  refine ⟨Emits.of_executes rfl (code_byte _ em _) fun deep m => ?_, s, hs, rfl⟩
  have hlt : d < em.model.length := (List.getElem?_eq_some_iff.1 hs).1
  have hword : (em.stack ρ ++ deep)[d]? = some (Sym.eval ρ em.opts.vyper s) := by
    rw [List.getElem?_append_left (by simpa [stack] using hlt)]
    simp [stack, hs]
  exact Executes.dup ρ.world (by omega) hword m

/-- A swap exchanges the top item with the one `n` deep. -/
theorem emits_swap {n : ℕ} (h : em.swap n = .ok em') :
    Emits ρ em em' ∧ em'.model = exchange n em.model ∧ n < em.model.length := by
  unfold Emitter.swap at h
  by_cases hn : ¬(1 ≤ n ∧ n ≤ 16) ∨ n ≥ em.model.length
  · rw [if_pos hn] at h
    cases h
  rw [if_neg hn] at h
  cases h
  simp only [not_or, not_not] at hn
  have hlt : n < em.model.length := by omega
  refine ⟨Emits.of_executes rfl (code_byte _ _ _) fun deep m => ?_, rfl, hlt⟩
  have hlen : n < (em.stack ρ).length := by simpa [stack] using hlt
  have hswap := Executes.swap ρ.world hn.1.1 hn.1.2
    (show n < (em.stack ρ ++ deep).length by simp; omega) m
  rw [exchange_append hlen] at hswap
  simpa [stack, map_exchange] using hswap

/-- `Emitter::op` takes the operands from the model, and ends the code with the opcode. -/
theorem op_spec {code : UInt8} {r : Option Sym} (h : em.op code r = .ok em') :
    (opInfo code).pops ≤ em.model.length ∧ em'.opts = em.opts ∧
      (∀ address, em'.code address = em.code address ++ [code]) ∧
      em'.model = (if (opInfo code).pushes = 1 then [r.getD (.unknown (em.lastUnknown + 1))]
        else [])
        ++ em.model.drop (opInfo code).pops := by
  unfold Emitter.op at h
  simp only at h
  by_cases hlen : em.model.length < (opInfo code).pops
  · rw [if_pos hlen] at h
    cases h
  rw [if_neg hlen] at h
  refine ⟨by omega, ?_⟩
  by_cases hpush : (opInfo code).pushes = 1
  · rw [if_pos hpush] at h ⊢
    cases r with
    | none | some =>
      cases h
      exact ⟨rfl, fun address => code_byte address _ code, rfl⟩
  rw [if_neg hpush] at h ⊢
  cases h
  exact ⟨rfl, fun address => code_byte address _ code, rfl⟩

/-- A `POP` drops the top item. -/
theorem emits_pop (h : em.op 0x50 none = .ok em') :
    Emits ρ em em' ∧ ∃ s, em.model = s :: em'.model := by
  have hinfo : (opInfo 0x50).pops = 1 ∧ (opInfo 0x50).pushes ≠ 1 := by decide
  obtain ⟨hlen, hopts, hcode, hmodel⟩ := op_spec h
  rw [hinfo.1] at hlen hmodel
  rw [if_neg hinfo.2, nil_append] at hmodel
  cases hm : em.model with
  | nil => simp [hm] at hlen
  | cons s rest =>
    have hrest : em'.model = rest := by rw [hmodel, hm]; rfl
    refine ⟨Emits.of_executes hopts (hcode ρ.address) fun deep m => ?_, s, by rw [hrest]⟩
    simp only [stack, hm, hrest, hopts, map_cons, cons_append]
    exact Executes.pop ρ.world _ _ m

/-- An opcode that computes a word replaces its operands, which are on top, by it. -/
theorem emits_op {code : UInt8} {args top rest : List Sym}
    (harity : arity code = some args.length) (hmodel : em.model = top ++ rest)
    (htop : top.map (Sym.eval ρ em.opts.vyper) = args.map (Sym.eval ρ em.opts.vyper))
    (h : em.op code (some (.op code args)) = .ok em') :
    Emits ρ em em' ∧ em'.model = .op code args :: rest := by
  obtain ⟨-, hpops, hpushes⟩ := opInfo_of_arity harity
  obtain ⟨-, hopts, hcode, hmodel'⟩ := op_spec h
  have hlen : top.length = args.length := by simpa using congrArg List.length htop
  have hrest : em'.model = .op code args :: rest := by
    rw [hmodel', if_pos hpushes, hpops, hmodel, ← hlen, drop_left]
    rfl
  refine ⟨Emits.of_executes hopts (hcode ρ.address) fun deep m => ?_, hrest⟩
  obtain ⟨v, hv⟩ := compute_isSome ρ.world code (args.map (Sym.eval ρ em.opts.vyper))
    (by simpa using harity)
  have hval : Sym.eval ρ em.opts.vyper (.op code args) = v := by
    simp [Sym.eval, Sym.evals_eq_map, hv]
  simp only [stack, hmodel, hrest, hopts, map_cons, map_append, htop, hval,
    cons_append, append_assoc]
  exact Executes.value (by simpa using harity) hv

/-- An `MSTORE` takes the offset and the word that are on top. -/
theorem op_mstore {off v : Sym} {rest : List Sym} (hm : em.model = off :: v :: rest)
    (h : em.op 0x52 none = .ok em') :
    em'.model = rest ∧ em'.opts = em.opts ∧
      ∀ address, em'.code address = em.code address ++ [0x52] := by
  have hinfo : (opInfo 0x52).pops = 2 ∧ (opInfo 0x52).pushes ≠ 1 := by decide
  obtain ⟨-, hopts, hcode, hmodel⟩ := op_spec h
  rw [if_neg hinfo.2, hinfo.1, hm] at hmodel
  exact ⟨hmodel, hopts, hcode⟩

/-- A `KECCAK256` replaces the offset and the length that are on top by the given result. -/
theorem op_keccak256 {off n r : Sym} {rest : List Sym} (hm : em.model = off :: n :: rest)
    (h : em.op 0x20 (some r) = .ok em') :
    em'.model = r :: rest ∧ em'.opts = em.opts ∧
      ∀ address, em'.code address = em.code address ++ [0x20] := by
  have hinfo : (opInfo 0x20).pops = 2 ∧ (opInfo 0x20).pushes = 1 := by decide
  obtain ⟨-, hopts, hcode, hmodel⟩ := op_spec h
  rw [if_pos hinfo.2, hinfo.1, hm] at hmodel
  exact ⟨hmodel, hopts, hcode⟩

/-- The code behind the words of a mapping stores them in scratch memory and hashes them. -/
theorem emits_hashScratch {lo hi r : Sym} {rest : List Sym} (hm : em.model = lo :: hi :: rest)
    (hr : Sym.eval ρ em.opts.vyper r = ρ.world.keccak
      ((Sym.eval ρ em.opts.vyper lo).bytes ++ (Sym.eval ρ em.opts.vyper hi).bytes))
    (h : em.hashScratch r = .ok em') : Emits ρ em em' ∧ em'.model = r :: rest := by
  obtain ⟨em2, em4, h2, h4, h⟩ := bind₂_eq_ok.1 h
  -- The pushed constants, with the bytes of their pushes.
  obtain ⟨ho1, hm1, z, hz, hzv, hc1⟩ := pushConst_code em
    (show (stripZeros []).length ≤ 32 by decide)
  obtain ⟨hm2, ho2, hc2⟩ := op_mstore (hm1.trans (by rw [hm])) h2
  obtain ⟨ho3, hm3, x, hx, hxv, hc3⟩ :=
    pushConst_code em2 (show (stripZeros [0x20]).length ≤ 32 by decide)
  obtain ⟨hm4, ho4, hc4⟩ := op_mstore (hm3.trans (by rw [hm2])) h4
  obtain ⟨ho5, hm5, y, hy, hyv, hc5⟩ :=
    pushConst_code em4 (show (stripZeros [0x40]).length ≤ 32 by decide)
  obtain ⟨ho6, hm6, z', hz', hzv', hc6⟩ :=
    pushConst_code (em4.pushConst [0x40]) (show (stripZeros []).length ≤ 32 by decide)
  obtain ⟨hm7, ho7, hc7⟩ := op_keccak256 (hm6.trans (by rw [hm5])) h
  have hopts : em'.opts = em.opts := by rw [ho7, ho6, ho5, ho4, ho3, ho2, ho1]
  have hmodel : em'.model = r :: rest := by rw [hm7, hm4]
  refine ⟨⟨hopts, _, by rw [hc7, hc6, hc5, hc4, hc3, hc2, hc1]; simp only [append_assoc]; rfl,
    fun deep m => ?_⟩, hmodel⟩
  set a := Sym.eval ρ em.opts.vyper lo with ha
  set b := Sym.eval ρ em.opts.vyper hi with hb
  set st := rest.map (Sym.eval ρ em.opts.vyper) ++ deep with hst
  refine ⟨(m.store 0 a.bytes).store 0x20 b.bytes, fun i hi => ?_, ?_⟩
  · rw [store_of_le _ (by simpa using hi), store_of_le _ (by simp; omega)]
  have hstart : em.stack ρ ++ deep = a :: b :: st := by simp [stack, hm, ha, hb, hst]
  have hend : em'.stack ρ ++ deep = ρ.world.keccak (a.bytes ++ b.bytes) :: st := by
    simp [stack, hmodel, hopts, hr, ha, hb, hst]
  have hload := load_store_store m a.bytes b.bytes
  simp only [length_bytes, Nat.reduceAdd] at hload
  rw [hstart, hend, ← hload]
  have e1 := Executes.push ρ.world z hz (a :: b :: st) m
  have e2 := Executes.mstore ρ.world (ofBytes z) a (b :: st) m
  have e3 := Executes.push ρ.world x hx (b :: st) (m.store 0 a.bytes)
  have e4 := Executes.mstore ρ.world (ofBytes x) b st (m.store 0 a.bytes)
  have e5 := Executes.push ρ.world y hy st ((m.store 0 a.bytes).store 0x20 b.bytes)
  have e6 := Executes.push ρ.world z' hz' (ofBytes y :: st)
    ((m.store 0 a.bytes).store 0x20 b.bytes)
  have e7 := Executes.keccak256 ρ.world (ofBytes z') (ofBytes y) st
    ((m.store 0 a.bytes).store 0x20 b.bytes)
  have hwords : (ofBytes []).toNat = 0 ∧ (ofBytes [0x20]).toNat = 0x20 ∧
      (ofBytes [0x40]).toNat = 0x40 := by decide
  rw [hzv, hwords.1] at e2
  rw [hxv, hwords.2.1] at e4
  rw [hzv', hyv, hwords.1, hwords.2.2] at e7
  rw [hzv] at e1
  rw [hxv] at e3
  rw [hyv] at e5 e6
  rw [hzv'] at e6
  have hrun := ((((((e1.trans e2).trans e3).trans e4).trans e5).trans e6).trans e7)
  simpa only [append_assoc, cons_append, nil_append] using hrun

end Primitives

/-! ## Values -/

/-- An item that the emitter finds is the value itself, within the reach of a `DUP`. -/
theorem emits_reachable {ρ : Valuation} {em em' : Emitter} {s : Sym} {d : ℕ}
    (hd : em.reachable s = some d) (h : em.dup d = .ok em') :
    Emits ρ em em' ∧ em'.model = s :: em.model := by
  obtain ⟨hfind, -⟩ := Option.filter_eq_some_iff.1 hd
  obtain ⟨hlt, heq, -⟩ := List.findIdx?_eq_some_iff_getElem.1 hfind
  obtain ⟨hemits, x, hx, hmodel⟩ := emits_dup (ρ := ρ) h
  rw [List.getElem?_eq_getElem hlt] at hx
  cases hx
  exact ⟨hemits, by rw [hmodel, of_decide_eq_true heq]⟩

/-- What pushing a value does: one more item with the value on top of the stack. -/
structure Pushes (ρ : Valuation) (em em' : Emitter) (v : Word) : Prop extends Emits ρ em em' where
  /-- The stack below the value is the old one. -/
  stack : em'.stack ρ = v :: em.stack ρ

theorem Pushes.of_model {ρ : Valuation} {em em' : Emitter} {s : Sym} (h : Emits ρ em em')
    (hmodel : em'.model = s :: em.model) : Pushes ρ em em' (Sym.eval ρ em.opts.vyper s) :=
  ⟨h, by simp [Emitter.stack, hmodel, h.opts]⟩

/-- The model under a pushed value, up to the meaning of its items. -/
theorem Pushes.model {ρ : Valuation} {em em' : Emitter} {v : Word} (h : Pushes ρ em em' v) :
    ∃ s rest, em'.model = s :: rest ∧ Sym.eval ρ em.opts.vyper s = v ∧
      rest.map (Sym.eval ρ em.opts.vyper) = em.stack ρ := by
  have hstack := h.stack
  unfold Emitter.stack at hstack
  rw [h.opts] at hstack
  exact map_eq_cons_iff.1 hstack |>.imp fun s ⟨rest, hm, hs, hrest⟩ => ⟨rest, hm, hs, hrest⟩

/-- Two pushed words and their hash behind them. -/
theorem pushes_hash {ρ : Valuation} {em em1 em2 em' : Emitter} {r : Sym} {a b : Word}
    (h1 : Pushes ρ em em1 b) (h2 : Pushes ρ em1 em2 a)
    (hr : Sym.eval ρ em.opts.vyper r = ρ.world.keccak (a.bytes ++ b.bytes))
    (h : em2.hashScratch r = .ok em') : Pushes ρ em em' (Sym.eval ρ em.opts.vyper r) := by
  obtain ⟨lo, rest2, hm2, hlo, hrest2⟩ := h2.model
  rw [h1.stack, h1.opts] at hrest2
  obtain ⟨hi, rest, rfl, hhi, hrest⟩ := map_eq_cons_iff.1 hrest2
  have hopts : em2.opts = em.opts := h2.opts.trans h1.opts
  obtain ⟨he, hm⟩ := emits_hashScratch (ρ := ρ) hm2
    (by rw [hopts, hr, hhi, ← h1.opts, hlo]) h
  refine ⟨(h1.toEmits.trans h2.toEmits).trans he, ?_⟩
  simp [stack, hm, he.opts, hopts, hrest]

mutual

/-- The code of `Emitter::value` pushes the value of a pure symbolic value. -/
theorem pushes_value {ρ : Valuation} (s : Sym) {em em' : Emitter} (hp : s.isPure)
    (h : Emitter.value s em = .ok em') : Pushes ρ em em' (Sym.eval ρ em.opts.vyper s) := by
  rw [Emitter.value.eq_def] at h
  cases hd : em.reachable s with
  | some d =>
    rw [hd] at h
    obtain ⟨he, hm⟩ := emits_reachable (ρ := ρ) hd h
    exact .of_model he hm
  | none =>
    rw [hd] at h
    match s, hp, h with
    | .slot k, _, h | .unknown id, _, h => cases h
    | .const b, hp, h =>
      cases h
      obtain ⟨he, hs⟩ := emits_pushConst (ρ := ρ) em (by simpa [Sym.isPure] using hp)
      exact ⟨he, hs⟩
    | .label t width, hp, h =>
      cases h
      obtain ⟨he, hs⟩ := emits_pushLabel (ρ := ρ) em t (by simpa [Sym.isPure] using hp)
      exact ⟨he, hs⟩
    | .op code args, hp, h =>
      simp only [Sym.isPure, Bool.and_eq_true, decide_eq_true_eq] at hp
      obtain ⟨em1, h1, h2⟩ := bind_eq_ok.1 h
      obtain ⟨he1, hs1⟩ := emits_operands (ρ := ρ) args hp.2 h1
      -- The operands are on top, in the order in which the opcode takes them.
      unfold stack at hs1
      rw [he1.opts] at hs1
      obtain ⟨top, rest, hmodel, htop, hrest⟩ := map_eq_append_iff.1 hs1
      obtain ⟨he2, hm2⟩ := emits_op (ρ := ρ) hp.1 hmodel (by rw [he1.opts]; exact htop) h2
      refine ⟨he1.trans he2, ?_⟩
      simp [stack, hm2, he2.opts, he1.opts, hrest]
    | .mapping slot key, hp, h =>
      simp only [Sym.isPure, Bool.and_eq_true] at hp
      by_cases hv : em.opts.vyper
      · simp only [hv, if_true] at h
        obtain ⟨em1, em2, h1, h2, h3⟩ := bind₂_eq_ok.1 h
        have hkey := pushes_value (ρ := ρ) key hp.2 h1
        have hslot := pushes_value (ρ := ρ) slot hp.1 h2
        exact pushes_hash hkey hslot (by rw [Sym.eval, hashPair, if_pos hv, hkey.opts]) h3
      simp only [hv] at h
      obtain ⟨em1, em2, h1, h2, h3⟩ := bind₂_eq_ok.1 h
      have hslot := pushes_value (ρ := ρ) slot hp.1 h1
      have hkey := pushes_value (ρ := ρ) key hp.2 h2
      exact pushes_hash hslot hkey (by rw [Sym.eval, hashPair, if_neg hv, hslot.opts]) h3
termination_by structural s

/-- The code of the operands pushes their values, the first of them last. -/
theorem emits_operands {ρ : Valuation} (args : List Sym) {em em' : Emitter}
    (hp : Sym.arePure args) (h : operands args em = .ok em') :
    Emits ρ em em' ∧ em'.stack ρ = args.map (Sym.eval ρ em.opts.vyper) ++ em.stack ρ := by
  match args, hp, h with
  | [], _, h =>
    cases h
    exact ⟨.refl ρ em, rfl⟩
  | a :: rest, hp, h =>
    simp only [Sym.arePure, Bool.and_eq_true] at hp
    rw [operands] at h
    obtain ⟨em1, h1, h2⟩ := bind_eq_ok.1 h
    obtain ⟨he1, hs1⟩ := emits_operands rest hp.2 h1
    have hpush := pushes_value (ρ := ρ) a hp.1 h2
    refine ⟨he1.trans hpush.toEmits, ?_⟩
    rw [hpush.stack, hs1, he1.opts]
    rfl
termination_by structural args

end

end Univdreams.Compile
